import Tss.Basic
import Mathlib.Algebra.Group.Nat.Basic

/-!
# The database header

`DatabaseHeader` (`db_header.rs`) is four `u64` fields stored little-endian at the start of the
database file. `flush_header` grows the file to three pages and writes them; `from_file` reads
them back, or writes the default header into an empty file. The `RandomAccessFile` these run on
is outside the sources and is modelled from the spec as the bytes it holds.
-/

namespace Tss

/-- Modelled from the spec: a `RandomAccessFile` (in `file_io`, outside the sources) as the bytes
it holds. Its calls succeed, except a read past the end. -/
structure RandomAccessFile where
  bytes : List UInt8
  deriving DecidableEq, Repr

namespace RandomAccessFile

/-- `len`. -/
def len (f : RandomAccessFile) : Nat := f.bytes.length

/-- `set_len`: truncate, or extend with zero bytes. -/
def setLen (f : RandomAccessFile) (n : Nat) : Except IoErrorKind RandomAccessFile :=
  .ok ⟨f.bytes.take n ++ List.replicate (n - f.bytes.length) 0⟩

/-- `write(buf, offset)`: overwrite the bytes from `offset` on, extending the file with zero
bytes up to `offset` if it is shorter. -/
def write (f : RandomAccessFile) (buf : List UInt8) (offset : Nat) :
    Except IoErrorKind RandomAccessFile :=
  .ok ⟨f.bytes.take offset ++ List.replicate (offset - f.bytes.length) 0 ++ buf ++
    f.bytes.drop (offset + buf.length)⟩

/-- `read(buf, offset)` into a buffer of `n` bytes; reading past the end fails with
`UnexpectedEof`. -/
def read (f : RandomAccessFile) (n offset : Nat) : Except IoErrorKind (List UInt8) :=
  if offset + n ≤ f.bytes.length then .ok ((f.bytes.drop offset).take n)
  else .error .unexpectedEof

/-- `sync_all`. -/
def syncAll (f : RandomAccessFile) : Except IoErrorKind RandomAccessFile := .ok f

/-- Writing at the end of a prefix `p` of the file replaces the bytes after it. -/
@[simp] theorem write_over (p b buf : List UInt8) {offset : Nat} (hp : p.length = offset) :
    (⟨p ++ b.drop offset⟩ : RandomAccessFile).write buf offset =
      .ok ⟨p ++ buf ++ b.drop (offset + buf.length)⟩ := by
  subst hp
  simp [write, List.drop_drop, Nat.add_comm]

@[simp] theorem write_zero (b buf : List UInt8) :
    (⟨b⟩ : RandomAccessFile).write buf 0 = .ok ⟨buf ++ b.drop buf.length⟩ := by
  simpa using write_over [] b buf rfl

theorem read_of_le {f : RandomAccessFile} {n offset : Nat} (h : offset + n ≤ f.len) :
    f.read n offset = .ok ((f.bytes.drop offset).take n) :=
  if_pos h

theorem read_of_lt {f : RandomAccessFile} {n offset : Nat} (h : f.len < offset + n) :
    f.read n offset = .error .unexpectedEof :=
  if_neg (Nat.not_le.mpr h)

/-- A read either fills the buffer or fails with `UnexpectedEof`. -/
theorem read_ok_or_eof (f : RandomAccessFile) (n offset : Nat) :
    (∃ b, f.read n offset = .ok b) ∨ f.read n offset = .error .unexpectedEof := by
  unfold read
  split <;> simp

end RandomAccessFile

/-- The `n` bytes of `x`, least significant first. -/
def leBytes : Nat → Nat → List UInt8
  | 0, _ => []
  | n + 1, x => UInt8.ofNat x :: leBytes n (x / 256)

/-- The number with these bytes, least significant first. -/
def leValue : List UInt8 → Nat
  | [] => 0
  | b :: bs => b.toNat + 256 * leValue bs

@[simp] theorem length_leBytes (n x : Nat) : (leBytes n x).length = n := by
  induction n generalizing x with
  | zero => rfl
  | succ n ih => simp [leBytes, ih]

theorem leValue_leBytes (n x : Nat) : leValue (leBytes n x) = x % 256 ^ n := by
  induction n generalizing x with
  | zero => rw [leBytes, leValue, Nat.pow_zero, Nat.mod_one]
  | succ n ih =>
      have hbyte : (UInt8.ofNat x).toNat = x % 256 := by
        simp only [UInt8.toNat, UInt8.ofNat, BitVec.toNat_ofNat]
      rw [leBytes, leValue, ih, hbyte, Nat.pow_succ', Nat.mod_mul]

/-- `u64::to_le_bytes`. -/
def toLeBytes (x : UInt64) : List UInt8 := leBytes 8 x.toNat

/-- `u64::from_le_bytes`. -/
def fromLeBytes (b : List UInt8) : UInt64 := UInt64.ofNat (leValue b)

@[simp] theorem length_toLeBytes (x : UInt64) : (toLeBytes x).length = 8 := length_leBytes 8 _

@[simp] theorem fromLeBytes_toLeBytes (x : UInt64) : fromLeBytes (toLeBytes x) = x := by
  apply UInt64.eq_of_toBitVec_eq
  simp [fromLeBytes, toLeBytes, leValue_leBytes, UInt64.ofNat, UInt64.toNat,
    Nat.mod_eq_of_lt x.toBitVec.isLt]

theorem leValue_lt (b : List UInt8) : leValue b < 256 ^ b.length := by
  induction b with
  | nil => simp [leValue]
  | cons a b ih =>
      have ha : a.toNat < 256 := a.toNat_lt_size
      rw [leValue, List.length_cons, Nat.pow_succ']
      omega

/-- Encoding the value of `n` bytes gives them back. -/
theorem leBytes_leValue (b : List UInt8) : leBytes b.length (leValue b) = b := by
  induction b with
  | nil => rfl
  | cons a b ih =>
      have ha : a.toNat < 256 := a.toNat_lt_size
      have hbyte : UInt8.ofNat (a.toNat + 256 * leValue b) = a := by
        apply UInt8.eq_of_toBitVec_eq
        apply BitVec.eq_of_toNat_eq
        simp [UInt8.ofNat, UInt8.toNat]
        omega
      have hrest : (a.toNat + 256 * leValue b) / 256 = leValue b := by omega
      rw [List.length_cons, leValue, leBytes, hbyte, hrest, ih]

theorem toLeBytes_fromLeBytes {b : List UInt8} (hb : b.length = 8) :
    toLeBytes (fromLeBytes b) = b := by
  have hlt : leValue b < UInt64.size := by simpa [hb] using leValue_lt b
  rw [toLeBytes, fromLeBytes, UInt64.toNat_ofNat_of_lt hlt, ← hb, leBytes_leValue]

/-- `VERSION`. -/
def version : UInt64 := 1

/-- `PAGE_SIZE`. -/
def pageSize : UInt64 := (1 : UInt64) <<< 9

/-- `DatabaseHeader`. -/
structure DatabaseHeader where
  version : UInt64
  logOffset : UInt64
  directoryOffset : UInt64
  freePageLink : UInt64
  deriving DecidableEq, Repr

/-- `Default for DatabaseHeader`. -/
instance : Inhabited DatabaseHeader := ⟨⟨version, pageSize, pageSize * 2, 0⟩⟩

namespace DatabaseHeader

/-- The 32 bytes `flush_header` writes: the four fields, little-endian, in order. -/
def toBytes (h : DatabaseHeader) : List UInt8 :=
  toLeBytes h.version ++ toLeBytes h.logOffset ++ toLeBytes h.directoryOffset ++
    toLeBytes h.freePageLink

/-- The header `from_file` decodes from the first 32 bytes. -/
def ofBytes (b : List UInt8) : DatabaseHeader :=
  ⟨fromLeBytes (b.take 8), fromLeBytes ((b.drop 8).take 8), fromLeBytes ((b.drop 16).take 8),
    fromLeBytes ((b.drop 24).take 8)⟩

@[simp] theorem length_toBytes (h : DatabaseHeader) : h.toBytes.length = 32 := by
  simp [toBytes]

/-- Decoding what was encoded gives the header back, whatever follows it. -/
theorem ofBytes_toBytes (h : DatabaseHeader) (rest : List UInt8) :
    ofBytes (h.toBytes ++ rest) = h := by
  simp [ofBytes, toBytes, List.drop_append_eq_append_drop, List.take_append_eq_append_take,
    List.drop_eq_nil_of_le, List.take_of_length_le]

/-- Encoding what was decoded gives the first 32 bytes back. -/
theorem toBytes_ofBytes {b : List UInt8} (hb : 32 ≤ b.length) :
    (ofBytes b).toBytes = b.take 32 := by
  have hslice : ∀ k, k + 8 ≤ b.length →
      toLeBytes (fromLeBytes ((b.drop k).take 8)) = (b.drop k).take 8 :=
    fun k hk => toLeBytes_fromLeBytes (by simp; omega)
  have h0 := hslice 0 (by omega)
  simp only [List.drop_zero] at h0
  rw [toBytes, ofBytes, h0, hslice 8 (by omega), hslice 16 (by omega), hslice 24 (by omega),
    show 32 = 8 + (8 + (8 + 8)) from rfl, List.take_add, List.take_add, List.take_add,
    List.drop_drop, List.drop_drop]
  simp only [List.append_assoc]

/-- `DatabaseHeader::flush_header`: grow the file to three pages, write the four fields at offsets
`0`, `8`, `16` and `24`, and sync. -/
def flushHeader (h : DatabaseHeader) (db : RandomAccessFile) : Except Error RandomAccessFile := do
  let db ← (if db.len < (pageSize * 3).toNat then (db.setLen (pageSize * 3).toNat).mapError .io
    else pure db)
  let db ← (db.write (toLeBytes h.version) 0).mapError .io
  let db ← (db.write (toLeBytes h.logOffset) 8).mapError .io
  let db ← (db.write (toLeBytes h.directoryOffset) 16).mapError .io
  let db ← (db.write (toLeBytes h.freePageLink) 24).mapError .io
  let db ← db.syncAll.mapError .io
  pure db

/-- `DatabaseHeader::from_file`: read the header, or write the default one into an empty file. -/
def fromFile (db : RandomAccessFile) : Except Error (DatabaseHeader × RandomAccessFile) :=
  if db.len = 0 then do
    let dbHeader : DatabaseHeader := default
    let db ← dbHeader.flushHeader db
    pure (dbHeader, db)
  else do
    let version ← fromLeBytes <$> (db.read 8 0).mapError .io
    let logOffset ← fromLeBytes <$> (db.read 8 8).mapError .io
    let directoryOffset ← fromLeBytes <$> (db.read 8 16).mapError .io
    let freePageLink ← fromLeBytes <$> (db.read 8 24).mapError .io
    pure (⟨version, logOffset, directoryOffset, freePageLink⟩, db)

theorem pageSize_mul_three : (pageSize * 3).toNat = 1536 := rfl

/-- The file `flush_header` leaves: the encoded header over the first 32 bytes of the file grown
to three pages. -/
theorem flushHeader_eq (h : DatabaseHeader) (f : RandomAccessFile) :
    h.flushHeader f =
      .ok ⟨h.toBytes ++
        (f.bytes ++ List.replicate ((pageSize * 3).toNat - f.len) 0).drop 32⟩ := by
  have hgrow : (if f.len < (pageSize * 3).toNat then (f.setLen (pageSize * 3).toNat).mapError .io
      else pure f) =
      (.ok ⟨f.bytes ++ List.replicate ((pageSize * 3).toNat - f.len) 0⟩ : Except Error _) := by
    rw [pageSize_mul_three]
    split <;> simp_all [RandomAccessFile.setLen, RandomAccessFile.len, Except.mapError, pure,
      Except.pure]
    omega
  unfold flushHeader
  rw [hgrow]
  simp only [bind, Except.bind, Except.mapError, RandomAccessFile.write_zero,
    RandomAccessFile.write_over, length_toLeBytes, List.length_append, RandomAccessFile.syncAll,
    pure, Except.pure, toBytes]

/-- On a file of at least 32 bytes, `from_file` decodes the first 32 and changes nothing. -/
theorem fromFile_of_le {f : RandomAccessFile} (h32 : 32 ≤ f.len) :
    fromFile f = .ok (ofBytes f.bytes, f) := by
  have h0 : f.len ≠ 0 := by omega
  simp [fromFile, h0, RandomAccessFile.read_of_le (show 0 + 8 ≤ f.len by omega),
    RandomAccessFile.read_of_le (show 8 + 8 ≤ f.len by omega),
    RandomAccessFile.read_of_le (show 16 + 8 ≤ f.len by omega),
    RandomAccessFile.read_of_le (show 24 + 8 ≤ f.len by omega), ofBytes, bind, Except.bind,
    Except.mapError, Functor.map, Except.map, pure, Except.pure]

/-- On a non-empty file shorter than the header, a read fails and `from_file` with it. -/
theorem fromFile_of_lt {f : RandomAccessFile} (h0 : f.len ≠ 0) (h32 : f.len < 32) :
    fromFile f = .error (.io .unexpectedEof) := by
  have h24 : f.read 8 24 = .error .unexpectedEof := RandomAccessFile.read_of_lt (by omega)
  rcases f.read_ok_or_eof 8 0 with ⟨_, hr0⟩ | hr0 <;>
    rcases f.read_ok_or_eof 8 8 with ⟨_, hr8⟩ | hr8 <;>
    rcases f.read_ok_or_eof 8 16 with ⟨_, hr16⟩ | hr16 <;>
    simp [fromFile, h0, hr0, hr8, hr16, h24, bind, Except.bind, Except.mapError, Functor.map,
      Except.map]

/-- `from_file` reads back what `flush_header` wrote. -/
theorem fromFile_of_flushHeader {h : DatabaseHeader} {f f' : RandomAccessFile}
    (hflush : h.flushHeader f = .ok f') : fromFile f' = .ok (h, f') ∧ 1536 ≤ f'.len := by
  rw [flushHeader_eq, pageSize_mul_three, Except.ok.injEq] at hflush
  subst hflush
  have hlen : 1536 ≤ (⟨h.toBytes ++ (f.bytes ++ List.replicate (1536 - f.len) 0).drop 32⟩ :
      RandomAccessFile).len := by
    simp [RandomAccessFile.len]
    omega
  exact ⟨by rw [fromFile_of_le (by omega), ofBytes_toBytes], hlen⟩

/-- Past the header, the flushed file holds the old bytes, then the zero bytes of the growth. -/
theorem flushHeader_getElem? {h : DatabaseHeader} {f f' : RandomAccessFile}
    (hflush : h.flushHeader f = .ok f') {i : Nat} (hi : 32 ≤ i) :
    f'.bytes[i]? = f.bytes[i]? ∨ (f.len ≤ i ∧ f'.bytes[i]? = some 0) := by
  rw [flushHeader_eq, Except.ok.injEq] at hflush
  subst hflush
  have hgrown : 32 ≤ (f.bytes ++ List.replicate ((pageSize * 3).toNat - f.len) 0).length := by
    simp [RandomAccessFile.len, pageSize_mul_three]
    omega
  have hpast :
      (h.toBytes ++ (f.bytes ++ List.replicate ((pageSize * 3).toNat - f.len) 0).drop 32)[i]? =
      (f.bytes ++ List.replicate ((pageSize * 3).toNat - f.len) 0)[i]? := by
    rw [List.getElem?_append_right (by simp; omega), List.getElem?_drop, length_toBytes]
    congr 1
    omega
  simp only [hpast]
  rcases Nat.lt_or_ge i f.len with hlt | hge
  · exact .inl (List.getElem?_append_left hlt)
  · rw [List.getElem?_append_right hge, List.getElem?_replicate]
    split
    · exact .inr ⟨hge, rfl⟩
    · exact .inl (List.getElem?_eq_none hge).symm

/-- The file `from_file` leaves when it finds an empty one. -/
def initialFile : RandomAccessFile :=
  ⟨(default : DatabaseHeader).toBytes ++ (List.replicate 1536 0).drop 32⟩

/-- On an empty file `from_file` writes the default header. -/
theorem fromFile_empty : fromFile ⟨[]⟩ = .ok (default, initialFile) := by
  have h0 : (⟨[]⟩ : RandomAccessFile).len = 0 := rfl
  rw [fromFile, if_pos h0]
  simp only [flushHeader_eq, pageSize_mul_three, RandomAccessFile.len, List.length_nil,
    Nat.sub_zero, List.nil_append, bind, Except.bind, pure, Except.pure, initialFile]

/-- Whatever the header and the file, once `flush_header` succeeds `from_file` reads the header
back from a file of at least three pages, whose bytes past the header are the old ones or the zero
bytes the growth added. On an empty file `from_file` leaves the file that flushing the default
header over it leaves, and reading that file gives the default header again. -/
theorem header_round_trip (h : DatabaseHeader) (f f' : RandomAccessFile)
    (hflush : h.flushHeader f = .ok f') :
    fromFile f' = .ok (h, f') ∧ (pageSize * 3).toNat ≤ f'.len ∧
      (∀ i, 32 ≤ i →
        f'.bytes[i]? = f.bytes[i]? ∨ (f.len ≤ i ∧ f'.bytes[i]? = some 0)) ∧
      fromFile ⟨[]⟩ = .ok (default, initialFile) ∧
      (default : DatabaseHeader).flushHeader ⟨[]⟩ = .ok initialFile ∧
      fromFile initialFile = .ok (default, initialFile) :=
  ⟨(fromFile_of_flushHeader hflush).1, (fromFile_of_flushHeader hflush).2,
    fun _ hi => flushHeader_getElem? hflush hi, fromFile_empty, flushHeader_eq default ⟨[]⟩,
    (fromFile_of_flushHeader (flushHeader_eq default ⟨[]⟩)).1⟩

/-- A header none of whose fields is the default one. -/
def sampleHeader : DatabaseHeader := ⟨2, 1024, 2048, 3072⟩

/-- A file of 40 bytes, each `0xff`: one more field's worth than the header. -/
def sampleFile : RandomAccessFile := ⟨List.replicate 40 255⟩

/-- What flushing `sampleHeader` over `sampleFile` leaves. -/
def sampleFlushed : RandomAccessFile :=
  ⟨sampleHeader.toBytes ++ (sampleFile.bytes ++ List.replicate 1496 0).drop 32⟩

theorem header_round_trip_sample :
    sampleHeader.flushHeader sampleFile = .ok sampleFlushed ∧
      fromFile sampleFlushed = .ok (sampleHeader, sampleFlushed) ∧
      (pageSize * 3).toNat ≤ sampleFlushed.len ∧
      (∀ i, 32 ≤ i → sampleFlushed.bytes[i]? = sampleFile.bytes[i]? ∨
        (sampleFile.len ≤ i ∧ sampleFlushed.bytes[i]? = some 0)) ∧
      fromFile ⟨[]⟩ = .ok (default, initialFile) ∧
      (default : DatabaseHeader).flushHeader ⟨[]⟩ = .ok initialFile ∧
      fromFile initialFile = .ok (default, initialFile) :=
  ⟨flushHeader_eq _ _, header_round_trip _ _ _ (flushHeader_eq _ _)⟩

/-- A header flushed over a flushed file leaves what flushing it alone leaves: the later flush
overwrites the earlier one, and flushing twice is flushing once. -/
theorem flushHeader_flushHeader (h h' : DatabaseHeader) (f f' : RandomAccessFile)
    (hflush : h.flushHeader f = .ok f') : h'.flushHeader f' = h'.flushHeader f := by
  rw [flushHeader_eq, pageSize_mul_three, Except.ok.injEq] at hflush
  subst hflush
  have hgrown : 1536 ≤ (f.bytes ++ List.replicate (1536 - f.len) 0).length := by
    simp [RandomAccessFile.len]
    omega
  have hlen : 1536 - (⟨h.toBytes ++ (f.bytes ++ List.replicate (1536 - f.len) 0).drop 32⟩ :
      RandomAccessFile).len = 0 := by
    simp [RandomAccessFile.len]
    omega
  rw [flushHeader_eq, flushHeader_eq, pageSize_mul_three, hlen, List.replicate_zero,
    List.append_nil, List.drop_left' (length_toBytes h)]

theorem flushHeader_flushHeader_sample :
    sampleHeader.flushHeader sampleFile = .ok sampleFlushed ∧ sampleHeader ≠ default ∧
      (default : DatabaseHeader).flushHeader sampleFlushed =
        (default : DatabaseHeader).flushHeader sampleFile :=
  ⟨flushHeader_eq _ _, by decide,
    flushHeader_flushHeader sampleHeader default sampleFile sampleFlushed (flushHeader_eq _ _)⟩

/-- `flush_header` over a file whose first 32 bytes already hold the header only grows it. -/
theorem flushHeader_of_prefix {h : DatabaseHeader} {f : RandomAccessFile} {rest : List UInt8}
    (hf : f.bytes = h.toBytes ++ rest) :
    h.flushHeader f = .ok ⟨f.bytes ++ List.replicate ((pageSize * 3).toNat - f.len) 0⟩ := by
  rw [flushHeader_eq, hf, List.append_assoc, List.drop_left' (length_toBytes h)]

/-- Flushing the header `from_file` returned leaves the file `from_file` left, only grown with zero
bytes to three pages: a file of three pages or more is left byte for byte as it was. -/
theorem flushHeader_fromFile {f f' : RandomAccessFile} {h : DatabaseHeader}
    (hread : fromFile f = .ok (h, f')) :
    h.flushHeader f' = .ok ⟨f'.bytes ++ List.replicate ((pageSize * 3).toNat - f'.len) 0⟩ := by
  rcases Nat.lt_or_ge f.len 32 with h32 | h32
  · by_cases h0 : f.len = 0
    · obtain ⟨bytes⟩ := f
      obtain rfl : bytes = [] := List.eq_nil_of_length_eq_zero h0
      rw [fromFile_empty, Except.ok.injEq, Prod.mk.injEq] at hread
      obtain ⟨rfl, rfl⟩ := hread
      exact flushHeader_of_prefix rfl
    · rw [fromFile_of_lt h0 h32] at hread
      cases hread
  · rw [fromFile_of_le h32, Except.ok.injEq, Prod.mk.injEq] at hread
    obtain ⟨rfl, rfl⟩ := hread
    exact flushHeader_of_prefix (by rw [toBytes_ofBytes h32, List.take_append_drop])

theorem flushHeader_fromFile_sample :
    fromFile sampleFile = .ok (ofBytes sampleFile.bytes, sampleFile) ∧
      (ofBytes sampleFile.bytes).flushHeader sampleFile =
        .ok ⟨sampleFile.bytes ++ List.replicate ((pageSize * 3).toNat - sampleFile.len) 0⟩ :=
  ⟨fromFile_of_le (by decide), flushHeader_fromFile (fromFile_of_le (by decide))⟩

end DatabaseHeader

end Tss
