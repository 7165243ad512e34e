import Tss.Basic
import Mathlib.Logic.Relation

/-!
# Concurrent `record` calls

Any number of threads submit journals to one transaction, each through `Transaction::record`,
which takes the record-vector mutex, pushes, reads the length, assigns it to the last element,
stores the clock and releases the mutex. Each of these is a step of its own, and the steps of
different calls interleave. `rewind` and `rollback` take `&mut self` or `self`, so they are single
steps that only run when no `record` call is in flight.

The invariant `Inv`: the mutex is held by exactly the call between `lock` and `unlock`; while it
is free the transaction is consistent; while it is held the transaction is what the holder's
position says. From it, `clock ≤ len ≤ clock + 1` in every reachable state.
-/

namespace Tss

/-- Where a `Transaction::record` call stands: before each of its steps, or returned. -/
inductive RecordPc
  /-- `self.record.lock()`, waiting for the mutex. -/
  | lock
  /-- `record_vector.push(record)`. -/
  | push
  /-- `let new_clock = record_vector.len()`. -/
  | len
  /-- `record_vector[new_clock - 1].assign_clock(new_clock)`. -/
  | assignClock (newClock : Nat)
  /-- `self.clock.store(new_clock, Release)`. -/
  | store (newClock : Nat)
  /-- The guard is dropped on return. -/
  | unlock (newClock : Nat)
  /-- Returned `new_clock`. -/
  | done (newClock : Nat)
  deriving DecidableEq, Repr

namespace RecordPc

/-- The positions at which the call holds the mutex. -/
def holds : RecordPc → Bool
  | .lock | .done _ => false
  | _ => true

/-- The call has returned. -/
def returned : RecordPc → Bool
  | .done _ => true
  | _ => false

theorem holds_eq_false_of_returned {pc : RecordPc} (h : pc.returned = true) : pc.holds = false := by
  cases pc <;> simp_all [holds, returned]

end RecordPc

/-- One `Transaction::record` call: the Annals it submits and where it stands. -/
structure RecordCall (α : Type) where
  annals : Annals α
  pc : RecordPc
  deriving DecidableEq, Repr

/-- A transaction shared by the threads that submit to it: the transaction, the holder of the
record-vector mutex, the `record` calls so far (a call's index names it), the calls in the order
they took the mutex with the Annals each submits (ghost), and whether the transaction still
exists. -/
structure Shared (α : Type) where
  tx : Transaction α
  holder : Option Nat
  calls : List (RecordCall α)
  acquired : List (Nat × Annals α)
  live : Bool
  deriving DecidableEq, Repr

namespace Shared

variable {α : Type}

/-- The transaction `t` before any thread submits to it. -/
def init (t : Transaction α) : Shared α := ⟨t, none, [], [], true⟩

/-- One step of the `record` call `i`, if it can take one. -/
def recordStep (s : Shared α) (i : Nat) : Option (Shared α) :=
  match s.calls[i]? with
  | none => none
  | some c =>
    let moved (pc : RecordPc) := s.calls.set i { c with pc := pc }
    match c.pc with
    | .lock =>
        if s.holder = none then
          some { s with
            holder := some i, calls := moved .push, acquired := s.acquired ++ [(i, c.annals)] }
        else none
    | .push =>
        some { s with
          tx := { s.tx with recordVector := c.annals :: s.tx.recordVector }, calls := moved .len }
    | .len => some { s with calls := moved (.assignClock s.tx.recordVector.length) }
    | .assignClock n =>
        if 0 < n ∧ n ≤ s.tx.recordVector.length then
          some { s with
            tx := { s.tx with
              recordVector := modifyIndex s.tx.recordVector (n - 1) (·.assignClock n) }
            calls := moved (.store n) }
        else none
    | .store n => some { s with tx := { s.tx with clock := n }, calls := moved (.unlock n) }
    | .unlock n => some { s with holder := none, calls := moved (.done n) }
    | .done _ => none

/-- No `record` call is in flight. -/
def Idle (s : Shared α) : Prop := ∀ c ∈ s.calls, c.pc.returned = true

/-- A step of the submitting threads: a thread calls `record`, or a call takes a step. -/
inductive SubmitStep : Shared α → Shared α → Prop
  | spawn (s : Shared α) (a : Annals α) :
      s.live = true → SubmitStep s { s with calls := s.calls ++ [⟨a, .lock⟩] }
  | record {s s' : Shared α} (i : Nat) : s.recordStep i = some s' → SubmitStep s s'

/-- A step of the system. `rollback(self)` consumes the transaction: the system stops there, and
its pops are `Transaction.rollback`. -/
inductive Step : Shared α → Shared α → Prop
  | submit {s s' : Shared α} : SubmitStep s s' → Step s s'
  | rewind (s : Shared α) (k : Nat) :
      s.live = true → s.Idle → Step s { s with tx := (s.tx.rewind k).tx }
  | rollback (s : Shared α) : s.live = true → s.Idle → Step s { s with live := false }

/-- The states reachable from `Transaction::new`. -/
def Reachable (s : Shared α) : Prop := Relation.ReflTransGen Step (init Transaction.new) s

/-- The mutex is held by exactly the call that stands between `lock` and `unlock`. -/
structure Exclusive (holder : Option Nat) (calls : List (RecordCall α)) : Prop where
  holds_iff : ∀ i c, calls[i]? = some c → (c.pc.holds = true ↔ holder = some i)
  holder_lt : ∀ i, holder = some i → i < calls.length

theorem Exclusive.init : Exclusive none ([] : List (RecordCall α)) := ⟨by simp, by simp⟩

theorem Exclusive.spawn {holder : Option Nat} {calls : List (RecordCall α)}
    (h : Exclusive holder calls) (a : Annals α) :
    Exclusive holder (calls ++ [⟨a, .lock⟩]) := by
  refine ⟨fun i c hc => ?_, fun i hi => by simpa using Nat.lt_succ_of_lt (h.holder_lt i hi)⟩
  rcases Nat.lt_or_ge i calls.length with hi | hi
  · rw [List.getElem?_append_left hi] at hc
    exact h.holds_iff i c hc
  · have hic : i = calls.length := by
      by_contra hne
      rw [List.getElem?_eq_none (by simp; omega)] at hc
      cases hc
    subst hic
    simp only [List.getElem?_concat_length, Option.some.injEq] at hc
    subst hc
    exact ⟨by simp [RecordPc.holds], fun hh => absurd (h.holder_lt _ hh) (lt_irrefl _)⟩

/-- Moving call `i` to `pc`, with the holder becoming `holder'`. -/
theorem Exclusive.move {holder holder' : Option Nat} {calls : List (RecordCall α)}
    (h : Exclusive holder calls) {i : Nat} {c : RecordCall α} (hc : calls[i]? = some c)
    (pc : RecordPc) (hpc : pc.holds = true ↔ holder' = some i)
    (hother : ∀ j, j ≠ i → (holder' = some j ↔ holder = some j)) :
    Exclusive holder' (calls.set i { c with pc := pc }) := by
  have hi : i < calls.length := (List.getElem?_eq_some_iff.mp hc).1
  refine ⟨fun j d hd => ?_, fun j hj => ?_⟩
  · rw [List.getElem?_set] at hd
    by_cases hij : i = j
    · subst hij
      simp only [hi, if_true, Option.some.injEq] at hd
      subst hd
      exact hpc
    · simp only [hij, if_false] at hd
      exact (h.holds_iff j d hd).trans (hother j (Ne.symm hij)).symm
  · rw [List.length_set]
    by_cases hij : j = i
    · exact hij ▸ hi
    · exact h.holder_lt j ((hother j hij).mp hj)

/-- What holds of the transaction while the call at `pc` holds the mutex. -/
def HolderInv (t : Transaction α) : RecordPc → Prop
  | .push => t.Consistent
  | .len => t.recordVector.length = t.clock + 1 ∧ Positional t.recordVector.tail
  | .assignClock n =>
      n = t.recordVector.length ∧ t.recordVector.length = t.clock + 1 ∧
        Positional t.recordVector.tail
  | .store n =>
      n = t.recordVector.length ∧ t.recordVector.length = t.clock + 1 ∧
        Positional t.recordVector
  | .unlock n => n = t.recordVector.length ∧ t.Consistent
  | .lock | .done _ => False

/-- The invariant of every reachable state. -/
structure Inv (s : Shared α) : Prop where
  exclusive : Exclusive s.holder s.calls
  free : s.holder = none → s.tx.Consistent
  held : ∀ i c, s.holder = some i → s.calls[i]? = some c → HolderInv s.tx c.pc

theorem inv_init {t : Transaction α} (h : t.Consistent) : (init t).Inv :=
  ⟨Exclusive.init, fun _ => h, by simp [init]⟩

theorem Inv.holder_of_holds {s : Shared α} (h : s.Inv) {i : Nat} {c : RecordCall α}
    (hc : s.calls[i]? = some c) (hpc : c.pc.holds = true) : s.holder = some i :=
  (h.exclusive.holds_iff i c hc).mp hpc

theorem Inv.holder_eq_none_of_idle {s : Shared α} (h : s.Inv) (hidle : s.Idle) :
    s.holder = none := by
  cases hh : s.holder with
  | none => rfl
  | some i =>
      obtain ⟨c, hc⟩ : ∃ c, s.calls[i]? = some c :=
        ⟨_, List.getElem?_eq_getElem (h.exclusive.holder_lt i hh)⟩
      have hholds := (h.exclusive.holds_iff i c hc).mpr hh
      rw [RecordPc.holds_eq_false_of_returned (hidle c (List.getElem?_mem hc))] at hholds
      cases hholds

theorem Inv.spawn {s : Shared α} (h : s.Inv) (a : Annals α) :
    Inv { s with calls := s.calls ++ [⟨a, .lock⟩] } :=
  ⟨h.exclusive.spawn a, h.free, fun i c hi hc => h.held i c hi (by
    have hlt := h.exclusive.holder_lt i hi
    rwa [List.getElem?_append_left hlt] at hc)⟩

theorem HolderInv.bounds {t : Transaction α} :
    ∀ {pc : RecordPc}, HolderInv t pc →
      t.clock ≤ t.recordVector.length ∧ t.recordVector.length ≤ t.clock + 1
  | .push, h => by have := h.clock_eq; omega
  | .len, h => by have := h.1; omega
  | .assignClock _, h => by have := h.2.1; omega
  | .store _, h => by have := h.2.1; omega
  | .unlock _, h => by have := h.2.clock_eq; omega

theorem getElem?_set_of_getElem? {calls : List β} {i : Nat} {c : β} (hc : calls[i]? = some c)
    (d : β) : (calls.set i d)[i]? = some d := by
  simp [List.getElem?_set, (List.getElem?_eq_some_iff.mp hc).1]

/-- The invariant after call `i` moves to `pc`, the holder being `i` or nobody. -/
theorem Inv.move {s : Shared α} (h : s.Inv) {i : Nat} {c : RecordCall α}
    (hc : s.calls[i]? = some c) (t : Transaction α) (holder : Option Nat)
    (acquired : List (Nat × Annals α)) (pc : RecordPc)
    (hholder : holder = none ∨ holder = some i)
    (hpc : pc.holds = true ↔ holder = some i)
    (hother : ∀ j, j ≠ i → (holder = some j ↔ s.holder = some j))
    (hfree : holder = none → t.Consistent) (hheld : holder = some i → HolderInv t pc) :
    Inv { s with
      tx := t, holder := holder, calls := s.calls.set i { c with pc := pc },
      acquired := acquired } := by
  refine ⟨h.exclusive.move hc pc hpc hother, hfree, fun j d hj hd => ?_⟩
  obtain rfl : j = i := by rcases hholder with h0 | h0 <;> simp_all
  rw [getElem?_set_of_getElem? hc, Option.some.injEq] at hd
  exact hd ▸ hheld hj

/-- One step of a `record` call keeps the invariant. -/
theorem Inv.recordStep {s s' : Shared α} (h : s.Inv) {i : Nat} (hs : s.recordStep i = some s') :
    s'.Inv := by
  unfold Shared.recordStep at hs
  cases hc : s.calls[i]? with
  | none => simp [hc] at hs
  | some c =>
    have key (hh : c.pc.holds = true) : s.holder = some i ∧ HolderInv s.tx c.pc :=
      ⟨h.holder_of_holds hc hh, h.held i c (h.holder_of_holds hc hh) hc⟩
    simp only [hc] at hs
    cases hpc : c.pc with
    | lock =>
        simp only [hpc] at hs
        split at hs
        · rename_i hnone
          cases hs
          exact h.move hc _ _ _ .push (.inr rfl) (by simp [RecordPc.holds])
            (fun j hj => by simp [hnone, Ne.symm hj]) (by simp) (fun _ => h.free hnone)
        · cases hs
    | push =>
        simp only [hpc] at hs
        cases hs
        obtain ⟨hi, ht⟩ := key (by simp [hpc, RecordPc.holds])
        rw [hpc] at ht
        exact h.move hc _ _ _ .len (.inr hi) (by simp [RecordPc.holds, hi]) (fun _ _ => Iff.rfl)
          (by simp [hi]) (fun _ => ⟨by simp [ht.clock_eq], by simpa using ht.positional⟩)
    | len =>
        simp only [hpc] at hs
        cases hs
        obtain ⟨hi, ht⟩ := key (by simp [hpc, RecordPc.holds])
        rw [hpc] at ht
        exact h.move hc _ _ _ (.assignClock _) (.inr hi) (by simp [RecordPc.holds, hi])
          (fun _ _ => Iff.rfl) (by simp [hi]) (fun _ => ⟨rfl, ht⟩)
    | assignClock n =>
        simp only [hpc] at hs
        split at hs
        · cases hs
          obtain ⟨hi, ht⟩ := key (by simp [hpc, RecordPc.holds])
          rw [hpc] at ht
          obtain ⟨hn, hlen, hpos⟩ := ht
          cases hv : s.tx.recordVector with
          | nil => simp [hv] at hlen
          | cons b w =>
              rw [hv] at hn hlen hpos
              have hw : n - 1 = w.length := by simp at hn; omega
              refine h.move hc _ _ _ (.store n) (.inr hi) (by simp [RecordPc.holds, hi])
                (fun _ _ => Iff.rfl) (by simp [hi]) (fun _ => ?_)
              simp only [hv, hw, modifyIndex_last]
              exact ⟨by simpa using hn, by simpa using hlen, by simpa [hn] using hpos⟩
        · cases hs
    | store n =>
        simp only [hpc] at hs
        cases hs
        obtain ⟨hi, ht⟩ := key (by simp [hpc, RecordPc.holds])
        rw [hpc] at ht
        obtain ⟨hn, hlen, hpos⟩ := ht
        exact h.move hc _ _ _ (.unlock n) (.inr hi) (by simp [RecordPc.holds, hi])
          (fun _ _ => Iff.rfl) (by simp [hi]) (fun _ => ⟨hn, hn, hpos⟩)
    | unlock n =>
        simp only [hpc] at hs
        cases hs
        obtain ⟨hi, ht⟩ := key (by simp [hpc, RecordPc.holds])
        rw [hpc] at ht
        exact h.move hc _ _ _ (.done n) (.inl rfl) (by simp [RecordPc.holds])
          (fun j hj => by simp [hi, Ne.symm hj]) (fun _ => ht.2) (by simp)
    | done n => simp [hpc] at hs

/-- Every step keeps the invariant. -/
theorem Inv.step {s s' : Shared α} (h : s.Inv) : Step s s' → s'.Inv
  | .submit (.spawn _ a _) => h.spawn a
  | .submit (.record _ hs) => h.recordStep hs
  | .rewind _ k _ hidle =>
      ⟨h.exclusive, fun hn => (h.free hn).rewind k,
        fun _ _ hi => by simp [h.holder_eq_none_of_idle hidle] at hi⟩
  | .rollback _ _ _ => ⟨h.exclusive, h.free, h.held⟩

theorem Reachable.inv {s : Shared α} (hs : s.Reachable) : s.Inv := by
  induction hs with
  | refl => exact inv_init Transaction.consistent_new
  | tail _ hst ih => exact ih.step hst

/-- From `Transaction::new`, under any interleaving of `record` calls with `rewind` and
`rollback`: `clock ≤ len ≤ clock + 1`, and while the mutex is free the clock is the length and
the Annals at every 1-based position `i` carries clock `i`. -/
theorem record_clock_invariant {s : Shared α} (hs : s.Reachable) :
    s.tx.clock ≤ s.tx.recordVector.length ∧ s.tx.recordVector.length ≤ s.tx.clock + 1 ∧
    (s.holder = none → s.tx.clock = s.tx.recordVector.length ∧
      ∀ i a, s.tx.annals[i]? = some a → a.clock = i + 1) := by
  have h := hs.inv
  refine ⟨?_, ?_, fun hn => ⟨(h.free hn).clock_eq,
    Positional.iff_getElem?.mp (h.free hn).positional⟩⟩ <;>
  · cases hh : s.holder with
    | none => have := (h.free hh).clock_eq; omega
    | some i =>
        obtain ⟨c, hc⟩ : ∃ c, s.calls[i]? = some c :=
          ⟨_, List.getElem?_eq_getElem (h.exclusive.holder_lt i hh)⟩
        have := (h.held i c hh hc).bounds
        omega

/-- A fresh transaction while one `record` call, having pushed, holds the mutex. -/
def midCall : Shared Unit :=
  ⟨⟨[⟨(), 0⟩], 0⟩, some 0, [⟨⟨(), 0⟩, .len⟩], [(0, ⟨(), 0⟩)], true⟩

theorem midCall_reachable : midCall.Reachable :=
  .head (.submit (.spawn _ ⟨(), 0⟩ rfl)) <| .head (.submit (.record 0 rfl)) <|
    .head (.submit (.record 0 rfl)) .refl

theorem record_clock_invariant_mid_call :
    midCall.Reachable ∧
      (midCall.tx.clock ≤ midCall.tx.recordVector.length ∧
        midCall.tx.recordVector.length ≤ midCall.tx.clock + 1 ∧
        (midCall.holder = none → midCall.tx.clock = midCall.tx.recordVector.length ∧
          ∀ i a, midCall.tx.annals[i]? = some a → a.clock = i + 1)) :=
  ⟨midCall_reachable, record_clock_invariant midCall_reachable⟩

end Shared

end Tss
