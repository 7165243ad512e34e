import Mathlib.Data.List.Basic

/-!
# Transactions

The state a `Transaction` (`transaction.rs`) owns, and the code that runs on it: `record`, `rewind`,
`rollback` and the drop glue. The record vector is a list kept newest first, so that `push` and
`pop` work on its head; `Transaction.annals` reads it back in push order.
-/

namespace Tss

/-- Modelled from the spec: an `Annals` (in `journal.rs`, outside the sources) is the batch of
changes one `Journal` submitted, tagged with the transaction clock it was given. -/
structure Annals (α : Type) where
  changes : α
  clock : Nat
  deriving DecidableEq, Repr

namespace Annals

/-- Modelled from the spec: `Annals::assign_clock`. -/
def assignClock (a : Annals α) (clock : Nat) : Annals α := { a with clock := clock }

@[simp] theorem assignClock_changes (a : Annals α) (n : Nat) :
    (a.assignClock n).changes = a.changes := rfl

@[simp] theorem assignClock_clock (a : Annals α) (n : Nat) : (a.assignClock n).clock = n := rfl

theorem assignClock_of_clock {a : Annals α} {n : Nat} (h : a.clock = n) : a.assignClock n = a := by
  subst h; rfl

end Annals

/-- The kinds of `std::io::Error` the modelled file reports. -/
inductive IoErrorKind
  | unexpectedEof
  deriving DecidableEq, Repr

/-- Modelled from the spec: the crate's `Error`, with the two kinds the modelled code returns. -/
inductive Error
  | fail
  | io (kind : IoErrorKind)
  deriving DecidableEq, Repr

/-- `Anchor`: the clocks a transaction leaves for the journals and snapshots that outlive it. -/
structure Anchor (C : Type) where
  preliminarySnapshot : C
  commitSnapshot : C
  deriving DecidableEq, Repr

/-- `Anchor::new`. -/
def Anchor.new [Inhabited C] : Anchor C := ⟨default, default⟩

/-- `v[i] = f(v[i])` on a `Vec` kept newest first: index `i` is position `v.length - 1 - i`. -/
def modifyIndex (v : List β) (i : Nat) (f : β → β) : List β := v.modify f (v.length - 1 - i)

@[simp] theorem modifyIndex_last (a : β) (v : List β) (f : β → β) :
    modifyIndex (a :: v) v.length f = f a :: v := by
  simp [modifyIndex]

/-- The loop `while record_vector.len() > clock { drop(record_vector.pop()) }`: the vector it
leaves, and the elements it drops in drop order. -/
def popWhile (clock : Nat) : List β → List β × List β
  | [] => ([], [])
  | a :: v =>
      if (a :: v).length > clock then
        let r := popWhile clock v
        (r.1, a :: r.2)
      else (a :: v, [])

/-- The loop pops exactly the newest `v.length - clock` elements. -/
theorem popWhile_eq (clock : Nat) (v : List β) :
    popWhile clock v = (v.drop (v.length - clock), v.take (v.length - clock)) := by
  induction v with
  | nil => simp [popWhile]
  | cons a v ih =>
      by_cases h : v.length + 1 > clock
      · have hk : v.length + 1 - clock = v.length - clock + 1 := by omega
        simp [popWhile, h, ih, hk]
      · have hk : v.length + 1 - clock = 0 := by omega
        simp [popWhile, h, hk]

/-- `Transaction`: the record vector (newest first) and the transaction-local clock. The references
to the storage and the sequencer, and the anchor, are passed to the code that uses them. -/
structure Transaction (α : Type) where
  recordVector : List (Annals α)
  clock : Nat
  deriving DecidableEq, Repr

/-- Each `Annals` carries its 1-based position as its clock (the vector newest first). -/
def Positional : List (Annals α) → Prop
  | [] => True
  | a :: v => a.clock = v.length + 1 ∧ Positional v

instance Positional.decide : ∀ v : List (Annals α), Decidable (Positional v)
  | [] => isTrue trivial
  | _ :: v => @instDecidableAnd _ _ (inferInstance) (Positional.decide v)

namespace Positional

@[simp] theorem nil : Positional ([] : List (Annals α)) := trivial

@[simp] theorem cons_iff {a : Annals α} {v : List (Annals α)} :
    Positional (a :: v) ↔ a.clock = v.length + 1 ∧ Positional v := Iff.rfl

theorem drop {v : List (Annals α)} (h : Positional v) (n : Nat) : Positional (v.drop n) := by
  induction v generalizing n with
  | nil => simp
  | cons a v ih =>
      cases n with
      | zero => exact h
      | succ n => exact ih h.2 n

/-- In push order, the Annals at 1-based position `i + 1` carries clock `i + 1`. -/
theorem iff_getElem? {v : List (Annals α)} :
    Positional v ↔ ∀ i a, v.reverse[i]? = some a → a.clock = i + 1 := by
  induction v with
  | nil => simp
  | cons b v ih =>
      simp only [cons_iff, List.reverse_cons, ih]
      constructor
      · rintro ⟨hb, hv⟩ i a hi
        rcases Nat.lt_trichotomy i v.length with hlt | rfl | hgt
        · exact hv i a (by rwa [List.getElem?_append_left (by simpa using hlt)] at hi)
        · have hb' : (v.reverse ++ [b])[v.length]? = some b := by simp
          exact (Option.some.inj (hb'.symm.trans hi)) ▸ hb
        · rw [List.getElem?_eq_none (by simp; omega)] at hi
          cases hi
      · intro h
        refine ⟨by simpa using h v.length b (by simp), fun i a hi => h i a ?_⟩
        rw [List.getElem?_append_left (List.getElem?_eq_some_iff.mp hi).1]
        exact hi

end Positional

namespace Transaction

/-- `Transaction::new`: an empty record vector and clock `0`. -/
def new : Transaction α := ⟨[], 0⟩

/-- The `Annals` in push order, `a_1, ..., a_n`. -/
def annals (t : Transaction α) : List (Annals α) := t.recordVector.reverse

/-- `Transaction::record`: push, read the length, assign it to the last element, store it. -/
def record (t : Transaction α) (a : Annals α) : Transaction α × Nat :=
  let v := a :: t.recordVector
  let newClock := v.length
  (⟨modifyIndex v (newClock - 1) (·.assignClock newClock), newClock⟩, newClock)

/-- What `rewind` hands back: its result, the transaction after it, the `Annals` it dropped. -/
structure Rewound (α : Type) where
  result : Except Error Nat
  tx : Transaction α
  dropped : List (Annals α)

/-- `Transaction::rewind`. The mutex of the record vector is never poisoned in this model. -/
def rewind (t : Transaction α) (clock : Nat) : Rewound α :=
  if t.recordVector.length > clock then
    let r := popWhile clock t.recordVector
    let newClock := r.1.length
    ⟨.ok newClock, ⟨r.1, newClock⟩, r.2⟩
  else ⟨.error .fail, t, []⟩

/-- Drop glue of a `Transaction`, which has no `Drop` impl: the `Vec` in its `Mutex` field drops
its elements front to back, oldest first. -/
def dropGlue (t : Transaction α) : List (Annals α) := t.recordVector.reverse

/-- `Transaction::rollback`: `while let Some(record) = record_vector.pop()` drops every `Annals`,
newest first; `drop(self)` then drops what is left. -/
def rollback (t : Transaction α) : List (Annals α) :=
  let r := popWhile 0 t.recordVector
  r.2 ++ dropGlue ⟨r.1, t.clock⟩

@[simp] theorem new_recordVector : (new : Transaction α).recordVector = [] := rfl

@[simp] theorem new_clock : (new : Transaction α).clock = 0 := rfl

@[simp] theorem annals_recordVector (v : List (Annals α)) (n : Nat) :
    (⟨v, n⟩ : Transaction α).annals = v.reverse := rfl

@[simp] theorem record_fst (t : Transaction α) (a : Annals α) :
    (t.record a).1 =
      ⟨a.assignClock (t.recordVector.length + 1) :: t.recordVector,
        t.recordVector.length + 1⟩ := by
  simp [record]

@[simp] theorem record_snd (t : Transaction α) (a : Annals α) :
    (t.record a).2 = t.recordVector.length + 1 := rfl

theorem rewind_of_lt {t : Transaction α} {k : Nat} (h : k < t.recordVector.length) :
    t.rewind k = ⟨.ok k, ⟨t.recordVector.drop (t.recordVector.length - k), k⟩,
      t.recordVector.take (t.recordVector.length - k)⟩ := by
  have hk : t.recordVector.length - (t.recordVector.length - k) = k := by omega
  simp [rewind, h, popWhile_eq, hk]

theorem rewind_of_le {t : Transaction α} {k : Nat} (h : t.recordVector.length ≤ k) :
    t.rewind k = ⟨.error .fail, t, []⟩ := by
  simp [rewind, Nat.not_lt.mpr h]

theorem rollback_eq (t : Transaction α) : t.rollback = t.recordVector := by
  simp [rollback, popWhile_eq, dropGlue]

/-- The invariant of a transaction no `record` call is inside: the clock is the length of the
record vector, and every `Annals` carries its position. -/
structure Consistent (t : Transaction α) : Prop where
  clock_eq : t.clock = t.recordVector.length
  positional : Positional t.recordVector

theorem consistent_new : (new : Transaction α).Consistent := ⟨rfl, trivial⟩

theorem Consistent.record {t : Transaction α} (h : Positional t.recordVector) (a : Annals α) :
    (t.record a).1.Consistent :=
  ⟨by simp, by simpa using h⟩

theorem Consistent.rewind {t : Transaction α} (h : t.Consistent) (k : Nat) :
    (t.rewind k).tx.Consistent := by
  rcases Nat.lt_or_ge k t.recordVector.length with hk | hk
  · rw [rewind_of_lt hk]
    exact ⟨by simp; omega, h.positional.drop _⟩
  · rwa [rewind_of_le hk]

end Transaction

end Tss
