import Tss.Basic

/-!
# Rewinding and discarding

`rewind` truncates the record vector to the target length only when that drops something:
rewinding to the current clock fails. Over any sequence of `record` and `rewind` calls from
`Transaction::new` the transaction stays consistent, so a rewind to `k` leaves exactly the state
that recording the first `k` Annals would. The paths that discard Annals drop them in different
orders: `rewind` and `rollback` pop from the back, the drop glue goes front to back.
-/

namespace Tss.Transaction

variable {α : Type}

/-- A call made with exclusive access to the transaction. -/
inductive Op (α : Type)
  | record (a : Annals α)
  | rewind (clock : Nat)

/-- The transaction after one call. -/
def apply (t : Transaction α) : Op α → Transaction α
  | .record a => (t.record a).1
  | .rewind k => (t.rewind k).tx

/-- The transaction after a sequence of calls. -/
def run (t : Transaction α) (ops : List (Op α)) : Transaction α := ops.foldl apply t

@[simp] theorem run_nil (t : Transaction α) : t.run [] = t := rfl

@[simp] theorem run_cons (t : Transaction α) (o : Op α) (ops : List (Op α)) :
    t.run (o :: ops) = (t.apply o).run ops := rfl

@[simp] theorem run_append_singleton (t : Transaction α) (ops : List (Op α)) (o : Op α) :
    t.run (ops ++ [o]) = (t.run ops).apply o := by
  simp [run]

theorem Consistent.apply {t : Transaction α} (h : t.Consistent) : ∀ o, (t.apply o).Consistent
  | .record a => Consistent.record h.positional a
  | .rewind k => h.rewind k

/-- Every transaction reached from `Transaction::new` is consistent. -/
theorem consistent_run (ops : List (Op α)) : (new.run ops).Consistent := by
  induction ops using List.reverseRecOn with
  | nil => exact consistent_new
  | append_singleton ops o ih => simpa using ih.apply o

/-- `rewind(k)` succeeds, with `Ok(k)` and the first `k` Annals kept, exactly when `k` is below the
length; otherwise it fails and changes nothing. -/
theorem rewind_ok_iff_lt (t : Transaction α) (k : Nat) :
    ((t.rewind k).result = .ok k ↔ k < t.recordVector.length) ∧
    (k < t.recordVector.length →
      (t.rewind k).tx.annals = t.annals.take k ∧ (t.rewind k).tx.clock = k) ∧
    (t.recordVector.length ≤ k →
      (t.rewind k).result = .error .fail ∧ (t.rewind k).tx = t) := by
  rcases Nat.lt_or_ge k t.recordVector.length with hk | hk
  · have hlen : t.recordVector.length - (t.recordVector.length - k) = k := by omega
    simp [rewind_of_lt hk, hk, annals, List.reverse_drop, hlen]
  · simp [rewind_of_le hk, Nat.not_lt.mpr hk, hk]

/-- After one `record`, whose clock is `1`, `rewind(1)` fails. -/
theorem rewind_current_clock_fails :
    (new.run [.record (⟨(), 0⟩ : Annals Unit)]).clock = 1 ∧
      ((new.run [.record (⟨(), 0⟩ : Annals Unit)]).rewind 1).result = .error .fail :=
  ⟨rfl, rfl⟩

/-- Recording a positional vector's Annals from scratch rebuilds it. -/
theorem run_record_annals {v : List (Annals α)} (h : Positional v) :
    new.run (v.reverse.map .record) = ⟨v, v.length⟩ := by
  induction v with
  | nil => rfl
  | cons a v ih =>
      simp only [List.reverse_cons, List.map_append, List.map_cons, List.map_nil,
        run_append_singleton, ih h.2]
      simp [apply, Annals.assignClock_of_clock h.1]

/-- After any history of `record` and `rewind` calls, `rewind(k)` for `k` up to the length
leaves the state that recording only the first `k` Annals from scratch gives. -/
theorem rewind_forgets (ops : List (Op α)) (k : Nat)
    (hk : k ≤ (new.run ops).recordVector.length) :
    ((new.run ops).rewind k).tx = new.run (((new.run ops).annals.take k).map .record) := by
  have hc := consistent_run ops
  generalize new.run ops = t at hc hk
  rcases Nat.lt_or_eq_of_le hk with hk | rfl
  · have hlen : t.recordVector.length - (t.recordVector.length - k) = k := by omega
    rw [rewind_of_lt hk, annals, ← hlen, ← List.reverse_drop,
      run_record_annals (hc.positional.drop _), List.length_drop, hlen]
  · rw [rewind_of_le le_rfl, annals, List.take_of_length_le (by simp),
      run_record_annals hc.positional, ← hc.clock_eq]

/-- Two Annals recorded from scratch. -/
def twoRecords : List (Op Nat) := [.record ⟨0, 0⟩, .record ⟨1, 0⟩]

/-- With two Annals recorded, `rewind(1)` truncates to the first. -/
theorem rewind_forgets_two_records :
    (1 ≤ (new.run twoRecords).recordVector.length) ∧
      ((new.run twoRecords).rewind 1).result = .ok 1 ∧
      ((new.run twoRecords).rewind 1).tx =
        new.run (((new.run twoRecords).annals.take 1).map .record) :=
  ⟨by decide, rfl, rewind_forgets _ 1 (by decide)⟩

/-- What a transaction is for: the changes submitted so far, in order. `rewind(k)` keeps the first
`k` of them when that drops something. -/
def Op.spec : List α → Op α → List α
  | l, .record a => l ++ [a.changes]
  | l, .rewind k => if k < l.length then l.take k else l

/-- One call moves the submitted changes as the abstract model does. -/
theorem apply_changes (t : Transaction α) (o : Op α) :
    (t.apply o).annals.map Annals.changes = Op.spec (t.annals.map Annals.changes) o := by
  cases o with
  | record a => simp [apply, Op.spec, annals]
  | rewind k =>
      have hlen : (t.annals.map Annals.changes).length = t.recordVector.length := by simp [annals]
      rcases Nat.lt_or_ge k t.recordVector.length with hk | hk
      · simp [apply, Op.spec, hlen, hk, (rewind_ok_iff_lt t k).2.1 hk, List.map_take]
      · simp [apply, Op.spec, hlen, Nat.not_lt.mpr hk, ((rewind_ok_iff_lt t k).2.2 hk).2]

/-- From `Transaction::new`, the record vector holds the submitted changes in the order the
abstract model gives, and `clock()` is their number. -/
theorem run_refines_spec (ops : List (Op α)) :
    (new.run ops).annals.map Annals.changes = ops.foldl Op.spec [] ∧
      (new.run ops).clock = (ops.foldl Op.spec []).length := by
  have hchanges : (new.run ops).annals.map Annals.changes = ops.foldl Op.spec [] := by
    induction ops using List.reverseRecOn with
    | nil => rfl
    | append_singleton ops o ih =>
        rw [run_append_singleton, apply_changes, ih, List.foldl_append]
        rfl
  refine ⟨hchanges, ?_⟩
  rw [← hchanges, (consistent_run ops).clock_eq]
  simp [annals]

/-- A successful `rewind(k)` drops `a_n, ..., a_(k+1)`, newest first. -/
theorem rewind_drops_newest_first (t : Transaction α) {k : Nat} (hk : k < t.recordVector.length) :
    (t.rewind k).dropped = (t.annals.drop k).reverse := by
  simp [rewind_of_lt hk, annals, List.reverse_drop]

/-- Three Annals recorded from scratch. -/
def threeRecords : List (Op Nat) := [.record ⟨0, 0⟩, .record ⟨1, 0⟩, .record ⟨2, 0⟩]

/-- With three Annals recorded, `rewind(1)` drops the third, then the second. -/
theorem rewind_drops_newest_first_three :
    1 < (new.run threeRecords).recordVector.length ∧
      ((new.run threeRecords).rewind 1).dropped =
        ((new.run threeRecords).annals.drop 1).reverse ∧
      ((new.run threeRecords).annals.drop 1).reverse = [⟨2, 3⟩, ⟨1, 2⟩] :=
  ⟨by decide, rewind_drops_newest_first _ (by decide), by decide⟩

/-- `Transaction::rollback` drops `a_n, ..., a_1`, newest first. -/
theorem rollback_drops_newest_first (t : Transaction α) : t.rollback = t.annals.reverse := by
  simp [rollback_eq, annals]

/-- The drop glue drops `a_1, ..., a_n`, oldest first. -/
theorem dropGlue_eq_annals (t : Transaction α) : t.dropGlue = t.annals := rfl

/-- With two Annals recorded, dropping the transaction drops `a_1` first, where `rollback` drops
`a_2` first. -/
theorem dropGlue_drops_oldest_first :
    (new.run [.record (⟨0, 0⟩ : Annals Nat), .record ⟨1, 0⟩]).dropGlue =
        [⟨0, 1⟩, ⟨1, 2⟩] ∧
      (new.run [.record (⟨0, 0⟩ : Annals Nat), .record ⟨1, 0⟩]).rollback =
        [⟨1, 2⟩, ⟨0, 1⟩] := by
  decide

end Tss.Transaction
