import Tss.Rewind
import Tss.Rubicon
import Mathlib.Data.List.Perm.Basic

/-!
# A transaction's whole life

A transaction records and rewinds, then its owner gives it up: `Transaction::rollback`, letting it
go out of scope, or `Transaction::commit` followed by `Rubicon::commit`, `Rubicon::rollback` or
letting the Rubicon go out of scope. Along the way Annals are recorded, with the clock `record`
gives them, and dropped. Every Annals recorded is dropped exactly once over the whole life, and on
the paths that roll back, the record vector is a stack: an Annals is dropped only after every
Annals recorded after it.
-/

namespace Tss

variable {α C : Type}

/-- What happens to an Annals: `record` stored it, with its clock, or it was dropped. -/
inductive AnnalsEvent (α : Type)
  | recorded (a : Annals α)
  | dropped (a : Annals α)
  deriving DecidableEq, Repr

namespace AnnalsEvent

/-- The Annals a `recorded` event stored. -/
def recordedOf : AnnalsEvent α → Option (Annals α)
  | .recorded a => some a
  | .dropped _ => none

/-- The Annals a `dropped` event dropped. -/
def droppedOf : AnnalsEvent α → Option (Annals α)
  | .recorded _ => none
  | .dropped a => some a

end AnnalsEvent

/-- Replays events on the stack of held Annals, newest first: a recorded Annals is pushed, a
dropped one must be on top and is popped. `none` if an Annals is dropped out of turn. -/
def stackReplay [DecidableEq α] (s : List (Annals α)) :
    List (AnnalsEvent α) → Option (List (Annals α))
  | [] => some s
  | .recorded a :: es => stackReplay (a :: s) es
  | .dropped b :: es =>
      match s with
      | [] => none
      | a :: s => if a = b then stackReplay s es else none

section Replay

variable [DecidableEq α]

theorem stackReplay_append (s : List (Annals α)) (es es' : List (AnnalsEvent α)) :
    stackReplay s (es ++ es') = (stackReplay s es).bind fun s => stackReplay s es' := by
  induction es generalizing s with
  | nil => rfl
  | cons e es ih =>
      cases e with
      | recorded a => exact ih (a :: s)
      | dropped b =>
          cases s with
          | nil => rfl
          | cons a s => by_cases hab : a = b <;> simp [stackReplay, hab, ih]

/-- Dropping the top of the stack in order pops it. -/
theorem stackReplay_pop (l s : List (Annals α)) :
    stackReplay (l ++ s) (l.map .dropped) = some s := by
  induction l with
  | nil => rfl
  | cons a l ih => simpa [stackReplay] using ih

/-- A replay that keeps the order keeps count: what was recorded and held before is what was
dropped and is held after. -/
theorem stackReplay_perm {s s' : List (Annals α)} {es : List (AnnalsEvent α)}
    (h : stackReplay s es = some s') :
    (es.filterMap AnnalsEvent.recordedOf ++ s).Perm (es.filterMap AnnalsEvent.droppedOf ++ s') := by
  induction es generalizing s with
  | nil =>
      cases h
      rfl
  | cons e es ih =>
      cases e with
      | recorded a =>
          have := ih h
          simp only [List.filterMap_cons, AnnalsEvent.recordedOf, AnnalsEvent.droppedOf,
            List.cons_append]
          exact List.perm_middle.symm.trans this
      | dropped b =>
          cases s with
          | nil => cases h
          | cons a s =>
              by_cases hab : a = b
              · subst hab
                simp only [stackReplay, if_true] at h
                simp only [List.filterMap_cons, AnnalsEvent.recordedOf, AnnalsEvent.droppedOf,
                  List.cons_append]
                exact List.perm_middle.trans (List.Perm.cons a (ih h))
              · simp [stackReplay, hab] at h

end Replay

namespace Transaction

/-- The events of one call on `t`: `record` stores the Annals with the clock it returns;
`rewind` drops what it pops. -/
def Op.events (t : Transaction α) : Op α → List (AnnalsEvent α)
  | .record a => [.recorded (a.assignClock (t.record a).2)]
  | .rewind k => (t.rewind k).dropped.map .dropped

/-- The events along a history of calls from `t`. -/
def history (t : Transaction α) : List (Op α) → List (AnnalsEvent α)
  | [] => []
  | o :: ops => Op.events t o ++ history (t.apply o) ops

/-- Over any history, the held Annals are a stack: the events replay on it, and leave the record
vector the history ends with. -/
theorem stackReplay_history [DecidableEq α] (t : Transaction α) (ops : List (Op α))
    (b : List (Annals α)) :
    stackReplay (t.recordVector ++ b) (history t ops) = some ((t.run ops).recordVector ++ b) := by
  induction ops generalizing t with
  | nil => rfl
  | cons o ops ih =>
      have hstep : stackReplay (t.recordVector ++ b) (Op.events t o) =
          some ((t.apply o).recordVector ++ b) := by
        cases o with
        | record a => simp [Op.events, apply, stackReplay]
        | rewind k =>
            rcases Nat.lt_or_ge k t.recordVector.length with hk | hk
            · rw [Op.events, apply, rewind_of_lt hk, ← stackReplay_pop _ (_ ++ b),
                ← List.append_assoc, List.take_append_drop]
            · simp [Op.events, apply, rewind_of_le hk, stackReplay]
      rw [history, stackReplay_append, hstep, Option.some_bind, run_cons, ih]

end Transaction

/-- How the owner gives a transaction up. -/
inductive Ending
  /-- `Transaction::rollback`. -/
  | rollback
  /-- The `Transaction` goes out of scope. -/
  | discard
  /-- `Transaction::commit`, then `Rubicon::commit`. -/
  | rubiconCommit
  /-- `Transaction::commit`, then `Rubicon::rollback`. -/
  | rubiconRollback
  /-- `Transaction::commit`, then the `Rubicon` goes out of scope. -/
  | rubiconDrop
  deriving DecidableEq, Repr

namespace Ending

/-- The ending rolls the changes back. -/
def rollsBack : Ending → Bool
  | .rollback | .rubiconRollback => true
  | _ => false

/-- The shared state after transaction `i`'s owner ends `t` so. -/
def run [Inhabited C] (e : Ending) (sq : Sequencer C) (t : Transaction α) (i : Nat)
    (w : World α C) : World α C :=
  match e with
  | .rollback => w.drop t.rollback
  | .discard => w.drop t.dropGlue
  | .rubiconCommit =>
      match t.commit sq i w with
      | (.ok r, w) => (r.commit sq i w).2
      | (.error _, w) => w
  | .rubiconRollback => t.commitThenRollback sq i w
  | .rubiconDrop =>
      match t.commit sq i w with
      | (.ok r, w) => r.drop sq i w
      | (.error _, w) => w

/-- Each ending drops every Annals left: newest first when it rolls back, oldest first when it
lets the drop glue run. -/
theorem run_dropped [Inhabited C] (e : Ending) (sq : Sequencer C) (t : Transaction α) (i : Nat)
    (w : World α C) :
    (e.run sq t i w).dropped =
      w.dropped ++ if e.rollsBack then t.recordVector else t.recordVector.reverse := by
  cases e <;>
    simp [run, rollsBack, Transaction.commit, Transaction.commitThenRollback,
      Rubicon.commit_some, Rubicon.drop_some, Rubicon.rollback_some, Transaction.rollback_eq,
      Transaction.dropGlue]

end Ending

/-- Over the whole life of a transaction from `Transaction::new`, whatever it records and rewinds
and however it ends: the ending drops the Annals left, each Annals recorded is dropped exactly
once, and when the ending rolls back every Annals is dropped only after all those recorded after
it. -/
theorem lifetime_drops [DecidableEq α] [Inhabited C] (sq : Sequencer C)
    (ops : List (Transaction.Op α)) (e : Ending) (i : Nat) (w : World α C) :
    ∃ final, (e.run sq (Transaction.new.run ops) i w).dropped = w.dropped ++ final ∧
      ((Transaction.new.history ops).filterMap AnnalsEvent.recordedOf).Perm
        ((Transaction.new.history ops).filterMap AnnalsEvent.droppedOf ++ final) ∧
      (e.rollsBack = true →
        stackReplay [] (Transaction.new.history ops ++ final.map .dropped) = some []) := by
  have hreplay := Transaction.stackReplay_history Transaction.new ops []
  simp only [Transaction.new_recordVector, List.append_nil] at hreplay
  have hperm := stackReplay_perm hreplay
  rw [List.append_nil] at hperm
  refine ⟨_, e.run_dropped sq _ i w, ?_, fun hback => ?_⟩
  · split
    · exact hperm
    · exact hperm.trans (List.Perm.append_left _ (List.reverse_perm _).symm)
  · rw [if_pos hback, stackReplay_append, hreplay, Option.some_bind]
    simpa using stackReplay_pop (Transaction.new.run ops).recordVector []

end Tss
