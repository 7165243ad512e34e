import Tss.Basic
import Mathlib.Logic.Relation
import Mathlib.Logic.Function.Basic
import Mathlib.Order.Basic

/-!
# Commit through the Rubicon

`Transaction::commit` stamps the anchor's `preliminary_snapshot` with `sequencer.get()` and moves
the transaction into a `Rubicon`. The Rubicon is consumed once, by `commit`, `rollback` or its
`Drop`; each takes the `Option` inside it, so the `Drop` that runs when `commit` or `rollback`
returns finds nothing. Finalising calls `sequencer.advance()` and stamps `commit_snapshot`.

Many transactions share one sequencer, whose replies are kept in order, each tagged with the
transaction that asked. The sequencer is any reply strategy; its contract (every `advance` is
above the default and every clock returned before) is a property of the replies of a run.
-/

namespace Tss

variable {α C : Type}

/-- A reply of the shared `Sequencer`: the call, the transaction that made it (`none` for any
other caller) and the clock returned. -/
inductive SeqCall (C : Type)
  | get (caller : Option Nat) (clock : C)
  | advance (caller : Option Nat) (clock : C)
  deriving DecidableEq, Repr

namespace SeqCall

def clock : SeqCall C → C
  | .get _ c | .advance _ c => c

def caller : SeqCall C → Option Nat
  | .get i _ | .advance i _ => i

/-- The clock of an `advance` reply. -/
def advanced : SeqCall C → Option C
  | .advance _ c => some c
  | .get _ _ => none

/-- The transaction an `advance` reply went to. -/
def finalizes : SeqCall C → Option Nat
  | .advance i _ => i
  | .get _ _ => none

@[simp] theorem caller_get (i : Option Nat) (c : C) : (get i c).caller = i := rfl

@[simp] theorem caller_advance (i : Option Nat) (c : C) : (advance i c).caller = i := rfl

@[simp] theorem advanced_get (i : Option Nat) (c : C) : (get i c).advanced = none := rfl

@[simp] theorem advanced_advance (i : Option Nat) (c : C) : (advance i c).advanced = some c := rfl

theorem clock_of_advanced {e : SeqCall C} {c : C} (h : e.advanced = some c) : e.clock = c := by
  cases e <;> simp_all [clock]

end SeqCall

/-- The replies to transaction `i`'s own calls. -/
def callsBy (i : Nat) (l : List (SeqCall C)) : List (SeqCall C) :=
  l.filter (·.caller == some i)

@[simp] theorem callsBy_nil (i : Nat) : callsBy i ([] : List (SeqCall C)) = [] := rfl

@[simp] theorem callsBy_cons (i : Nat) (e : SeqCall C) (l : List (SeqCall C)) :
    callsBy i (e :: l) = if e.caller = some i then e :: callsBy i l else callsBy i l := by
  by_cases h : e.caller = some i <;> simp [callsBy, List.filter_cons, h]

theorem mem_callsBy {i : Nat} {e : SeqCall C} {l : List (SeqCall C)} :
    e ∈ callsBy i l ↔ e ∈ l ∧ e.caller = some i := by
  simp [callsBy]

/-- The `Sequencer` trait: what `get` and `advance` return, given all earlier replies (newest
first). -/
structure Sequencer (C : Type) where
  get : List (SeqCall C) → C
  advance : List (SeqCall C) → C

section Contract

variable [Preorder C] [Inhabited C]

/-- The `Sequencer` contract over a run's replies (newest first): every `advance` returned a clock
above the default and above every clock returned before it. -/
def Contract : List (SeqCall C) → Prop
  | [] => True
  | .get _ _ :: l => Contract l
  | .advance _ c :: l => default < c ∧ (∀ e ∈ l, e.clock < c) ∧ Contract l

theorem Contract.tail {e : SeqCall C} {l : List (SeqCall C)} (h : Contract (e :: l)) :
    Contract l := by
  cases e <;> simp_all [Contract]

end Contract

/-- What the transactions share: the sequencer's replies (newest first), each transaction's
`Anchor` (the `ebr::Arc` keeps it past the transaction), and the `Annals` dropped so far. -/
structure World (α C : Type) where
  replies : List (SeqCall C)
  anchors : Nat → Anchor C
  dropped : List (Annals α)

namespace World

/-- `Annals` dropped, in this order. -/
def drop (w : World α C) (as : List (Annals α)) : World α C :=
  { w with dropped := w.dropped ++ as }

@[simp] theorem drop_replies (w : World α C) (as : List (Annals α)) :
    (w.drop as).replies = w.replies := rfl

@[simp] theorem drop_anchors (w : World α C) (as : List (Annals α)) :
    (w.drop as).anchors = w.anchors := rfl

@[simp] theorem drop_dropped (w : World α C) (as : List (Annals α)) :
    (w.drop as).dropped = w.dropped ++ as := rfl

end World

/-- `Rubicon`: the committed transaction, until it is taken. -/
structure Rubicon (α : Type) where
  transaction : Option (Transaction α)

namespace Rubicon

/-- `self.transaction.take()`. -/
def take (r : Rubicon α) : Option (Transaction α) × Rubicon α := (r.transaction, ⟨none⟩)

variable (sq : Sequencer C)

/-- `Rubicon::post_process` for transaction `i`: `advance(Release)`, stamp `commit_snapshot`, then
`transaction.post_process()` drops the transaction. -/
def postProcess (t : Transaction α) (i : Nat) (w : World α C) : C × World α C :=
  let commitSnapshot := sq.advance w.replies
  let w := { w with
    replies := .advance (some i) commitSnapshot :: w.replies
    anchors := Function.update w.anchors i { w.anchors i with commitSnapshot := commitSnapshot } }
  (commitSnapshot, w.drop t.dropGlue)

/-- `Drop for Rubicon`. -/
def drop (r : Rubicon α) (i : Nat) (w : World α C) : World α C :=
  match r.take.1 with
  | some t => (postProcess sq t i w).2
  | none => w

/-- `Rubicon::commit`: take the transaction and post-process it (`map_or_else` with the default
clock); `self` is dropped on return. -/
def commit [Inhabited C] (r : Rubicon α) (i : Nat) (w : World α C) : C × World α C :=
  let (t, r) := r.take
  let (c, w) := match t with
    | some t => postProcess sq t i w
    | none => (default, w)
  (c, r.drop sq i w)

/-- `Rubicon::rollback`: take the transaction and roll it back; `self` is dropped on return. -/
def rollback (r : Rubicon α) (i : Nat) (w : World α C) : World α C :=
  let (t, r) := r.take
  let w := match t with
    | some t => w.drop t.rollback
    | none => w
  r.drop sq i w

@[simp] theorem drop_none (i : Nat) (w : World α C) :
    (⟨none⟩ : Rubicon α).drop sq i w = w := rfl

theorem drop_some (t : Transaction α) (i : Nat) (w : World α C) :
    (⟨some t⟩ : Rubicon α).drop sq i w = (postProcess sq t i w).2 := rfl

theorem commit_some [Inhabited C] (t : Transaction α) (i : Nat) (w : World α C) :
    (⟨some t⟩ : Rubicon α).commit sq i w = postProcess sq t i w := rfl

theorem rollback_some (t : Transaction α) (i : Nat) (w : World α C) :
    (⟨some t⟩ : Rubicon α).rollback sq i w = w.drop t.rollback := rfl

@[simp] theorem postProcess_fst (t : Transaction α) (i : Nat) (w : World α C) :
    (postProcess sq t i w).1 = sq.advance w.replies := rfl

@[simp] theorem postProcess_replies (t : Transaction α) (i : Nat) (w : World α C) :
    (postProcess sq t i w).2.replies = .advance (some i) (sq.advance w.replies) :: w.replies := rfl

@[simp] theorem postProcess_anchors (t : Transaction α) (i : Nat) (w : World α C) :
    (postProcess sq t i w).2.anchors =
      Function.update w.anchors i { w.anchors i with commitSnapshot := sq.advance w.replies } := rfl

@[simp] theorem postProcess_dropped (t : Transaction α) (i : Nat) (w : World α C) :
    (postProcess sq t i w).2.dropped = w.dropped ++ t.dropGlue := rfl

end Rubicon

namespace Transaction

variable (sq : Sequencer C)

/-- `Transaction::commit` of transaction `i`: stamp `preliminary_snapshot` with
`sequencer.get(Relaxed)` and move into a `Rubicon`. -/
def commit (t : Transaction α) (i : Nat) (w : World α C) :
    Except Error (Rubicon α) × World α C :=
  let now := sq.get w.replies
  let w := { w with
    replies := .get (some i) now :: w.replies
    anchors := Function.update w.anchors i { w.anchors i with preliminarySnapshot := now } }
  (.ok ⟨some t⟩, w)

/-- `transaction.commit()` and then, on `Ok(rubicon)`, `rubicon.rollback()`. -/
def commitThenRollback (t : Transaction α) (i : Nat) (w : World α C) : World α C :=
  match t.commit sq i w with
  | (.ok r, w) => r.rollback sq i w
  | (.error _, w) => w

end Transaction

/-- `commit` then `Rubicon::rollback`, against `Transaction::rollback` from the same state: the
same Annals are dropped, newest first, `advance` is not called, and the anchors are as the direct
rollback leaves them except for `preliminary_snapshot`, which holds what `get` returned. -/
theorem commit_then_rubicon_rollback (sq : Sequencer C) (t : Transaction α) (i : Nat)
    (w : World α C) :
    (t.commitThenRollback sq i w).dropped = (w.drop t.rollback).dropped ∧
    (w.drop t.rollback).dropped = w.dropped ++ t.annals.reverse ∧
    (t.commitThenRollback sq i w).replies =
      .get (some i) (sq.get w.replies) :: (w.drop t.rollback).replies ∧
    ((t.commitThenRollback sq i w).anchors i).commitSnapshot =
      ((w.drop t.rollback).anchors i).commitSnapshot ∧
    ((t.commitThenRollback sq i w).anchors i).preliminarySnapshot = sq.get w.replies ∧
    ∀ j, j ≠ i → (t.commitThenRollback sq i w).anchors j = (w.drop t.rollback).anchors j := by
  simp only [Transaction.commitThenRollback, Transaction.commit,
    Rubicon.rollback_some]
  refine ⟨rfl, by simp [Transaction.rollback_eq, Transaction.annals], rfl, by simp, by simp,
    fun j hj => by simp [Function.update_noteq hj]⟩

/-- Modelled from the spec: the atomic-counter sequencer, whose clock counts the `advance` calls. -/
def atomicCounter : Sequencer Nat where
  get l := (l.filterMap SeqCall.advanced).length
  advance l := (l.filterMap SeqCall.advanced).length + 1

/-- The shared state on an atomic counter once transaction `1` has committed. -/
def otherCommitted : World Unit Nat :=
  ⟨[.advance (some 1) 1, .get (some 1) 0],
    Function.update (fun _ => Anchor.new) 1 ⟨0, 1⟩, []⟩

/-- Once transaction `1` has committed, transaction `0`'s `commit` and `Rubicon::rollback` leave
its `preliminary_snapshot` at `1`; `Transaction::rollback` leaves it at the default `0`. -/
theorem rubicon_rollback_keeps_preliminary :
    ((Transaction.new : Transaction Unit).commitThenRollback atomicCounter 0 otherCommitted).anchors
        0 = ⟨1, 0⟩ ∧
      (otherCommitted.drop (Transaction.new : Transaction Unit).rollback).anchors 0 = ⟨0, 0⟩ :=
  ⟨rfl, rfl⟩

end Tss
