import Tss.Rewind
import Tss.Linearize

/-!
# Concurrent runs refine sequential runs

`Transaction::record` takes `&self`, so any number of threads submit at once, while `rewind`
takes `&mut self` and `rollback` takes `self`. Whatever the interleaving, whenever no `record`
call holds the mutex the transaction is one that a sequential run of `record` and `rewind` calls
from `Transaction::new` reaches, and its `record` calls submit the calls' Annals in the order the
calls took the mutex. With the refinement of `Op.spec` by `Transaction.run` in `Tss.Rewind`, the
concurrent model of `Tss.Record` thus meets the list of changes a transaction stands for.
-/

namespace Tss

namespace Transaction

variable {α : Type}

/-- The Annals a sequential call submits, if it is a `record`. -/
def Op.submitted : Op α → Option (Annals α)
  | .record a => some a
  | .rewind _ => none

end Transaction

namespace Shared

variable {α : Type}

open Transaction in
/-- The sequential calls `ops` from `Transaction::new` are what the state `s` has done: when no
call holds the mutex the transaction is their result, and a holder is part way through the
`record` that comes next. -/
structure Refines (ops : List (Op α)) (s : Shared α) : Prop where
  free : s.holder = none →
    s.tx = new.run ops ∧ ops.filterMap Op.submitted = s.acquired.map Prod.snd
  held : ∀ i c, s.holder = some i → s.calls[i]? = some c →
    ops.filterMap Op.submitted ++ [c.annals] = s.acquired.map Prod.snd ∧
      Progress c.annals (new.run ops) s.tx c.pc

theorem refines_init : Refines [] (init (Transaction.new : Transaction α)) :=
  ⟨fun _ => ⟨rfl, rfl⟩, fun _ _ hi => by simp [init] at hi⟩

variable {ops : List (Transaction.Op α)} {s : Shared α}

theorem Refines.spawn (hr : Refines ops s) (h : s.Inv) (a : Annals α) :
    Refines ops { s with calls := s.calls ++ [⟨a, .lock⟩] } :=
  ⟨hr.free, fun i c hi hc => hr.held i c hi (by
    rwa [List.getElem?_append_left (h.exclusive.holder_lt i hi)] at hc)⟩

/-- The holder `i` moves to `pc`, the transaction becoming `t`. -/
theorem Refines.advance (hr : Refines ops s) {i : Nat} {c : RecordCall α}
    (hc : s.calls[i]? = some c) (hi : s.holder = some i) (t : Transaction α) (pc : RecordPc)
    (hp : Progress c.annals (Transaction.new.run ops) t pc) :
    Refines ops { s with tx := t, calls := s.calls.set i { c with pc := pc } } := by
  refine ⟨fun hn => by simp [hi] at hn, fun j d hj hd => ?_⟩
  obtain rfl : j = i := by simpa [hi] using hj.symm
  rw [getElem?_set_of_getElem? hc, Option.some.injEq] at hd
  exact hd ▸ ⟨(hr.held j c hi hc).1, hp⟩

/-- One step of a `record` call: the holder moves on, and the call that releases the mutex
appends its `record` to the sequential calls. -/
theorem Refines.recordStep (hr : Refines ops s) (h : s.Inv) {s' : Shared α} {i : Nat}
    (hs : s.recordStep i = some s') : ∃ ops', Refines ops' s' := by
  unfold Shared.recordStep at hs
  cases hc : s.calls[i]? with
  | none => simp [hc] at hs
  | some c =>
    have key (hh : c.pc.holds = true) :
        s.holder = some i ∧ Progress c.annals (Transaction.new.run ops) s.tx c.pc :=
      ⟨h.holder_of_holds hc hh, (hr.held i c (h.holder_of_holds hc hh) hc).2⟩
    simp only [hc] at hs
    cases hpc : c.pc with
    | lock =>
        simp only [hpc] at hs
        split at hs
        · rename_i hnone
          cases hs
          obtain ⟨htx, hsub⟩ := hr.free hnone
          refine ⟨ops, fun hn => by simp at hn, fun j d hj hd => ?_⟩
          obtain rfl : j = i := by simpa using hj.symm
          rw [getElem?_set_of_getElem? hc, Option.some.injEq] at hd
          exact hd ▸ ⟨by simp [hsub], htx⟩
        · cases hs
    | push =>
        simp only [hpc] at hs
        cases hs
        obtain ⟨hi, hp⟩ := key (by simp [hpc, RecordPc.holds])
        simp only [hpc, Progress] at hp
        exact ⟨ops, hr.advance hc hi _ .len (by simp only [Progress, hp])⟩
    | len =>
        simp only [hpc] at hs
        cases hs
        obtain ⟨hi, hp⟩ := key (by simp [hpc, RecordPc.holds])
        simp only [hpc, Progress] at hp
        exact ⟨ops, hr.advance hc hi _ (.assignClock _) ⟨by simp [hp], hp⟩⟩
    | assignClock n =>
        simp only [hpc] at hs
        split at hs
        · cases hs
          obtain ⟨hi, hp⟩ := key (by simp [hpc, RecordPc.holds])
          simp only [hpc, Progress] at hp
          obtain ⟨hn, htx⟩ := hp
          have hw : n - 1 = (Transaction.new.run ops).recordVector.length := by omega
          exact ⟨ops, hr.advance hc hi _ (.store n)
            ⟨hn, by simp only [htx, hw, modifyIndex_last]⟩⟩
        · cases hs
    | store n =>
        simp only [hpc] at hs
        cases hs
        obtain ⟨hi, hp⟩ := key (by simp [hpc, RecordPc.holds])
        simp only [hpc, Progress] at hp
        obtain ⟨rfl, htx⟩ := hp
        exact ⟨ops, hr.advance hc hi _ (.unlock _) ⟨rfl, by simp [htx]⟩⟩
    | unlock n =>
        simp only [hpc] at hs
        cases hs
        obtain ⟨hi, hp⟩ := key (by simp [hpc, RecordPc.holds])
        have hsub := (hr.held i c hi hc).1
        simp only [hpc, Progress] at hp
        exact ⟨ops ++ [.record c.annals],
          fun _ => ⟨by simp [hp.2, Transaction.apply],
            by simp [hsub, Transaction.Op.submitted]⟩,
          fun _ _ hj => by simp at hj⟩
    | done n => simp [hpc] at hs

/-- Every step keeps some sequential run in step with the state; a `rewind` appends itself. -/
theorem Refines.step (hr : Refines ops s) (h : s.Inv) {s' : Shared α} :
    Step s s' → ∃ ops', Refines ops' s'
  | .submit (.spawn _ a _) => ⟨ops, hr.spawn h a⟩
  | .submit (.record _ hs) => hr.recordStep h hs
  | .rewind _ k _ hidle =>
      have hnone := h.holder_eq_none_of_idle hidle
      ⟨ops ++ [.rewind k],
        fun _ => ⟨by simp [(hr.free hnone).1, Transaction.apply],
          by simp [(hr.free hnone).2, Transaction.Op.submitted]⟩,
        fun _ _ hi => by simp [hnone] at hi⟩
  | .rollback _ _ _ => ⟨ops, hr.free, hr.held⟩

theorem Reachable.refines (hs : s.Reachable) : ∃ ops, Refines ops s := by
  induction hs with
  | refl => exact ⟨[], refines_init⟩
  | tail hrun hst ih =>
      obtain ⟨ops, hr⟩ := ih
      exact hr.step (Reachable.inv hrun) hst

/-- From `Transaction::new`, under any interleaving of `record` calls with `rewind` and
`rollback`, whenever no call holds the mutex the transaction is the result of a sequential run of
`record` and `rewind` calls, whose `record`s submit the calls' Annals in the order the calls took
the mutex. -/
theorem Reachable.tx_eq_run {s : Shared α} (hs : s.Reachable) (hfree : s.holder = none) :
    ∃ ops : List (Transaction.Op α), s.tx = Transaction.new.run ops ∧
      ops.filterMap Transaction.Op.submitted = s.acquired.map Prod.snd :=
  let ⟨ops, hr⟩ := hs.refines
  ⟨ops, hr.free hfree⟩

/-- The two returned calls of `twoCalls`, then `rewind(1)` dropping the Annals submitted last. -/
def rewoundCall : Shared Nat := { twoCalls with tx := (twoCalls.tx.rewind 1).tx }

theorem rewoundCall_reachable : rewoundCall.Reachable :=
  (twoCalls_run.mono fun _ _ => Step.submit).tail (.rewind twoCalls 1 rfl twoCalls_idle)

theorem tx_eq_run_rewound_call :
    rewoundCall.Reachable ∧ rewoundCall.holder = none ∧
      ∃ ops : List (Transaction.Op Nat), rewoundCall.tx = Transaction.new.run ops ∧
        ops.filterMap Transaction.Op.submitted = rewoundCall.acquired.map Prod.snd :=
  ⟨rewoundCall_reachable, rfl, Reachable.tx_eq_run rewoundCall_reachable rfl⟩

end Shared

end Tss
