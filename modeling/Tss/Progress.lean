import Tss.Record

/-!
# Progress of concurrent submits

Between rewinds, the threads submitting to a transaction only run `record` calls. Each step of a
call moves it one position on, and only its `store` changes the clock. Two consequences for every
reachable state: the calls in flight can always all return, by their own steps alone, so no
interleaving deadlocks on the record-vector mutex; and `clock()` moves forward one at a time, a
call returning its clock only once `clock()` shows it.
-/

namespace Tss

namespace RecordPc

/-- The steps a call at this position has left before it returns. -/
def remaining : RecordPc → Nat
  | .lock => 6
  | .push => 5
  | .len => 4
  | .assignClock _ => 3
  | .store _ => 2
  | .unlock _ => 1
  | .done _ => 0

end RecordPc

namespace Shared

variable {α : Type}

/-- The steps a list of calls has left. -/
def remainingOf : List (RecordCall α) → Nat
  | [] => 0
  | c :: cs => c.pc.remaining + remainingOf cs

/-- The steps the calls in flight have left. -/
def pending (s : Shared α) : Nat := remainingOf s.calls

/-- A step of a `record` call already made. -/
def CallStep (s s' : Shared α) : Prop := ∃ i, s.recordStep i = some s'

/-- What one step of call `i` does: the call moves one position on, and only `store` changes the
clock. -/
theorem recordStep_eq {s s' : Shared α} {i : Nat} (hs : s.recordStep i = some s') :
    ∃ c pc, s.calls[i]? = some c ∧ pc.remaining + 1 = c.pc.remaining ∧
      s'.calls = s.calls.set i { c with pc := pc } ∧
      (s'.tx.clock = s.tx.clock ∨ ∃ n, c.pc = .store n ∧ s'.tx.clock = n) := by
  unfold recordStep at hs
  cases hc : s.calls[i]? with
  | none => simp [hc] at hs
  | some c =>
      simp only [hc] at hs
      cases hpc : c.pc <;> simp only [hpc] at hs <;> (try split at hs) <;> cases hs <;>
        exact ⟨c, _, rfl, by simp [hpc, RecordPc.remaining], rfl, by simp [hpc]⟩

theorem remainingOf_set {cs : List (RecordCall α)} {i : Nat} {c : RecordCall α}
    (hc : cs[i]? = some c) (c' : RecordCall α) :
    remainingOf (cs.set i c') + c.pc.remaining = remainingOf cs + c'.pc.remaining := by
  induction cs generalizing i with
  | nil => simp at hc
  | cons a cs ih =>
      cases i with
      | zero =>
          simp only [List.getElem?_cons_zero, Option.some.injEq] at hc
          simp only [List.set_cons_zero, remainingOf, hc]
          omega
      | succ i =>
          have := ih (by simpa using hc)
          simp only [List.set_cons_succ, remainingOf]
          omega

/-- Each step of a call uses up one of the steps left. -/
theorem pending_recordStep {s s' : Shared α} {i : Nat} (hs : s.recordStep i = some s') :
    s'.pending + 1 = s.pending := by
  obtain ⟨c, pc, hc, hpc, hcalls, -⟩ := recordStep_eq hs
  have := remainingOf_set hc { c with pc := pc }
  simp only [pending, hcalls] at this ⊢
  omega

theorem length_recordStep {s s' : Shared α} {i : Nat} (hs : s.recordStep i = some s') :
    s'.calls.length = s.calls.length := by
  obtain ⟨c, pc, -, -, hcalls, -⟩ := recordStep_eq hs
  simp [hcalls]

/-- Unless every call has returned, some call can take a step: the holder, which the invariant
keeps able to move, or, when the mutex is free, a call waiting for it. -/
theorem Inv.exists_recordStep {s : Shared α} (h : s.Inv) (hidle : ¬ s.Idle) :
    ∃ i s', s.recordStep i = some s' := by
  cases hh : s.holder with
  | some i =>
      obtain ⟨c, hc⟩ : ∃ c, s.calls[i]? = some c :=
        ⟨_, List.getElem?_eq_getElem (h.exclusive.holder_lt i hh)⟩
      have hheld := h.held i c hh hc
      refine ⟨i, ?_⟩
      cases hpc : c.pc with
      | lock | done n => simp [hpc, HolderInv] at hheld
      | assignClock n =>
          rw [hpc] at hheld
          obtain ⟨hn, hlen, -⟩ := hheld
          simp [Shared.recordStep, hc, hpc, hn, hlen]
      | _ => simp [Shared.recordStep, hc, hpc]
  | none =>
      obtain ⟨c, hmem, hret⟩ : ∃ c ∈ s.calls, c.pc.returned = false := by
        simpa [Idle] using hidle
      obtain ⟨i, hc⟩ := List.mem_iff_getElem?.mp hmem
      have hholds : c.pc.holds = false := by
        simpa [hh] using h.exclusive.holds_iff i c hc
      refine ⟨i, ?_⟩
      cases hpc : c.pc <;> simp_all [Shared.recordStep, RecordPc.holds, RecordPc.returned]

/-- From any state keeping the invariant, the calls in flight can all return by their own steps. -/
theorem Inv.complete {s : Shared α} (h : s.Inv) :
    ∃ s', Relation.ReflTransGen CallStep s s' ∧ s'.Idle ∧ s'.calls.length = s.calls.length ∧
      s'.Inv := by
  obtain ⟨n, hn⟩ : ∃ n, s.pending = n := ⟨_, rfl⟩
  induction n using Nat.strong_induction_on generalizing s with
  | _ n ih =>
      by_cases hidle : s.Idle
      · exact ⟨s, .refl, hidle, rfl, h⟩
      · obtain ⟨i, s', hs'⟩ := h.exists_recordStep hidle
        have hlt : s'.pending < n := by
          have := pending_recordStep hs'
          omega
        obtain ⟨s'', hrun, hidle', hlen, hinv⟩ := ih _ hlt (h.recordStep hs') rfl
        exact ⟨s'', .head ⟨i, hs'⟩ hrun, hidle', hlen.trans (length_recordStep hs'), hinv⟩

/-- From every reachable state, the `record` calls in flight can all return by steps of their own,
with no new call and no rewind: no interleaving deadlocks on the mutex. Every call then has
returned and the transaction is consistent. -/
theorem Reachable.calls_complete {s : Shared α} (hs : s.Reachable) :
    ∃ s', Relation.ReflTransGen CallStep s s' ∧ s'.Idle ∧
      s'.calls.length = s.calls.length ∧ s'.tx.Consistent := by
  obtain ⟨s', hrun, hidle, hlen, hinv⟩ := hs.inv.complete
  exact ⟨s', hrun, hidle, hlen, hinv.free (hinv.holder_eq_none_of_idle hidle)⟩

/-- Two calls on a fresh transaction: call `0` holds the mutex, about to release it with clock
`1`, while call `1` waits for it. -/
def contended : Shared Unit :=
  ⟨⟨[⟨(), 1⟩], 1⟩, some 0, [⟨⟨(), 0⟩, .unlock 1⟩, ⟨⟨(), 0⟩, .lock⟩], [(0, ⟨(), 0⟩)], true⟩

theorem contended_reachable : contended.Reachable :=
  .head (.submit (.spawn _ ⟨(), 0⟩ rfl)) <| .head (.submit (.spawn _ ⟨(), 0⟩ rfl)) <|
    .head (.submit (.record 0 rfl)) <| .head (.submit (.record 0 rfl)) <|
    .head (.submit (.record 0 rfl)) <| .head (.submit (.record 0 rfl)) <|
    .head (.submit (.record 0 rfl)) .refl

theorem calls_complete_contended :
    contended.Reachable ∧
      ∃ s', Relation.ReflTransGen CallStep contended s' ∧ s'.Idle ∧
        s'.calls.length = contended.calls.length ∧ s'.tx.Consistent :=
  ⟨contended_reachable, Reachable.calls_complete contended_reachable⟩

/-- One step of the submitting threads leaves `clock()` or adds one. -/
theorem Inv.clock_submitStep {s s' : Shared α} (h : s.Inv) (hs : SubmitStep s s') :
    s'.tx.clock = s.tx.clock ∨ s'.tx.clock = s.tx.clock + 1 := by
  cases hs with
  | spawn => exact .inl rfl
  | record i hs =>
      obtain ⟨c, pc, hc, -, -, hclock | ⟨n, hpc, hclock⟩⟩ := recordStep_eq hs
      · exact .inl hclock
      · have hheld := h.held i c (h.holder_of_holds hc (by simp [hpc, RecordPc.holds])) hc
        rw [hpc] at hheld
        obtain ⟨hn, hlen, -⟩ := hheld
        exact .inr (by omega)

/-- Between rewinds `clock()` moves forward one at a time: every step of the submitting threads
leaves it or adds one, so no run of them lowers it; and a call returns `n` only once `clock()` is
`n`. -/
theorem Reachable.submit_clock {s : Shared α} (hs : s.Reachable) :
    (∀ s', SubmitStep s s' → s'.tx.clock = s.tx.clock ∨ s'.tx.clock = s.tx.clock + 1) ∧
      (∀ s', Relation.ReflTransGen SubmitStep s s' → s.tx.clock ≤ s'.tx.clock) ∧
      (∀ (i : Nat) (c : RecordCall α) (n : Nat),
        s.calls[i]? = some c → c.pc = .unlock n → s.tx.clock = n) := by
  refine ⟨fun _ h => hs.inv.clock_submitStep h, fun s' hrun => ?_, fun i c n hc hpc => ?_⟩
  · induction hrun with
    | refl => exact le_rfl
    | tail hmid hst ih =>
        have hreach : Reachable _ :=
          Relation.ReflTransGen.trans hs (hmid.mono fun _ _ => Step.submit)
        rcases hreach.inv.clock_submitStep hst with h | h <;> omega
  · have hheld := hs.inv.held i c (hs.inv.holder_of_holds hc (by simp [hpc, RecordPc.holds])) hc
    rw [hpc] at hheld
    exact hheld.1 ▸ hheld.2.clock_eq

theorem submit_clock_contended :
    contended.Reachable ∧
      ((∀ s', SubmitStep contended s' →
          s'.tx.clock = contended.tx.clock ∨
            s'.tx.clock = contended.tx.clock + 1) ∧
        (∀ s', Relation.ReflTransGen SubmitStep contended s' →
          contended.tx.clock ≤ s'.tx.clock) ∧
        (∀ (i : Nat) (c : RecordCall Unit) (n : Nat),
          contended.calls[i]? = some c → c.pc = .unlock n → contended.tx.clock = n)) :=
  ⟨contended_reachable, Reachable.submit_clock contended_reachable⟩

end Shared

end Tss
