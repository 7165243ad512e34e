import Tss.Record
import Mathlib.Data.List.Perm.Basic
import Mathlib.Data.List.Nodup

/-!
# Concurrent `record` calls are atomic

From a transaction holding `n` Annals with clock `n`, any interleaving of `m` `record` calls
leaves the state that the calls made one at a time, in the order they took the mutex, would
leave (`Lin`). So the calls return `n + 1, ..., n + m`, each a clock of its own, and the Annals
of the call that returned `c` sits at position `c`, tagged `c`.
-/

namespace Tss

variable {α : Type}

/-- The Annals `as`, tagged with the clocks `n + 1, n + 2, ...` in turn. -/
def stamp (n : Nat) : List (Annals α) → List (Annals α)
  | [] => []
  | a :: as => a.assignClock (n + 1) :: stamp (n + 1) as

theorem stamp_append (n : Nat) (as bs : List (Annals α)) :
    stamp n (as ++ bs) = stamp n as ++ stamp (n + as.length) bs := by
  induction as generalizing n with
  | nil => rfl
  | cons a as ih =>
      have hn : n + 1 + as.length = n + (as.length + 1) := by omega
      simp [stamp, ih, hn]

theorem getElem?_stamp (n : Nat) (as : List (Annals α)) (j : Nat) :
    (stamp n as)[j]? = as[j]?.map (·.assignClock (n + j + 1)) := by
  induction as generalizing n j with
  | nil => rfl
  | cons a as ih =>
      cases j with
      | zero => simp [stamp]
      | succ j =>
          have hn : n + 1 + j + 1 = n + (j + 1) + 1 := by omega
          simp [stamp, ih, hn]

namespace Transaction

/-- `record` called on each of `as` in turn, each call on its own. -/
def recordAll (t : Transaction α) (as : List (Annals α)) : Transaction α :=
  as.foldl (fun t a => (t.record a).1) t

@[simp] theorem recordAll_nil (t : Transaction α) : t.recordAll [] = t := rfl

@[simp] theorem recordAll_append_singleton (t : Transaction α) (as : List (Annals α))
    (a : Annals α) : t.recordAll (as ++ [a]) = ((t.recordAll as).record a).1 := by
  simp [recordAll]

theorem recordAll_length (t : Transaction α) (as : List (Annals α)) :
    (t.recordAll as).recordVector.length = t.recordVector.length + as.length := by
  induction as using List.reverseRecOn with
  | nil => rfl
  | append_singleton as a ih => simp [ih]; omega

theorem recordAll_clock {t : Transaction α} (h : t.clock = t.recordVector.length)
    (as : List (Annals α)) : (t.recordAll as).clock = t.recordVector.length + as.length := by
  induction as using List.reverseRecOn with
  | nil => exact h
  | append_singleton as a _ => simp [recordAll_length]; omega

theorem recordAll_annals (t : Transaction α) (as : List (Annals α)) :
    (t.recordAll as).annals = t.annals ++ stamp t.recordVector.length as := by
  induction as using List.reverseRecOn with
  | nil => simp [stamp]
  | append_singleton as a ih =>
      simp only [recordAll_append_singleton, record_fst, annals_recordVector, List.reverse_cons,
        stamp_append, recordAll_length, stamp, List.append_assoc]
      rw [← annals, ih, List.append_assoc]

end Transaction

namespace Shared

/-- The transaction while the call submitting `a` stands at `pc` holding the mutex, having found
`base` when it took it. -/
def Progress (a : Annals α) (base t : Transaction α) : RecordPc → Prop
  | .push => t = base
  | .len => t = ⟨a :: base.recordVector, base.clock⟩
  | .assignClock n =>
      n = base.recordVector.length + 1 ∧ t = ⟨a :: base.recordVector, base.clock⟩
  | .store n =>
      n = base.recordVector.length + 1 ∧
        t = ⟨a.assignClock n :: base.recordVector, base.clock⟩
  | .unlock n => n = base.recordVector.length + 1 ∧ t = (base.record a).1
  | .lock | .done _ => False

/-- The calls `D`, in the order they took the mutex, returned: the `j`-th with clock `n + j + 1`. -/
def Returned (n : Nat) (calls : List (RecordCall α)) (D : List (Nat × Annals α)) : Prop :=
  ∀ (j : Nat) (p : Nat × Annals α),
    D[j]? = some p → calls[p.1]? = some ⟨p.2, .done (n + j + 1)⟩

/-- The state is the atomic `record` of the calls that returned, in the order they took the mutex,
after `t0`; the holder, if any, took it last and is part-way through. -/
structure Lin (t0 : Transaction α) (s : Shared α) : Prop where
  nodup : (s.acquired.map Prod.fst).Nodup
  waiting : ∀ i c, s.calls[i]? = some c → i ∉ s.acquired.map Prod.fst → c.pc = .lock
  free : s.holder = none →
    Returned t0.recordVector.length s.calls s.acquired ∧
      s.tx = t0.recordAll (s.acquired.map Prod.snd)
  held : ∀ i, s.holder = some i → ∃ D c, s.acquired = D ++ [(i, c.annals)] ∧
    Returned t0.recordVector.length s.calls D ∧ s.calls[i]? = some c ∧
      Progress c.annals (t0.recordAll (D.map Prod.snd)) s.tx c.pc

theorem Returned.lookup {n : Nat} {calls : List (RecordCall α)} {D : List (Nat × Annals α)}
    (hR : Returned n calls D) {i : Nat} {c : RecordCall α} (hi : i ∈ D.map Prod.fst)
    (hc : calls[i]? = some c) :
    ∃ j p, D[j]? = some p ∧ p.1 = i ∧ c = ⟨p.2, .done (n + j + 1)⟩ := by
  obtain ⟨p, hp, rfl⟩ := List.mem_map.mp hi
  obtain ⟨j, hj⟩ := List.mem_iff_getElem?.mp hp
  exact ⟨j, p, hj, rfl, Option.some.inj (hc.symm.trans (hR j p hj))⟩

theorem Returned.set {n : Nat} {calls : List (RecordCall α)} {D : List (Nat × Annals α)}
    (hR : Returned n calls D) {i : Nat} (hi : i ∉ D.map Prod.fst) (d : RecordCall α) :
    Returned n (calls.set i d) D := by
  intro j p hp
  have hne : i ≠ p.1 := fun he => hi (List.mem_map.mpr ⟨p, List.getElem?_mem hp, he.symm⟩)
  simpa [List.getElem?_set, hne] using hR j p hp

theorem Returned.spawn {n : Nat} {calls : List (RecordCall α)} {D : List (Nat × Annals α)}
    (hR : Returned n calls D) (d : RecordCall α) : Returned n (calls ++ [d]) D := by
  intro j p hp
  rw [List.getElem?_append_left (List.getElem?_eq_some_iff.mp (hR j p hp)).1]
  exact hR j p hp

theorem Returned.snoc {n : Nat} {calls : List (RecordCall α)} {D : List (Nat × Annals α)}
    (hR : Returned n calls D) {i : Nat} {a : Annals α}
    (hi : calls[i]? = some ⟨a, .done (n + D.length + 1)⟩) :
    Returned n calls (D ++ [(i, a)]) := by
  intro j p hp
  rcases Nat.lt_or_ge j D.length with hj | hj
  · exact hR j p (by rwa [List.getElem?_append_left hj] at hp)
  · rw [List.getElem?_append_right hj] at hp
    obtain rfl : j = D.length := by
      by_contra hne
      rw [List.getElem?_eq_none (by simp; omega)] at hp
      cases hp
    simp only [Nat.sub_self, List.getElem?_cons_zero, Option.some.injEq] at hp
    exact hp ▸ hi

theorem lin_init (t0 : Transaction α) : Lin t0 (init t0) :=
  ⟨List.nodup_nil, by simp [init], fun _ => ⟨by simp [Returned, init], rfl⟩, by simp [init]⟩

variable {t0 : Transaction α} {s : Shared α}

theorem Lin.spawn (h : Lin t0 s) (a : Annals α) :
    Lin t0 { s with calls := s.calls ++ [⟨a, .lock⟩] } := by
  refine ⟨h.nodup, fun i c hc hi => ?_, fun hn => ⟨(h.free hn).1.spawn _, (h.free hn).2⟩,
    fun i hi => ?_⟩
  · rcases Nat.lt_or_ge i s.calls.length with hlt | hge
    · exact h.waiting i c (by rwa [List.getElem?_append_left hlt] at hc) hi
    · rw [List.getElem?_append_right hge] at hc
      obtain rfl : i = s.calls.length := by
        by_contra hne
        rw [List.getElem?_eq_none (by simp; omega)] at hc
        cases hc
      simp only [Nat.sub_self, List.getElem?_cons_zero, Option.some.injEq] at hc
      exact hc ▸ rfl
  · obtain ⟨D, c, hacq, hR, hc, hp⟩ := h.held i hi
    exact ⟨D, c, hacq, hR.spawn _,
      by rw [List.getElem?_append_left (List.getElem?_eq_some_iff.mp hc).1]; exact hc, hp⟩

/-- A call that holds the mutex is the holder, the last to take it. -/
theorem Lin.busy (h : Lin t0 s) {i : Nat} {c : RecordCall α} (hc : s.calls[i]? = some c)
    (hpc : c.pc.holds = true) : s.holder = some i ∧ ∃ D, s.acquired = D ++ [(i, c.annals)] ∧
      Returned t0.recordVector.length s.calls D ∧
        Progress c.annals (t0.recordAll (D.map Prod.snd)) s.tx c.pc := by
  have hmem : i ∈ s.acquired.map Prod.fst := by
    by_contra hi
    simp [h.waiting i c hc hi, RecordPc.holds] at hpc
  have not_done (D : List (Nat × Annals α)) (hR : Returned t0.recordVector.length s.calls D)
      (hi : i ∈ D.map Prod.fst) : False := by
    obtain ⟨j, p, -, -, rfl⟩ := hR.lookup hi hc
    simp [RecordPc.holds] at hpc
  cases hh : s.holder with
  | none => exact (not_done _ (h.free hh).1 hmem).elim
  | some k =>
      obtain ⟨D, d, hacq, hR, hd, hp⟩ := h.held k hh
      rw [hacq] at hmem
      simp only [List.map_append, List.map_cons, List.map_nil, List.mem_append,
        List.mem_singleton] at hmem
      rcases hmem with hmem | rfl
      · exact (not_done D hR hmem).elim
      · obtain rfl : d = c := Option.some.inj (hd.symm.trans hc)
        exact ⟨rfl, D, hacq, hR, hp⟩

theorem Lin.not_mem_of_acquired {D : List (Nat × Annals α)} {i : Nat} {a : Annals α}
    (h : Lin t0 s) (hacq : s.acquired = D ++ [(i, a)]) : i ∉ D.map Prod.fst := by
  have hn := h.nodup
  rw [hacq, List.map_append, List.nodup_append] at hn
  exact fun hi => hn.2.2 hi (by simp)

/-- The holder `i` moves to `pc`, the transaction becoming `t`. -/
theorem Lin.advance (h : Lin t0 s) {i : Nat} {c : RecordCall α} (hc : s.calls[i]? = some c)
    (hhold : s.holder = some i) {D : List (Nat × Annals α)}
    (hacq : s.acquired = D ++ [(i, c.annals)])
    (hR : Returned t0.recordVector.length s.calls D) (t : Transaction α) (pc : RecordPc)
    (hp : Progress c.annals (t0.recordAll (D.map Prod.snd)) t pc) :
    Lin t0 { s with tx := t, calls := s.calls.set i { c with pc := pc } } := by
  have hi : i ∉ D.map Prod.fst := h.not_mem_of_acquired hacq
  refine ⟨h.nodup, fun j d hd hj => ?_, fun hn => by simp [hhold] at hn, fun j hj => ?_⟩
  · have hji : i ≠ j := fun he => hj (by simp [hacq, he])
    exact h.waiting j d (by simpa [List.getElem?_set, hji] using hd) hj
  · obtain rfl : j = i := by simpa [hhold] using hj.symm
    exact ⟨D, { c with pc := pc }, hacq, hR.set hi _, getElem?_set_of_getElem? hc _, hp⟩

theorem Lin.unlock (h : Lin t0 s) {i : Nat} {c : RecordCall α} (hc : s.calls[i]? = some c)
    {D : List (Nat × Annals α)} (hacq : s.acquired = D ++ [(i, c.annals)])
    (hR : Returned t0.recordVector.length s.calls D) {n : Nat}
    (hp : Progress c.annals (t0.recordAll (D.map Prod.snd)) s.tx (.unlock n)) :
    Lin t0 { s with holder := none, calls := s.calls.set i { c with pc := .done n } } := by
  have hi : i ∉ D.map Prod.fst := h.not_mem_of_acquired hacq
  obtain ⟨hn, htx⟩ := hp
  have hn' : n = t0.recordVector.length + D.length + 1 := by
    simp [hn, Transaction.recordAll_length]
  refine ⟨h.nodup, fun j d hd hj => ?_, fun _ => ⟨?_, ?_⟩, fun j hj => by simp at hj⟩
  · have hji : i ≠ j := fun he => hj (by simp [hacq, he])
    exact h.waiting j d (by simpa [List.getElem?_set, hji] using hd) hj
  · rw [hacq]
    exact (hR.set hi _).snoc (by rw [getElem?_set_of_getElem? hc, hn'])
  · simp [hacq, htx]

/-- One step of a `record` call keeps `Lin`. -/
theorem Lin.recordStep (h : Lin t0 s) {s' : Shared α} {i : Nat} (hs : s.recordStep i = some s') :
    Lin t0 s' := by
  unfold Shared.recordStep at hs
  cases hc : s.calls[i]? with
  | none => simp [hc] at hs
  | some c =>
    simp only [hc] at hs
    cases hpc : c.pc with
    | lock =>
        simp only [hpc] at hs
        split at hs
        · rename_i hnone
          cases hs
          obtain ⟨hR, htx⟩ := h.free hnone
          have hi : i ∉ s.acquired.map Prod.fst := fun hi => by
            obtain ⟨j, p, -, -, rfl⟩ := hR.lookup hi hc
            simp at hpc
          refine ⟨by simp [List.nodup_append, h.nodup, hi], fun j d hd hj => ?_,
            fun hn => by simp at hn, fun j hj => ?_⟩
          · have hji : i ≠ j := fun he => hj (by simp [he])
            exact h.waiting j d (by simpa [List.getElem?_set, hji] using hd)
              (fun hm => hj (by simp [hm]))
          · obtain rfl : j = i := by simpa using hj.symm
            exact ⟨s.acquired, { c with pc := .push }, rfl, hR.set hi _,
              getElem?_set_of_getElem? hc _, htx⟩
        · cases hs
    | push =>
        simp only [hpc] at hs
        cases hs
        obtain ⟨hhold, D, hacq, hR, hp⟩ := h.busy hc (by simp [hpc, RecordPc.holds])
        simp only [hpc, Progress] at hp
        exact h.advance hc hhold hacq hR _ .len (by simp only [Progress, hp])
    | len =>
        simp only [hpc] at hs
        cases hs
        obtain ⟨hhold, D, hacq, hR, hp⟩ := h.busy hc (by simp [hpc, RecordPc.holds])
        simp only [hpc, Progress] at hp
        exact h.advance hc hhold hacq hR _ (.assignClock _) ⟨by simp [hp], hp⟩
    | assignClock n =>
        simp only [hpc] at hs
        split at hs
        · cases hs
          obtain ⟨hhold, D, hacq, hR, hp⟩ := h.busy hc (by simp [hpc, RecordPc.holds])
          simp only [hpc, Progress] at hp
          obtain ⟨hn, htx⟩ := hp
          have hw : n - 1 = (t0.recordAll (D.map Prod.snd)).recordVector.length := by omega
          exact h.advance hc hhold hacq hR _ (.store n)
            ⟨hn, by simp only [htx, hw, modifyIndex_last]⟩
        · cases hs
    | store n =>
        simp only [hpc] at hs
        cases hs
        obtain ⟨hhold, D, hacq, hR, hp⟩ := h.busy hc (by simp [hpc, RecordPc.holds])
        simp only [hpc, Progress] at hp
        obtain ⟨rfl, htx⟩ := hp
        exact h.advance hc hhold hacq hR _ (.unlock _) ⟨rfl, by simp [htx]⟩
    | unlock n =>
        simp only [hpc] at hs
        cases hs
        obtain ⟨-, D, hacq, hR, hp⟩ := h.busy hc (by simp [hpc, RecordPc.holds])
        simp only [hpc, Progress] at hp
        exact h.unlock hc hacq hR hp
    | done n => simp [hpc] at hs

theorem Lin.submitStep (h : Lin t0 s) {s' : Shared α} : SubmitStep s s' → Lin t0 s'
  | .spawn _ a _ => h.spawn a
  | .record _ hs => h.recordStep hs

theorem lin_of_run {s : Shared α} (hs : Relation.ReflTransGen SubmitStep (init t0) s) :
    Lin t0 s := by
  induction hs with
  | refl => exact lin_init t0
  | tail _ hst ih => exact ih.submitStep hst

/-- Once every call has returned, nobody holds the mutex and every call took it exactly once. -/
theorem Lin.idle (h : Lin t0 s) (hidle : s.Idle) :
    s.holder = none ∧ (s.acquired.map Prod.fst).Perm (List.range s.calls.length) := by
  have done_of {c : RecordCall α} (hc : c ∈ s.calls) : ∃ k, c.pc = .done k := by
    have := hidle c hc
    cases hpc : c.pc <;> simp_all [RecordPc.returned]
  have hnone : s.holder = none := by
    cases hh : s.holder with
    | none => rfl
    | some i =>
        obtain ⟨D, c, -, -, hc, hp⟩ := h.held i hh
        obtain ⟨k, hk⟩ := done_of (List.getElem?_mem hc)
        rw [hk] at hp
        exact hp.elim
  refine ⟨hnone,
    (List.perm_ext_iff_of_nodup h.nodup (List.nodup_range _)).mpr fun i => ⟨?_, ?_⟩⟩
  · intro hi
    obtain ⟨p, hp, rfl⟩ := List.mem_map.mp hi
    obtain ⟨j, hj⟩ := List.mem_iff_getElem?.mp hp
    exact List.mem_range.mpr (List.getElem?_eq_some_iff.mp ((h.free hnone).1 j p hj)).1
  · intro hi
    have hlt := List.mem_range.mp hi
    by_contra hn
    obtain ⟨k, hk⟩ := done_of (List.getElem_mem hlt)
    have := h.waiting i _ (List.getElem?_eq_getElem hlt) hn
    simp [hk] at this

/-- Any interleaving of `m` `record` calls on a transaction holding `n` Annals with clock `n`,
once all have returned: (a) they returned pairwise distinct clocks, exactly `n + 1, ..., n + m`;
(b) the call that returned `k` has its Annals at position `k`, tagged `k`; (c) the Annals are the
original ones followed by the submitted ones in the order their calls took the mutex, each call
exactly once, and the clock is `n + m`. -/
theorem record_calls_linearize {t0 : Transaction α} (h0 : t0.clock = t0.recordVector.length)
    {s : Shared α} (hs : Relation.ReflTransGen SubmitStep (init t0) s) (hidle : s.Idle) :
    (∀ k, (∃ (i : Nat) (c : RecordCall α), s.calls[i]? = some c ∧ c.pc = .done k) ↔
      t0.recordVector.length < k ∧ k ≤ t0.recordVector.length + s.calls.length) ∧
    (∀ (i j : Nat) (c d : RecordCall α) (k : Nat), s.calls[i]? = some c →
      s.calls[j]? = some d → c.pc = .done k → d.pc = .done k → i = j) ∧
    (∀ (i : Nat) (c : RecordCall α) (k : Nat), s.calls[i]? = some c → c.pc = .done k →
      s.tx.annals[k - 1]? = some (c.annals.assignClock k)) ∧
    s.tx.annals = t0.annals ++ stamp t0.recordVector.length (s.acquired.map Prod.snd) ∧
    (s.acquired.map Prod.fst).Perm (List.range s.calls.length) ∧
    (∀ p ∈ s.acquired, (s.calls[p.1]?).map RecordCall.annals = some p.2) ∧
    s.tx.clock = t0.recordVector.length + s.calls.length := by
  have h := lin_of_run hs
  obtain ⟨hnone, hperm⟩ := h.idle hidle
  obtain ⟨hR, htx⟩ := h.free hnone
  have hlen : s.acquired.length = s.calls.length := by simpa using hperm.length_eq
  have lookup {i : Nat} {c : RecordCall α} (hc : s.calls[i]? = some c) :
      ∃ j p, s.acquired[j]? = some p ∧ p.1 = i ∧
        c = ⟨p.2, .done (t0.recordVector.length + j + 1)⟩ :=
    hR.lookup (hperm.mem_iff.mpr (List.mem_range.mpr (List.getElem?_eq_some_iff.mp hc).1)) hc
  have hannals :
      s.tx.annals = t0.annals ++ stamp t0.recordVector.length (s.acquired.map Prod.snd) := by
    rw [htx, Transaction.recordAll_annals]
  refine ⟨fun k => ⟨?_, ?_⟩, ?_, ?_, hannals, hperm, ?_, ?_⟩
  · rintro ⟨i, c, hc, hk⟩
    obtain ⟨j, p, hj, -, rfl⟩ := lookup hc
    have := (List.getElem?_eq_some_iff.mp hj).1
    simp only [RecordPc.done.injEq] at hk
    omega
  · rintro ⟨hk1, hk2⟩
    obtain ⟨p, hp⟩ : ∃ p, s.acquired[k - t0.recordVector.length - 1]? = some p :=
      ⟨_, List.getElem?_eq_getElem (by omega)⟩
    refine ⟨p.1, _, hR _ p hp, ?_⟩
    simp only [RecordPc.done.injEq]
    omega
  · intro i j c d k hc hd hck hdk
    obtain ⟨j1, p, hj1, rfl, rfl⟩ := lookup hc
    obtain ⟨j2, q, hj2, rfl, rfl⟩ := lookup hd
    simp only [RecordPc.done.injEq] at hck hdk
    obtain rfl : j1 = j2 := by omega
    rw [hj1, Option.some.injEq] at hj2
    rw [hj2]
  · intro i c k hc hk
    obtain ⟨j, p, hj, -, rfl⟩ := lookup hc
    simp only [RecordPc.done.injEq] at hk
    subst hk
    have hidx : t0.recordVector.length + j + 1 - 1 - t0.annals.length = j := by
      simp [Transaction.annals]
    rw [hannals, List.getElem?_append_right (by simp [Transaction.annals]), hidx, getElem?_stamp,
      List.getElem?_map, hj]
    rfl
  · intro p hp
    obtain ⟨j, hj⟩ := List.mem_iff_getElem?.mp hp
    simp [hR j p hj]
  · rw [htx, Transaction.recordAll_clock h0, List.length_map, hlen]

/-- The calls `is` take one step each, in this order; `none` if one of them cannot. -/
def runCalls (s : Shared α) : List Nat → Option (Shared α)
  | [] => some s
  | i :: is => (s.recordStep i).bind fun s' => s'.runCalls is

/-- A schedule of steps that `runCalls` completes is a run of the submitting threads. -/
theorem runCalls_run {s s' : Shared α} (is : List Nat) (h : s.runCalls is = some s') :
    Relation.ReflTransGen SubmitStep s s' := by
  induction is generalizing s with
  | nil =>
      cases h
      exact .refl
  | cons i is ih =>
      obtain ⟨s₁, h₁, h₂⟩ := Option.bind_eq_some.mp h
      exact .head (.record i h₁) (ih h₂)

/-- Two `record` calls on a fresh transaction, both returned: call `1`, spawned second, took the
mutex first and returned `1`; call `0` returned `2`. -/
def twoCalls : Shared Nat :=
  ⟨⟨[⟨0, 2⟩, ⟨1, 1⟩], 2⟩, none, [⟨⟨0, 0⟩, .done 2⟩, ⟨⟨1, 0⟩, .done 1⟩],
    [(1, ⟨1, 0⟩), (0, ⟨0, 0⟩)], true⟩

theorem twoCalls_run : Relation.ReflTransGen SubmitStep (init Transaction.new) twoCalls :=
  .head (.spawn _ ⟨0, 0⟩ rfl) <| .head (.spawn _ ⟨1, 0⟩ rfl) <|
    runCalls_run [1, 1, 1, 1, 1, 1, 0, 0, 0, 0, 0, 0] (by decide)

theorem twoCalls_idle : twoCalls.Idle := by
  simp [twoCalls, Idle, RecordPc.returned]

theorem record_calls_linearize_two_calls :
    twoCalls.acquired.map Prod.fst = [1, 0] ∧
    (Transaction.new : Transaction Nat).clock =
      (Transaction.new : Transaction Nat).recordVector.length ∧
    Relation.ReflTransGen SubmitStep (init Transaction.new) twoCalls ∧ twoCalls.Idle ∧
    ((∀ k, (∃ (i : Nat) (c : RecordCall Nat),
        twoCalls.calls[i]? = some c ∧ c.pc = .done k) ↔
      (Transaction.new : Transaction Nat).recordVector.length < k ∧
        k ≤ (Transaction.new : Transaction Nat).recordVector.length + twoCalls.calls.length) ∧
    (∀ (i j : Nat) (c d : RecordCall Nat) (k : Nat), twoCalls.calls[i]? = some c →
      twoCalls.calls[j]? = some d → c.pc = .done k → d.pc = .done k → i = j) ∧
    (∀ (i : Nat) (c : RecordCall Nat) (k : Nat), twoCalls.calls[i]? = some c →
      c.pc = .done k →
      twoCalls.tx.annals[k - 1]? = some (c.annals.assignClock k)) ∧
    twoCalls.tx.annals = (Transaction.new : Transaction Nat).annals ++
      stamp (Transaction.new : Transaction Nat).recordVector.length
        (twoCalls.acquired.map Prod.snd) ∧
    (twoCalls.acquired.map Prod.fst).Perm (List.range twoCalls.calls.length) ∧
    (∀ p ∈ twoCalls.acquired, (twoCalls.calls[p.1]?).map RecordCall.annals = some p.2) ∧
    twoCalls.tx.clock =
      (Transaction.new : Transaction Nat).recordVector.length + twoCalls.calls.length) :=
  ⟨rfl, rfl, twoCalls_run, twoCalls_idle, record_calls_linearize rfl twoCalls_run twoCalls_idle⟩

end Shared

end Tss
