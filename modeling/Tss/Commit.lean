import Tss.Rubicon

/-!
# Many transactions on one sequencer

Transactions sharing one `Sequencer` commit, roll back and drop in any interleaving, with other
callers of `get` and `advance` in between. Each transaction's anchor and the replies to its own
calls are fixed by where its owner stands, so `advance` runs for it at most once, exactly when
its Rubicon is consumed without a rollback. Under the `Sequencer` contract this gives the commit
snapshots their order.
-/

namespace Tss

variable {α C : Type}

/-- The clocks `advance` returned to transaction `i`'s own calls. -/
def advancesBy (i : Nat) (l : List (SeqCall C)) : List C := (callsBy i l).filterMap SeqCall.advanced

theorem mem_advancesBy {i : Nat} {c : C} {l : List (SeqCall C)} :
    c ∈ advancesBy i l ↔ .advance (some i) c ∈ l := by
  simp only [advancesBy, List.mem_filterMap, mem_callsBy]
  constructor
  · rintro ⟨e, ⟨he, hi⟩, hc⟩
    cases e <;> simp_all
  · exact fun h => ⟨_, ⟨h, rfl⟩, rfl⟩

/-- The transactions `advance` was called for, in call order. -/
def finalizedOrder (l : List (SeqCall C)) : List Nat := l.reverse.filterMap SeqCall.finalizes

theorem mem_finalizedOrder_iff {i : Nat} {l : List (SeqCall C)} :
    i ∈ finalizedOrder l ↔ ∃ c, .advance (some i) c ∈ l := by
  simp only [finalizedOrder, List.mem_filterMap, List.mem_reverse]
  constructor
  · rintro ⟨e, he, hi⟩
    cases e with
    | get => simp [SeqCall.finalizes] at hi
    | advance j c =>
        simp only [SeqCall.finalizes] at hi
        exact ⟨c, hi ▸ he⟩
  · rintro ⟨c, hc⟩
    exact ⟨_, hc, rfl⟩

section Contract

variable [Preorder C] [Inhabited C]

/-- Under the contract, two `advance` calls for different callers return different clocks. -/
theorem Contract.advance_ne {x y : Option Nat} {a b : C} (hxy : x ≠ y) :
    ∀ {l : List (SeqCall C)}, Contract l → .advance x a ∈ l → .advance y b ∈ l → a ≠ b
  | e :: l, hc, ha, hb => by
      simp only [List.mem_cons] at ha hb
      rcases ha with rfl | ha
      · rcases hb with hb | hb
        · cases hb; exact absurd rfl hxy
        · exact (hc.2.1 _ hb).ne'
      · rcases hb with rfl | hb
        · exact (hc.2.1 _ ha).ne
        · exact Contract.advance_ne hxy hc.tail ha hb

/-- Under the contract, the `advance` clocks a filter picks out decrease, newest first. -/
theorem Contract.pairwise_filterMap {g : SeqCall C → Option C} :
    ∀ {l : List (SeqCall C)}, Contract l →
      (∀ e ∈ l, ∀ c, g e = some c → e.advanced = some c) →
      (l.filterMap g).Pairwise (· > ·)
  | [], _, _ => List.Pairwise.nil
  | e :: l, hc, hg => by
      have ih :=
        Contract.pairwise_filterMap hc.tail fun e' he' => hg e' (List.mem_cons_of_mem _ he')
      cases hge : g e with
      | none => simpa [List.filterMap_cons_none hge] using ih
      | some c =>
          rw [List.filterMap_cons_some hge, List.pairwise_cons]
          refine ⟨fun c' hc' => ?_, ih⟩
          obtain ⟨e', he', hge'⟩ := List.mem_filterMap.mp hc'
          have hadv := hg e (List.mem_cons_self _ _) c hge
          cases e with
          | get => simp at hadv
          | advance x c₀ =>
              simp only [SeqCall.advanced_advance, Option.some.injEq] at hadv
              subst hadv
              exact SeqCall.clock_of_advanced (hg e' (List.mem_cons_of_mem _ he') c' hge') ▸
                hc.2.1 e' he'

/-- Under the contract, the clocks `advance` returned to transactions increase in call order. -/
theorem Contract.finalized_increasing {l : List (SeqCall C)} (hc : Contract l) (f : Nat → C)
    (hf : ∀ i c, .advance (some i) c ∈ l → f i = c) :
    ((finalizedOrder l).map f).Pairwise (· < ·) := by
  rw [finalizedOrder, List.map_filterMap, List.filterMap_reverse, List.pairwise_reverse]
  refine hc.pairwise_filterMap fun e he c hge => ?_
  cases e with
  | get => simp [SeqCall.finalizes] at hge
  | advance x c' =>
      obtain ⟨i, rfl, rfl⟩ := Option.map_eq_some'.mp hge
      simp [hf i c' he]

/-- Under the contract, a transaction whose own replies are an `advance` after a `get` got a
clock above the one `get` returned and above the default. -/
theorem Contract.lt_of_callsBy {i : Nat} {p c : C} :
    ∀ {l : List (SeqCall C)}, Contract l →
      callsBy i l = [.advance (some i) c, .get (some i) p] → p < c ∧ default < c
  | [], _, h => by simp at h
  | e :: l, hc, h => by
      by_cases he : e.caller = some i
      · simp only [callsBy_cons, he, if_true, List.cons.injEq] at h
        obtain ⟨rfl, hl⟩ := h
        have hp : SeqCall.get (some i) p ∈ callsBy i l := by simp [hl]
        exact ⟨hc.2.1 _ (mem_callsBy.mp hp).1, hc.1⟩
      · simp only [callsBy_cons, he, if_false] at h
        exact Contract.lt_of_callsBy hc.tail h

end Contract

/-- Where the owner of a transaction stands. -/
inductive Stage (α C : Type)
  /-- The `Transaction` is live. -/
  | active (t : Transaction α)
  /-- `Transaction::commit` returned this `Rubicon`. -/
  | fenced (r : Rubicon α)
  /-- `Rubicon::commit` returned this clock. -/
  | committed (c : C)
  /-- The `Rubicon` was dropped without a call. -/
  | finalized
  /-- `Transaction::rollback` or `Rubicon::rollback` ran. -/
  | rolledBack
  /-- The `Transaction` went out of scope. -/
  | dropped

/-- The Rubicon was consumed by `commit` or by its `Drop`. -/
def Stage.final : Stage α C → Bool
  | .committed _ | .finalized => true
  | _ => false

/-- The owner can still call into the transaction or its Rubicon. -/
def Stage.live : Stage α C → Bool
  | .active _ | .fenced _ => true
  | _ => false

/-- Transactions sharing one sequencer, each with its anchor and its owner's stage. -/
structure System (α C : Type) where
  world : World α C
  stages : Nat → Stage α C

namespace System

/-- Fresh transactions, before any call. -/
def init [Inhabited C] : System α C :=
  ⟨⟨[], fun _ => Anchor.new, []⟩, fun _ => .active Transaction.new⟩

/-- Transaction `i` moved to `st`, the shared state becoming `w`. -/
def set (s : System α C) (i : Nat) (w : World α C) (st : Stage α C) : System α C :=
  ⟨w, Function.update s.stages i st⟩

@[simp] theorem set_world (s : System α C) (i : Nat) (w : World α C) (st : Stage α C) :
    (s.set i w st).world = w := rfl

@[simp] theorem set_stages (s : System α C) (i : Nat) (w : World α C) (st : Stage α C) :
    (s.set i w st).stages = Function.update s.stages i st := rfl

theorem set_stages_of_live {s : System α C} {i j : Nat} {w : World α C} {st : Stage α C}
    (hj : (s.stages j).live = true) (hi : (s.stages i).live = false) :
    (s.set j w st).stages i = s.stages i := by
  have hij : i ≠ j := by
    rintro rfl
    simp_all
  simp [Function.update_noteq hij]

variable [Inhabited C] (sq : Sequencer C)

/-- A step: one transaction's owner runs one call, or another caller uses the sequencer. -/
inductive Step : System α C → System α C → Prop
  | record (s : System α C) (i : Nat) (t : Transaction α) (a : Annals α) :
      s.stages i = .active t → Step s (s.set i s.world (.active (t.record a).1))
  | rewind (s : System α C) (i : Nat) (t : Transaction α) (k : Nat) :
      s.stages i = .active t →
        Step s (s.set i (s.world.drop (t.rewind k).dropped) (.active (t.rewind k).tx))
  | commit (s : System α C) (i : Nat) (t : Transaction α) (r : Rubicon α) (w : World α C) :
      s.stages i = .active t → t.commit sq i s.world = (.ok r, w) →
        Step s (s.set i w (.fenced r))
  | rollback (s : System α C) (i : Nat) (t : Transaction α) :
      s.stages i = .active t → Step s (s.set i (s.world.drop t.rollback) .rolledBack)
  | discard (s : System α C) (i : Nat) (t : Transaction α) :
      s.stages i = .active t → Step s (s.set i (s.world.drop t.dropGlue) .dropped)
  | rubiconCommit (s : System α C) (i : Nat) (r : Rubicon α) :
      s.stages i = .fenced r →
        Step s (s.set i (r.commit sq i s.world).2 (.committed (r.commit sq i s.world).1))
  | rubiconRollback (s : System α C) (i : Nat) (r : Rubicon α) :
      s.stages i = .fenced r → Step s (s.set i (r.rollback sq i s.world) .rolledBack)
  | rubiconDrop (s : System α C) (i : Nat) (r : Rubicon α) :
      s.stages i = .fenced r → Step s (s.set i (r.drop sq i s.world) .finalized)
  | get (s : System α C) :
      Step s ⟨{ s.world with replies := .get none (sq.get s.world.replies) :: s.world.replies },
        s.stages⟩
  | advance (s : System α C) :
      Step s ⟨{ s.world with
        replies := .advance none (sq.advance s.world.replies) :: s.world.replies }, s.stages⟩

/-- The states reachable from fresh transactions. -/
def Reachable (s : System α C) : Prop := Relation.ReflTransGen (Step sq) init s

/-- Transaction `i`'s anchor `a` and the replies `h` to its own calls (newest first), at each
stage of its owner. -/
def StageInv (i : Nat) (a : Anchor C) (h : List (SeqCall C)) : Stage α C → Prop
  | .active _ | .dropped => a = Anchor.new ∧ h = []
  | .fenced r => (∃ t, r = ⟨some t⟩) ∧ a.commitSnapshot = default ∧
      h = [.get (some i) a.preliminarySnapshot]
  | .committed c => c = a.commitSnapshot ∧
      h = [.advance (some i) c, .get (some i) a.preliminarySnapshot]
  | .finalized => h = [.advance (some i) a.commitSnapshot, .get (some i) a.preliminarySnapshot]
  | .rolledBack => a.commitSnapshot = default ∧
      (h = [] ∨ h = [.get (some i) a.preliminarySnapshot])

section StageInv

variable {i : Nat} {a : Anchor C} {h : List (SeqCall C)}

theorem StageInv.calls_of_final {st : Stage α C} (hst : StageInv i a h st) (hf : st.final = true) :
    h = [.advance (some i) a.commitSnapshot, .get (some i) a.preliminarySnapshot] := by
  cases st with
  | committed c => obtain ⟨rfl, hh⟩ := hst; exact hh
  | finalized => exact hst
  | _ => simp [Stage.final] at hf

theorem StageInv.commit_default {st : Stage α C} (hst : StageInv i a h st)
    (hf : st.final = false) : a.commitSnapshot = default := by
  cases st with
  | active | dropped => rw [hst.1]; rfl
  | fenced => exact hst.2.1
  | rolledBack => exact hst.1
  | _ => simp [Stage.final] at hf

/-- A transaction's `advance` replies: its `commit_snapshot` once finalised, none before. -/
theorem StageInv.advanced {st : Stage α C} (hst : StageInv i a h st) :
    h.filterMap SeqCall.advanced = if st.final then [a.commitSnapshot] else [] := by
  cases hf : st.final
  · cases st with
    | active | dropped => simp [hst.2]
    | fenced => simp [hst.2.2]
    | rolledBack => rcases hst.2 with hh | hh <;> simp [hh]
    | _ => simp [Stage.final] at hf
  · simp [hst.calls_of_final hf]

end StageInv

/-- Every transaction's anchor and replies agree with its owner's stage. -/
def Inv (s : System α C) : Prop :=
  ∀ i, StageInv i (s.world.anchors i) (callsBy i s.world.replies) (s.stages i)

theorem inv_init : (init : System α C).Inv := fun _ => ⟨rfl, rfl⟩

/-- A call of transaction `i` that leaves the others' anchors and replies keeps the invariant
when it keeps `i`'s. -/
theorem Inv.set {s : System α C} (hs : s.Inv) {i : Nat} {w : World α C} {st : Stage α C}
    (hanchors : ∀ j, j ≠ i → w.anchors j = s.world.anchors j)
    (hreplies : ∀ j, j ≠ i → callsBy j w.replies = callsBy j s.world.replies)
    (hi : StageInv i (w.anchors i) (callsBy i w.replies) st) : (s.set i w st).Inv := by
  intro j
  by_cases hj : j = i
  · subst hj
    simpa using hi
  · simpa [Function.update_noteq hj, hanchors j hj, hreplies j hj] using hs j

/-- A reply to another caller changes no transaction's replies. -/
theorem Inv.answer {s : System α C} (hs : s.Inv) (e : SeqCall C) (he : e.caller = none) :
    (⟨{ s.world with replies := e :: s.world.replies }, s.stages⟩ : System α C).Inv := by
  intro j
  simpa [he] using hs j

theorem Inv.step {s s' : System α C} (hs : s.Inv) (h : Step sq s s') : s'.Inv := by
  have at_stage : ∀ {i : Nat} {st : Stage α C}, s.stages i = st →
      StageInv i (s.world.anchors i) (callsBy i s.world.replies) st := by
    intro i st h
    rw [← h]
    exact hs i
  cases h with
  | record i t a ht | rewind i t a ht | discard i t ht =>
      have hi := at_stage ht
      exact hs.set (fun _ _ => rfl) (fun _ _ => rfl) hi
  | rollback i t ht =>
      obtain ⟨ha, hh⟩ := at_stage ht
      exact hs.set (fun _ _ => rfl) (fun _ _ => rfl) ⟨by simp [ha, Anchor.new], .inl hh⟩
  | rubiconRollback i r hr =>
      obtain ⟨⟨t, rfl⟩, hcommit, hh⟩ := at_stage hr
      exact hs.set (fun _ _ => rfl) (fun _ _ => rfl) ⟨hcommit, .inr hh⟩
  | commit i t r w ht hc =>
      obtain ⟨ha, hh⟩ := at_stage ht
      simp only [Transaction.commit, Prod.mk.injEq, Except.ok.injEq] at hc
      obtain ⟨rfl, rfl⟩ := hc
      refine hs.set (fun j hj => Function.update_noteq hj _ _) (fun j hj => by simp [Ne.symm hj]) ?_
      simp [StageInv, ha, hh, Anchor.new]
  | rubiconCommit i r hr | rubiconDrop i r hr =>
      obtain ⟨⟨t, rfl⟩, -, hh⟩ := at_stage hr
      refine hs.set
        (fun j hj => by simp [Rubicon.commit_some, Rubicon.drop_some, Function.update_noteq hj])
        (fun j hj => by simp [Rubicon.commit_some, Rubicon.drop_some, Ne.symm hj]) ?_
      simp [StageInv, Rubicon.commit_some, Rubicon.drop_some, hh]
  | get | advance => exact hs.answer _ rfl

/-- Every reachable state keeps the invariant. -/
theorem Reachable.inv {s : System α C} (hs : s.Reachable sq) : s.Inv := by
  induction hs with
  | refl => exact inv_init
  | tail _ hst ih => exact ih.step sq hst

/-- `advance` has answered a transaction once, with its `commit_snapshot`, if it is finalised, and
never otherwise. -/
theorem Inv.advancesBy {s : System α C} (hs : s.Inv) (i : Nat) :
    advancesBy i s.world.replies =
      if (s.stages i).final then [(s.world.anchors i).commitSnapshot] else [] :=
  (hs i).advanced

theorem Inv.advance_mem_iff {s : System α C} (hs : s.Inv) {i : Nat} {c : C} :
    .advance (some i) c ∈ s.world.replies ↔
      (s.stages i).final = true ∧ (s.world.anchors i).commitSnapshot = c := by
  rw [← mem_advancesBy, hs.advancesBy i]
  split <;> simp [*, @eq_comm _ c]

/-- No step moves a transaction whose owner can no longer call it. -/
theorem Step.stage_of_not_live {s s' : System α C} (h : Step sq s s') {i : Nat}
    (hi : (s.stages i).live = false) : s'.stages i = s.stages i := by
  cases h with
  | record j _ _ hj | rewind j _ _ hj | commit j _ _ _ hj _ | rollback j _ hj | discard j _ hj
  | rubiconCommit j _ hj | rubiconRollback j _ hj | rubiconDrop j _ hj =>
      exact set_stages_of_live (by simp [hj, Stage.live]) hi
  | get | advance => rfl

theorem stage_of_not_live {s s' : System α C} (h : Relation.ReflTransGen (Step sq) s s') {i : Nat}
    (hi : (s.stages i).live = false) : s'.stages i = s.stages i := by
  induction h with
  | refl => rfl
  | tail _ hst ih => rw [hst.stage_of_not_live sq (ih ▸ hi), ih]

/-- A Rubicon call of transaction `j` leaves every other transaction's anchor. -/
theorem rubicon_anchors_of_ne (r : Rubicon α) {i j : Nat} (hij : i ≠ j) (w : World α C) :
    (r.commit sq j w).2.anchors i = w.anchors i ∧ (r.rollback sq j w).anchors i = w.anchors i ∧
      (r.drop sq j w).anchors i = w.anchors i := by
  rcases r with ⟨_ | t⟩ <;>
    simp [Rubicon.commit, Rubicon.rollback, Rubicon.drop, Rubicon.take, Rubicon.postProcess,
      Function.update_noteq hij]

/-- No step changes the stage or the anchor of a transaction whose owner can no longer call it. -/
theorem Step.frame_of_not_live {s s' : System α C} (h : Step sq s s') {i : Nat}
    (hi : (s.stages i).live = false) :
    s'.stages i = s.stages i ∧ s'.world.anchors i = s.world.anchors i := by
  refine ⟨h.stage_of_not_live sq hi, ?_⟩
  have hne : ∀ j, (s.stages j).live = true → i ≠ j := by
    rintro j hj rfl
    simp_all
  cases h with
  | record | rewind | rollback | discard | get | advance => rfl
  | commit j t r w hj hc =>
      simp only [Transaction.commit, Prod.mk.injEq] at hc
      rw [set_world, ← hc.2]
      exact Function.update_noteq (hne j (by simp [hj, Stage.live])) _ _
  | rubiconCommit j r hj =>
      exact (rubicon_anchors_of_ne sq r (hne j (by simp [hj, Stage.live])) _).1
  | rubiconRollback j r hj =>
      exact (rubicon_anchors_of_ne sq r (hne j (by simp [hj, Stage.live])) _).2.1
  | rubiconDrop j r hj =>
      exact (rubicon_anchors_of_ne sq r (hne j (by simp [hj, Stage.live])) _).2.2

/-- A rolled-back transaction stays so, with the default `commit_snapshot`. -/
theorem Reachable.rolledBack_of_run {s s' : System α C} (hs : s.Reachable sq)
    (hrun : Relation.ReflTransGen (Step sq) s s') {i : Nat} (hst : s.stages i = .rolledBack) :
    s'.stages i = .rolledBack ∧ (s'.world.anchors i).commitSnapshot = default := by
  have hstage : s'.stages i = .rolledBack :=
    (stage_of_not_live sq hrun (by simp [hst, Stage.live])).trans hst
  have hi := Reachable.inv sq (hs.trans hrun) i
  rw [hstage] at hi
  exact ⟨hstage, hi.1⟩

end System

section Fence

variable [Preorder C] [Inhabited C] (sq : Sequencer C)

/-- What the commit protocol guarantees in a state whose replies keep the `Sequencer` contract. -/
structure CommitFence (s : System α C) : Prop where
  /-- `advance` is called for a transaction at most once, -/
  advance_at_most_once : ∀ i, (advancesBy i s.world.replies).length ≤ 1
  /-- and called exactly when its Rubicon was consumed by `commit` or by its `Drop`; the clock it
  returned is then the anchor's `commit_snapshot`. -/
  final_iff_advanced : ∀ i, (s.stages i).final = true ↔
    advancesBy i s.world.replies = [(s.world.anchors i).commitSnapshot]
  /-- Until that call `commit_snapshot` is the default; -/
  default_until_advanced : ∀ i,
    advancesBy i s.world.replies = [] → (s.world.anchors i).commitSnapshot = default
  /-- afterwards it is above the `preliminary_snapshot` and the default. -/
  commit_gt : ∀ i, (s.stages i).final = true →
    (s.world.anchors i).preliminarySnapshot < (s.world.anchors i).commitSnapshot ∧
      default < (s.world.anchors i).commitSnapshot
  /-- `Rubicon::commit` returns the `commit_snapshot`, never the default. -/
  commit_returns : ∀ i c, s.stages i = .committed c →
    c = (s.world.anchors i).commitSnapshot ∧ c ≠ default
  /-- A transaction rolled back stays so, with the default `commit_snapshot`, whatever runs next. -/
  rolled_back_forever : ∀ i, s.stages i = .rolledBack →
    ∀ s', Relation.ReflTransGen (System.Step sq) s s' →
      s'.stages i = .rolledBack ∧ (s'.world.anchors i).commitSnapshot = default
  /-- Finalised transactions have distinct `commit_snapshot`s, -/
  commit_ne : ∀ i j, i ≠ j → (s.stages i).final = true → (s.stages j).final = true →
    (s.world.anchors i).commitSnapshot ≠ (s.world.anchors j).commitSnapshot
  /-- they are the transactions `advance` was called for, -/
  final_iff_mem : ∀ i, (s.stages i).final = true ↔ i ∈ finalizedOrder s.world.replies
  /-- and their `commit_snapshot`s increase in the order they were finalised. -/
  finalized_increasing :
    ((finalizedOrder s.world.replies).map fun i => (s.world.anchors i).commitSnapshot).Pairwise
      (· < ·)

/-- Any interleaving of commits, rollbacks and drops of transactions on one sequencer, with other
callers in between, keeps the commit fence, provided the sequencer keeps its contract. -/
theorem commit_fence {s : System α C} (hs : s.Reachable sq) (hc : Contract s.world.replies) :
    CommitFence sq s := by
  have hinv := hs.inv
  have hmem : ∀ i c, .advance (some i) c ∈ s.world.replies ↔
      (s.stages i).final = true ∧ (s.world.anchors i).commitSnapshot = c :=
    fun _ _ => hinv.advance_mem_iff
  refine ⟨fun i => ?_, fun i => ?_, fun i h => ?_,
    fun i hf => hc.lt_of_callsBy ((hinv i).calls_of_final hf), fun i c hst => ?_,
    fun i hst s' hrun => hs.rolledBack_of_run sq hrun hst,
    fun i j hij hi hj => hc.advance_ne (by simpa using hij) ((hmem i _).2 ⟨hi, rfl⟩)
      ((hmem j _).2 ⟨hj, rfl⟩),
    fun i => ?_, hc.finalized_increasing _ fun i c h => ((hmem i c).1 h).2⟩
  · rw [hinv.advancesBy i]; split <;> simp
  · rw [hinv.advancesBy i]; cases (s.stages i).final <;> simp
  · cases hf : (s.stages i).final
    · exact (hinv i).commit_default hf
    · simp [hinv.advancesBy i, hf] at h
  · have hi := hinv i
    rw [hst] at hi
    obtain ⟨rfl, hh⟩ := hi
    exact ⟨rfl, (hc.lt_of_callsBy hh).2.ne'⟩
  · rw [mem_finalizedOrder_iff]
    exact ⟨fun hf => ⟨_, (hmem i _).2 ⟨hf, rfl⟩⟩, fun ⟨c, h⟩ => ((hmem i c).1 h).1⟩

/-- Transaction `0` on an atomic counter, after `commit` and `Rubicon::commit`. -/
def committedOnce : System Unit Nat :=
  (System.init.set 0 ⟨[.get (some 0) 0], Function.update (fun _ => Anchor.new) 0 ⟨0, 0⟩, []⟩
      (.fenced ⟨some .new⟩)).set 0
    ⟨[.advance (some 0) 1, .get (some 0) 0],
      Function.update (Function.update (fun _ => Anchor.new) 0 ⟨0, 0⟩) 0 ⟨0, 1⟩, []⟩
    (.committed 1)

theorem committedOnce_reachable : committedOnce.Reachable atomicCounter :=
  .head (.commit _ 0 .new _ _ rfl rfl) (.head (.rubiconCommit _ 0 _ rfl) .refl)

/-- Transaction `1` calls `commit` after transaction `0` has committed. -/
def secondCommits : System Unit Nat :=
  committedOnce.set 1
    { committedOnce.world with
      replies := .get (some 1) 1 :: committedOnce.world.replies
      anchors := Function.update committedOnce.world.anchors 1 ⟨1, 0⟩ }
    (.fenced ⟨some .new⟩)

/-- Transactions `0` and `1`, one after the other, after `commit` and `Rubicon::commit`. -/
def committedTwice : System Unit Nat :=
  secondCommits.set 1
    { secondCommits.world with
      replies := .advance (some 1) 2 :: secondCommits.world.replies
      anchors := Function.update secondCommits.world.anchors 1 ⟨1, 2⟩ }
    (.committed 2)

theorem committedTwice_reachable : committedTwice.Reachable atomicCounter :=
  have hcommit : System.Step atomicCounter committedOnce secondCommits :=
    .commit _ 1 .new _ _ rfl rfl
  have hfinal : System.Step atomicCounter secondCommits committedTwice :=
    .rubiconCommit _ 1 ⟨some .new⟩ rfl
  Relation.ReflTransGen.tail (Relation.ReflTransGen.tail committedOnce_reachable hcommit) hfinal

theorem committedTwice_contract : Contract committedTwice.world.replies := by
  simp [committedTwice, secondCommits, committedOnce, Contract, SeqCall.clock]

theorem commit_fence_committed_twice :
    committedTwice.Reachable atomicCounter ∧ Contract committedTwice.world.replies ∧
      CommitFence atomicCounter committedTwice :=
  ⟨committedTwice_reachable, committedTwice_contract,
    commit_fence atomicCounter committedTwice_reachable committedTwice_contract⟩

end Fence

end Tss
