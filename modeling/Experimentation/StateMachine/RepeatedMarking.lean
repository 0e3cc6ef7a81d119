import Experimentation.Semantics.Saturation
import Experimentation.StateMachine.NullTargets

/-!
# Marking until nothing changes

One call of `fsm_mark_reachable_states` may miss states, but a client may call it again.  After as
many calls as the iterator yields states, whatever machine was built, everything is flagged to which
a path of yielded transitions leads from a flagged state, and nothing else; unless a state on such a
path yields an event without a target, which one of the calls then dereferences.
-/

namespace Experimentation.StateMachine

open Relation Semantics HashTable

variable {A D : Type}

/-- Some calls of `fsm_mark_reachable_states`, one after the other. -/
def markRepeatedly : ℕ → World A D → Exec (World A D)
  | 0, w => return w
  | n + 1, w => do
      let w ← markRepeatedly n w
      fsmMarkReachableStates w

/-- The iterators yield a transition from the first state to the second one. -/
def World.LeadsYielded (w : World A D) (s t : StateId) : Prop :=
  s ∈ w.sweepOrder ∧ t ∈ targetsOf w.states s

/-- The states to which yielded transitions lead from flagged ones. -/
def World.ReachedFromFlagged (w : World A D) (t : StateId) : Prop :=
  ∃ s, IsFlagged w.states s ∧ ReflTransGen w.LeadsYielded s t

/-- No yielded state to which yielded transitions lead from a flagged one yields an event without a
target. -/
def World.ReachesTargets (w : World A D) : Prop :=
  ∀ s ∈ w.sweepOrder, w.ReachedFromFlagged s → ¬ YieldsNull w.states s

variable {w : World A D}

theorem mem_closure_flagged_iff {t : StateId} :
    t ∈ Sweep.closure (targetsOf w.states) (flagged w.states) w.sweepOrder ↔
      w.ReachedFromFlagged t :=
  Iff.rfl

theorem Accessible.mark_sweep (h : Accessible w) (hentries : w.EntriesLoad) :
    (SweepsTargets w.states (flagged w.states) w.sweepOrder ∧ ∃ mem, SameButFlags w.states mem ∧
      flagged mem = Sweep.sweep (targetsOf w.states) (flagged w.states) w.sweepOrder ∧
      fsmMarkReachableStates w = .ok { w with states := mem }) ∨
    (¬ SweepsTargets w.states (flagged w.states) w.sweepOrder ∧
      fsmMarkReachableStates w = .error .badPointer) := by
  have hloop : fsmMarkReachableStates w = (yielded w.fsm.sttable.htTable).foldlM
      (fun w n ↦ markState w ⟨0, [n]⟩) w :=
    forEachElm_eq h.sttable.length h.sttable.pos (fun _ _ _ _ ↦ rfl) w
  have hloads : ∀ n ∈ yielded w.fsm.sttable.htTable, EntryLoads w.states n := fun n hn ↦
    h.entryLoads hentries ((yielded_sublist _).subset hn)
  have htargets : ∀ s ∈ w.sweepOrder, ∀ t ∈ targetsOf w.states s, w.states t ≠ none := by
    intro s hs t ht
    obtain ⟨n, hn, hdata⟩ := List.mem_filterMap.1 hs
    obtain ⟨s', st, rfl, hst, _, hevents⟩ := hloads n hn
    cases hdata
    rw [targetsOf, hst] at ht
    obtain ⟨e, he, htarget⟩ := List.mem_filterMap.1 ht
    exact hevents e ((yielded_sublist _).subset he) t htarget
  rw [hloop]
  rcases foldlM_markState hloads with ⟨hsafe, hrun⟩ | ⟨hnot, hrun⟩
  · exact .inl ⟨hsafe, _, sameButFlags_sweep w.states _, flagged_sweep htargets, hrun⟩
  · exact .inr ⟨hnot, hrun⟩

theorem SweepsTargets.congr {mem mem' : StateMem A} {marks : Set StateId} {order : List StateId}
    (hsame : SameButFlags mem mem') :
    SweepsTargets mem' marks order ↔ SweepsTargets mem marks order := by
  have htargets : targetsOf mem' = targetsOf mem := funext fun s ↦ hsame.targetsOf_eq s
  rw [SweepsTargets, SweepsTargets, htargets]
  refine forall₄_congr fun _ s _ _ ↦ ?_
  rw [yieldsNull_congr hsame]

/-- No event without a target is met in some sweeps. -/
def World.SweepsTargetsUpTo (w : World A D) (n : ℕ) : Prop :=
  ∀ k < n, SweepsTargets w.states
    (Sweep.sweeps (targetsOf w.states) (flagged w.states) w.sweepOrder k) w.sweepOrder

theorem World.sweepsTargetsUpTo_succ {n : ℕ} :
    w.SweepsTargetsUpTo (n + 1) ↔ w.SweepsTargetsUpTo n ∧ SweepsTargets w.states
      (Sweep.sweeps (targetsOf w.states) (flagged w.states) w.sweepOrder n) w.sweepOrder :=
  Nat.forall_lt_succ_right

theorem Accessible.markRepeatedly_sweeps (h : Accessible w) (hentries : w.EntriesLoad) (n : ℕ) :
    (w.SweepsTargetsUpTo n ∧ ∃ mem, SameButFlags w.states mem ∧
      flagged mem = Sweep.sweeps (targetsOf w.states) (flagged w.states) w.sweepOrder n ∧
      markRepeatedly n w = .ok { w with states := mem }) ∨
    (¬ w.SweepsTargetsUpTo n ∧ markRepeatedly n w = .error .badPointer) := by
  induction n with
  | zero => exact .inl ⟨fun k hk ↦ absurd hk (Nat.not_lt_zero k), w.states, .refl _, rfl, rfl⟩
  | succ n ih =>
      rw [World.sweepsTargetsUpTo_succ, markRepeatedly]
      rcases ih with ⟨hsafe, mem, hsame, hflags, hrun⟩ | ⟨hnot, hrun⟩
      · have haccess : Accessible { w with states := mem } :=
          h.of_same hsame rfl fun s hs hnone ↦ h.cstate s hs (hsame.none_iff.1 hnone)
        have hload : World.EntriesLoad { w with states := mem } :=
          hentries.keep rfl fun s hs hnone ↦ hs (hsame.none_iff.1 hnone)
        have htargets : targetsOf mem = targetsOf w.states := funext fun s ↦ hsame.targetsOf_eq s
        have hsweep := haccess.mark_sweep hload
        dsimp only at hsweep
        rw [SweepsTargets.congr hsame, hflags, htargets] at hsweep
        rw [hrun, Exec.ok_bind]
        rcases hsweep with ⟨hstep, mem', hsame', hflags', hmark⟩ | ⟨hstep, hmark⟩
        · exact .inl ⟨⟨hsafe, hstep⟩, mem', hsame.trans hsame', hflags', hmark⟩
        · exact .inr ⟨fun hand ↦ hstep hand.2, hmark⟩
      · rw [hrun]
        exact .inr ⟨fun hand ↦ hnot hand.1, rfl⟩

/-- In as many sweeps as there are yielded states, events without a target are met just when there
are any at the states that can be reached. -/
theorem World.sweepsTargetsUpTo_iff {n : ℕ} (hn : w.sweepOrder.length ≤ n) :
    w.SweepsTargetsUpTo n ↔ w.ReachesTargets := by
  constructor
  · intro hsafe s hs hreached hnull
    obtain ⟨before, after, hsplit⟩ := List.append_of_mem hs
    have hpos : 0 < n := (List.length_pos_of_mem hs).trans_le hn
    -- the state is marked before the last sweep comes to it
    have hmarked := Sweep.mem_sweeps_of_mem_order (k := n - 1) (by omega) hs hreached
    exact hsafe (n - 1) (by omega) before s after hsplit hnull (Sweep.subset_sweep hmarked)
  · intro htargets k _ before s after hsplit hnull hmarked
    have hs : s ∈ w.sweepOrder := hsplit ▸ List.mem_append_right before List.mem_cons_self
    refine htargets s hs (mem_closure_flagged_iff.1 ?_) hnull
    apply Sweep.sweep_subset (Sweep.sweeps_subset_closure k) _ hmarked
    intro v t hv ht
    apply Sweep.closure_closed hv
    exact ⟨hsplit ▸ List.mem_append_left _ ht.1, ht.2⟩

/-! ## Iterators that lose nothing -/

/-- The last chains of the table of states and of the tables of events have one node at most, so
that the iterators yield everything. -/
structure World.YieldsAll (w : World A D) : Prop where
  states : w.fsm.sttable.lastChain.length ≤ 1
  events : ∀ s ∈ w.registered, ∀ st, w.states s = some st → st.evttable.lastChain.length ≤ 1

/-- There is a transition from a registered state to another state. -/
def World.LeadsRegistered (w : World A D) (s t : StateId) : Prop := s ∈ w.registered ∧ w.Leads s t

theorem yielded_eq_flatten {K E : Type} {t : HTable K E} (h : t.Indexed)
    (hlast : t.lastChain.length ≤ 1) : yielded t.htTable = t.htTable.flatten := by
  apply (yielded_sublist t.htTable).eq_of_length
  rwa [length_yielded_iff h.htTable_ne_nil, ← h.lastChain_eq]

theorem Accessible.leadsYielded_eq (h : Accessible w) (hall : w.YieldsAll) :
    w.LeadsYielded = w.LeadsRegistered := by
  have horder : w.sweepOrder = w.registered := by
    rw [World.sweepOrder, yielded_eq_flatten h.sttable.toIndexed hall.states, World.registered]
  funext s t
  apply propext
  rw [World.LeadsYielded, World.LeadsRegistered, horder]
  refine and_congr_right fun hs ↦ ?_
  unfold targetsOf World.Leads
  cases hst : w.states s with
  | none => simp
  | some st =>
      dsimp only
      rw [yielded_eq_flatten (h.evttable s st hst).toIndexed (hall.events s hs st hst),
        List.mem_filterMap]
      simp

/-! ## Enough calls -/

/-- As many calls as there are yielded states flag what can be reached from the flagged states, or
meet an event without a target there. -/
theorem Accessible.markRepeatedly_cases (h : Accessible w) (hentries : w.EntriesLoad) {n : ℕ}
    (hn : w.sweepOrder.length ≤ n) :
    (w.ReachesTargets ∧ ∃ w', markRepeatedly n w = .ok w' ∧ w.SameUpToFlags w' ∧
      ∀ t, IsFlagged w'.states t ↔ w.ReachedFromFlagged t) ∨
    (¬ w.ReachesTargets ∧ markRepeatedly n w = .error .badPointer) := by
  have hcases := h.markRepeatedly_sweeps hentries n
  rw [World.sweepsTargetsUpTo_iff hn, Sweep.sweeps_eq_closure hn] at hcases
  rcases hcases with ⟨htargets, mem, hsame, hflags, hrun⟩ | hnot
  · refine .inl ⟨htargets, _, hrun, ⟨hsame, rfl, rfl⟩, fun t ↦ ?_⟩
    rw [← mem_closure_flagged_iff, ← hflags]
    rfl
  · exact .inr hnot

/-- In every machine that was built, as many calls as the iterator yields states return just when no
event without a target is yielded for a state that can be reached.  They then flag what yielded
transitions lead to from the flagged states, which is all that any transitions of registered states
lead to if the iterators lose nothing.  Nothing else changes. -/
theorem markRepeatedly_saturates (h : Built w) {n : ℕ} (hn : w.sweepOrder.length ≤ n) :
    ((∃ w', markRepeatedly n w = .ok w') ↔ w.ReachesTargets) ∧
      ∀ w', markRepeatedly n w = .ok w' → w.SameUpToFlags w' ∧
        (∀ t, IsFlagged w'.states t ↔ w.ReachedFromFlagged t) ∧
        (w.YieldsAll → ∀ t, IsFlagged w'.states t ↔
          ∃ s, IsFlagged w.states s ∧ ReflTransGen w.LeadsRegistered s t) := by
  rcases h.accessible.markRepeatedly_cases h.entriesLoad hn with
    ⟨htargets, w', hrun, hsame, hflags⟩ | ⟨hnot, hrun⟩
  · refine ⟨iff_of_true ⟨w', hrun⟩ htargets, fun w'' hrun' ↦ ?_⟩
    cases hrun.symm.trans hrun'
    refine ⟨hsame, hflags, fun hall t ↦ ?_⟩
    rw [hflags, World.ReachedFromFlagged, h.accessible.leadsYielded_eq hall]
  · rw [hrun]
    refine ⟨iff_of_false ?_ hnot, ?_⟩
    · intro hex
      obtain ⟨_, heq⟩ := hex
      cases heq
    · intro _ heq
      cases heq

/-- The chain of states whose keys descend, with its first state set. -/
def descendingWorld : World ℕ ℕ :=
  match performAll (start ℕ chainFsm) (chainCalls 3 2 1 ++ [.setState 3]) with
  | .ok (_, w) => w
  | .error _ => start ℕ chainFsm

theorem descendingWorld_built : Built descendingWorld := by
  have hinit : fsmInit ⟨true, true, true, true, true⟩ 4 1 1 = .ok (.ok, some chainFsm) := rfl
  have hsize : 0 < 4 := by decide
  have hhead : 0 < 1 := by decide
  have hstart : Built (start ℕ chainFsm) := .init hsize hinit
  have hfirst := hstart.call (c := .stateInit ⟨some 0, true, true, true⟩ 0 0 1 1) hhead rfl
  have hsecond := hfirst.call (c := .stateInit ⟨some 1, true, true, true⟩ 0 0 1 1) hhead rfl
  have hthird := hsecond.call (c := .stateInit ⟨some 2, true, true, true⟩ 0 0 1 1) hhead rfl
  have hedge := hthird.call (c := .stateAddEvt ⟨true, true, ⟨true, true⟩⟩ 0 0 [] none (some 1))
    (fun t ht ↦ by cases ht; exact Option.some_ne_none _) rfl
  have hedges := hedge.call (c := .stateAddEvt ⟨true, true, ⟨true, true⟩⟩ 1 0 [] none (some 2))
    (fun t ht ↦ by cases ht; exact Option.some_ne_none _) rfl
  have hadd := hedges.call (c := .addState ⟨true, true⟩ 3 0) trivial rfl
  have hadds := hadd.call (c := .addState ⟨true, true⟩ 2 1) trivial rfl
  have hall := hadds.call (c := .addState ⟨true, true⟩ 1 2) trivial rfl
  exact hall.call (c := .setState 3) trivial rfl

/-- The call within `fsm_set_state` misses the last state of the chain, but three more find it. -/
theorem descendingWorld_saturates : ¬ IsFlagged descendingWorld.states 2 ∧
    ∃ w', markRepeatedly 3 descendingWorld = .ok w' ∧ IsFlagged w'.states 2 ∧
      ∀ t, IsFlagged w'.states t ↔ descendingWorld.ReachedFromFlagged t := by
  have hspec := markRepeatedly_saturates descendingWorld_built (n := 3) (by decide)
  exact ⟨by decide, _, rfl, by decide, (hspec.2 _ rfl).2.1⟩

end Experimentation.StateMachine
