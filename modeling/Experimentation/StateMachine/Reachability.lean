import Mathlib.Logic.Relation
import Experimentation.HashTable.Nodes
import Experimentation.StateMachine.Memory
import Experimentation.StateMachine.Simulation

/-!
# Which states the marking finds

`fsm_set_state` flags a state and then makes one sweep over the table of states.  A state that can
be reached from the flagged one is found just when it can be reached along transitions that the
iterators yield, through states whose turns come in the order of the path.  For a path that goes
against the order of the table one sweep is not enough.
-/

namespace Experimentation.StateMachine

open Semantics HashTable

variable {A D : Type}

/-! ## Machines made of fresh states -/

/-- The states that are registered, in the order of the table. -/
def World.registered (w : World A D) : List StateId :=
  w.fsm.sttable.htTable.flatten.filterMap HNode.hnData

/-- The node has a registered state under the key of that state; the state is fresh, and its events
lead to registered states. -/
def World.FreshNode (w : World A D) (n : HNode KeyRef StateId) : Prop :=
  ∃ s ∈ n.hnData, n.hnKey = .stKey s ∧ ∃ st ∈ w.states s, st.isReachable = false ∧
    st.evttable.Indexed ∧
    ∀ e ∈ st.evttable.htTable.flatten, ∃ t ∈ eventTarget e, t ∈ w.registered

instance (w : World A D) (n : HNode KeyRef StateId) : Decidable (w.FreshNode n) :=
  inferInstanceAs (Decidable (∃ s ∈ n.hnData, n.hnKey = .stKey s ∧ ∃ st ∈ w.states s,
    st.isReachable = false ∧ st.evttable.Indexed ∧
    ∀ e ∈ st.evttable.htTable.flatten, ∃ t ∈ eventTarget e, t ∈ w.registered))

/-- A machine made of fresh states, all of whose transitions lead to registered states. -/
structure World.Fresh (w : World A D) : Prop where
  indexed : w.fsm.sttable.Indexed
  nodes : ∀ n ∈ w.fsm.sttable.htTable.flatten, w.FreshNode n
  keys : ∀ s ∈ w.registered, ∀ s' ∈ w.registered,
    readKey w.states (.stKey s) = readKey w.states (.stKey s') → s = s'

instance (w : World A D) : Decidable w.Fresh :=
  decidable_of_iff (w.fsm.sttable.Indexed ∧
      (∀ n ∈ w.fsm.sttable.htTable.flatten, w.FreshNode n) ∧
      ∀ s ∈ w.registered, ∀ s' ∈ w.registered,
        readKey w.states (.stKey s) = readKey w.states (.stKey s') → s = s')
    ⟨fun h ↦ ⟨h.1, h.2.1, h.2.2⟩, fun h ↦ ⟨h.indexed, h.nodes, h.keys⟩⟩

/-- There is a transition from `s` to `t`. -/
def World.Leads (w : World A D) (s t : StateId) : Prop :=
  ∃ st ∈ w.states s, ∃ e ∈ st.evttable.htTable.flatten, eventTarget e = some t

instance (w : World A D) (s t : StateId) : Decidable (w.Leads s t) :=
  inferInstanceAs (Decidable (∃ st ∈ w.states s, ∃ e ∈ st.evttable.htTable.flatten,
    eventTarget e = some t))

/-- The registered state with a key. -/
def World.HasKey (w : World A D) (key : UInt32) (s : StateId) : Prop :=
  s ∈ w.registered ∧ readKey w.states (.stKey s) = key

instance (w : World A D) (key : UInt32) (s : StateId) : Decidable (w.HasKey key s) :=
  inferInstanceAs (Decidable (_ ∧ _))

/-- Every registered state to which a path leads from the state with the key is flagged in `w'`. -/
def MarkingComplete (w : World A D) (key : UInt32) (w' : World A D) : Prop :=
  ∀ s, w.HasKey key s → ∀ t ∈ w.registered, Relation.ReflTransGen w.Leads s t →
    IsFlagged w'.states t

/-- Every registered state to which a path leads from the state with the key is the end of a path
whose transitions are yielded by the iterators of the events, and whose states before the end are
yielded by the iterator of the states in the order of the path. -/
def World.OneSweepSuffices (w : World A D) (key : UInt32) : Prop :=
  ∀ s, w.HasKey key s → ∀ t ∈ w.registered, Relation.ReflTransGen w.Leads s t →
    Sweep.Ascends (targetsOf w.states) {s} w.sweepOrder t

theorem World.sweepOrder_sublist (w : World A D) : w.sweepOrder.Sublist w.registered :=
  (yielded_sublist w.fsm.sttable.htTable).filterMap HNode.hnData

theorem World.sweepOrder_subset {w : World A D} {s : StateId} (hs : s ∈ w.sweepOrder) :
    s ∈ w.registered := w.sweepOrder_sublist.subset hs

namespace World.Fresh

variable {w : World A D} (h : w.Fresh)
include h

theorem node_of_registered {s : StateId} (hs : s ∈ w.registered) :
    ∃ n ∈ w.fsm.sttable.htTable.flatten, n.hnData = some s ∧ w.FreshNode n := by
  obtain ⟨n, hn, hdata⟩ := List.mem_filterMap.1 hs
  exact ⟨n, hn, hdata, h.nodes n hn⟩

/-- Registered states are in memory, unflagged, and their targets are registered. -/
theorem exists_state {s : StateId} (hs : s ∈ w.registered) :
    ∃ st, w.states s = some st ∧ st.isReachable = false ∧ st.evttable.Indexed ∧
      ∀ e ∈ st.evttable.htTable.flatten, ∃ t, eventTarget e = some t ∧ t ∈ w.registered := by
  obtain ⟨n, _, hdata, s', hs', _, st, hst, hfresh, hindexed, htargets⟩ :=
    h.node_of_registered hs
  have heq : s' = s := Option.some.inj (hs'.symm.trans hdata)
  subst heq
  exact ⟨st, hst, hfresh, hindexed, htargets⟩

theorem ne_none {s : StateId} (hs : s ∈ w.registered) : w.states s ≠ none := by
  obtain ⟨st, hst, _⟩ := h.exists_state hs
  rw [hst]
  exact Option.some_ne_none st

theorem not_isFlagged {s : StateId} (hs : s ∈ w.registered) : ¬ IsFlagged w.states s := by
  obtain ⟨st, hst, hfresh, _⟩ := h.exists_state hs
  rw [isFlagged_iff hst, hfresh]
  exact Bool.false_ne_true

theorem entryOk {n : HNode KeyRef StateId} (hn : n ∈ w.fsm.sttable.htTable.flatten) :
    EntryOk w.states n := by
  obtain ⟨s, hdata, _, st, hst, _, hindexed, htargets⟩ := h.nodes n hn
  refine ⟨s, st, hdata, hst, hindexed, fun e he ↦ ?_⟩
  obtain ⟨t, htarget, ht⟩ := htargets e he
  exact ⟨t, htarget, h.ne_none ht⟩

theorem target_registered {s t : StateId} (hs : s ∈ w.registered)
    (ht : t ∈ targetsOf w.states s) : t ∈ w.registered := by
  obtain ⟨st, hst, _, _, htargets⟩ := h.exists_state hs
  rw [targetsOf, hst] at ht
  obtain ⟨e, he, htarget⟩ := List.mem_filterMap.1 ht
  obtain ⟨t', htarget', ht'⟩ := htargets e ((yielded_sublist _).subset he)
  rw [htarget, Option.some.injEq] at htarget'
  exact htarget' ▸ ht'

theorem hasKey_of_search {key : UInt32} {s : StateId}
    (hsearch : htableSearch (fsmCallbacks w.states) w.fsm.sttable (.caller key) = .ok (some s)) :
    w.HasKey key s := by
  obtain ⟨n, hn, hsame, hdata⟩ := hasNode_of_htableSearch hsearch
  obtain ⟨s', hs', hkey, _⟩ := h.nodes n hn
  have heq : s' = s := Option.some.inj (hs'.symm.trans hdata)
  have hread := uintCmpf_eq_zero_iff.1 (sameKey_iff.1 hsame)
  rw [hkey, heq] at hread
  exact ⟨List.mem_filterMap.2 ⟨n, hn, hdata⟩, hread⟩

theorem hasKey_unique {key : UInt32} {s s' : StateId} (hs : w.HasKey key s)
    (hs' : w.HasKey key s') : s = s' :=
  h.keys s hs.1 s' hs'.1 (hs.2.trans hs'.2.symm)

theorem states_of_fsmSetState {key : UInt32} {w' : World A D}
    (hset : fsmSetState w key = .ok (.ok, w')) : ∃ s, w.HasKey key s ∧
      w'.states = w.sweepOrder.foldl sweepState (flagState w.states s) := by
  obtain ⟨pstate, hsearch, hset⟩ := Exec.bind_eq_ok.1 hset
  cases pstate with
  | none => cases hset
  | some s =>
      have hkey := h.hasKey_of_search hsearch
      obtain ⟨st, hst, _⟩ := h.exists_state hkey.1
      have hsame : SameButFlags w.states (flagState w.states s) := .flagState w.states s
      have hmark : fsmMarkReachableStates { w with states := flagState w.states s } = _ :=
        fsmMarkReachableStates_eq h.indexed fun n hn ↦ (h.entryOk hn).of_same hsame
      dsimp only at hset
      rw [loadState_eq hst, Exec.ok_bind, storeState_markAsReachable hst, hmark] at hset
      cases hset
      exact ⟨s, hkey, rfl⟩

theorem isFlagged_iff_ascends {s t : StateId} (hs : s ∈ w.registered) (ht : t ∈ w.registered) :
    IsFlagged (w.sweepOrder.foldl sweepState (flagState w.states s)) t ↔
      Sweep.Ascends (targetsOf w.states) {s} w.sweepOrder t := by
  have hsame : SameButFlags w.states (flagState w.states s) := .flagState w.states s
  have htargets : targetsOf (flagState w.states s) = targetsOf w.states :=
    funext fun v ↦ hsame.targetsOf_eq v
  have hsweep : flagged (w.sweepOrder.foldl sweepState (flagState w.states s)) =
      Sweep.sweep (targetsOf w.states) (flagged (flagState w.states s)) w.sweepOrder := by
    rw [flagged_sweep, htargets]
    intro v hv t' ht' hnone
    rw [htargets] at ht'
    exact h.ne_none (h.target_registered (World.sweepOrder_subset hv) ht') (hsame.none_iff.1 hnone)
  -- the state that was set is the only flagged one before the sweep
  have hmarks : ∀ v ∈ w.registered, v ∈ flagged (flagState w.states s) ↔ v ∈ ({s} : Set StateId) :=
    fun v hv ↦ (isFlagged_flagState (h.ne_none hs)).trans
      ⟨fun hor ↦ hor.resolve_left (h.not_isFlagged hv), .inr⟩
  have hreg : ∀ v, v ∈ w.sweepOrder ∨ v = t → v ∈ w.registered := fun v hv ↦
    hv.elim World.sweepOrder_subset fun heq ↦ heq ▸ ht
  change t ∈ flagged _ ↔ _
  rw [hsweep, Sweep.mem_sweep_iff]
  exact ⟨fun hpath ↦ hpath.congr fun v hv ↦ (hmarks v (hreg v hv)).1,
    fun hpath ↦ hpath.congr fun v hv ↦ (hmarks v (hreg v hv)).2⟩

end World.Fresh

/-- The marking is complete just when one sweep suffices. -/
theorem markingComplete_iff {w w' : World A D} (h : w.Fresh) {key : UInt32}
    (hset : fsmSetState w key = .ok (.ok, w')) :
    MarkingComplete w key w' ↔ w.OneSweepSuffices key := by
  obtain ⟨s, hkey, hstates⟩ := h.states_of_fsmSetState hset
  unfold MarkingComplete World.OneSweepSuffices
  rw [hstates]
  constructor
  · intro hcomplete s' hkey' t ht hpath
    have hflag := hcomplete s' hkey' t ht hpath
    rw [h.hasKey_unique hkey' hkey]
    exact (h.isFlagged_iff_ascends hkey.1 ht).1 hflag
  · intro hsuffices s' hkey' t ht hpath
    have hascends := hsuffices s' hkey' t ht hpath
    rw [h.hasKey_unique hkey' hkey] at hascends
    exact (h.isFlagged_iff_ascends hkey.1 ht).2 hascends

/-! ## Machines that were built and not yet set -/

def Unflagged (mem : StateMem A) : Prop := ∀ s, ¬ IsFlagged mem s

theorem Unflagged.storeState {mem : StateMem A} (h : Unflagged mem) {s : StateId}
    {st : StateObj A} (hst : st.isReachable = false) :
    Unflagged (StateMachine.storeState mem s st) := by
  intro s'
  by_cases heq : s' = s
  · rw [heq, isFlagged_iff (storeState_self ..), hst]
    exact Bool.false_ne_true
  · rw [IsFlagged, storeState_of_ne _ _ heq]
    exact h s'

/-- An object in unflagged memory. -/
theorem Unflagged.isReachable {mem : StateMem A} (h : Unflagged mem) {s : StateId}
    {st : StateObj A} (hst : mem s = some st) : st.isReachable = false :=
  Bool.eq_false_iff.2 fun hflag ↦ h s ((isFlagged_iff hst).2 hflag)

/-- Only `fsm_set_state` sets flags. -/
theorem Unflagged.perform {w w' : World A D} (h : Unflagged w.states) {c : Call A D} {r : Ret}
    (hc : ∀ key, c ≠ .setState key) (hrun : perform w c = .ok (r, w')) : Unflagged w'.states := by
  cases effect_of_perform hrun with
  | nothing => exact h
  | stateInit s hfits => exact h.storeState (StateObj.isReachable_markAsUnreachable _)
  | stateAddEvt hst hinsert =>
      have hclear := h.isReachable hst
      exact h.storeState hclear
  | stateRemEvt hst hfree =>
      have hclear := h.isReachable hst
      exact h.storeState hclear
  | addState hst hinsert =>
      have hclear := h.isReachable hst
      exact h.storeState hclear
  | setState hs hsame => exact absurd rfl (hc _)
  | processEvent trace hcstate => exact h

theorem Unflagged.performAll {w w' : World A D} (h : Unflagged w.states)
    {calls : List (Call A D)} {rets : List Ret} (hc : ∀ key, .setState key ∉ calls)
    (hrun : performAll w calls = .ok (rets, w')) : Unflagged w'.states := by
  induction calls generalizing w rets with
  | nil =>
      cases hrun
      exact h
  | cons c calls ih =>
      obtain ⟨⟨r, w₁⟩, hstep, hrun⟩ := Exec.bind_eq_ok.1 hrun
      obtain ⟨⟨rs, w₂⟩, hrest, hrun⟩ := Exec.bind_eq_ok.1 hrun
      cases hrun
      have hw₁ := h.perform (fun key heq ↦ hc key (heq ▸ List.mem_cons_self)) hstep
      exact ih hw₁ (fun key hmem ↦ hc key (List.mem_cons_of_mem _ hmem)) hrest

namespace Simulates

variable {w : World A D} {a : Automaton A} {s t : StateId} (h : Simulates w a)
include h

theorem mem_registered_iff :
    s ∈ w.registered ↔ ∃ key, a.stateOf key = some s := by
  obtain ⟨es, hholds, hreg⟩ := h.states
  rw [World.registered, List.mem_filterMap]
  constructor
  · intro hs
    obtain ⟨n, hn, hdata⟩ := hs
    obtain ⟨s', st, rfl, _, hkey⟩ := hreg.entry n (hholds.flatten_perm.mem_iff.1 hn)
    cases hdata
    exact ⟨_, hkey⟩
  · intro hs
    obtain ⟨key, hkey⟩ := hs
    exact ⟨_, hholds.flatten_perm.mem_iff.2 (hreg.found key s hkey).1, rfl⟩

theorem leads_iff (hs : s ∈ w.registered) :
    w.Leads s t ↔ ∃ e tr, a.events s e = some tr ∧ tr.target = some t := by
  obtain ⟨key, hkey⟩ := h.mem_registered_iff.1 hs
  obtain ⟨st, hst, _⟩ := h.registered hkey
  obtain ⟨evs, hholds, hhandles⟩ := h.events s st hst
  constructor
  · intro hleads
    obtain ⟨st', hst', e, he, htarget⟩ := hleads
    have heq : st = st' := Option.some.inj (hst.symm.trans hst')
    subst heq
    obtain ⟨ev, hdata, htr⟩ := hhandles.entry e (hholds.flatten_perm.mem_iff.1 he)
    exact ⟨e.hnKey, ev.transition, htr, (eventTarget_eq hdata).symm.trans htarget⟩
  · intro htransition
    obtain ⟨e, tr, htr, htarget⟩ := htransition
    obtain ⟨n, hn, hsame⟩ := hhandles.found e fun hnone ↦ by
      rw [hnone] at htr
      cases htr
    obtain ⟨ev, hdata, hev⟩ := hhandles.entry n hn
    rw [hsame, htr, Option.some.injEq] at hev
    refine ⟨st, hst, n, hholds.flatten_perm.mem_iff.2 hn, ?_⟩
    rw [eventTarget, hdata, ← htarget, hev]
    rfl

/-- A machine that simulates an automaton is made of fresh states when nothing is flagged. -/
theorem fresh (htargets : a.TargetsRegistered) (hflags : Unflagged w.states) : w.Fresh where
  indexed := h.sttable_indexed
  nodes n hn := by
    obtain ⟨es, hholds, hreg⟩ := h.states
    obtain ⟨s, st, rfl, hst, hkey⟩ := hreg.entry n (hholds.flatten_perm.mem_iff.1 hn)
    obtain ⟨evs, hevholds, hhandles⟩ := h.events s st hst
    refine ⟨s, rfl, rfl, st, hst, hflags.isReachable hst, hevholds.indexed, fun e he ↦ ?_⟩
    obtain ⟨ev, hdata, htr⟩ := hhandles.entry e (hevholds.flatten_perm.mem_iff.1 he)
    obtain ⟨t, key', htarget, hkey'⟩ := htargets _ s hkey e.hnKey _ htr
    exact ⟨t, (eventTarget_eq hdata).trans htarget, h.mem_registered_iff.2 ⟨key', hkey'⟩⟩
  keys s hs s' hs' heq := by
    obtain ⟨key, hkey⟩ := h.mem_registered_iff.1 hs
    obtain ⟨key', hkey'⟩ := h.mem_registered_iff.1 hs'
    obtain ⟨st, hst, hsame⟩ := h.registered hkey
    obtain ⟨st', hst', hsame'⟩ := h.registered hkey'
    rw [readKey_stKey hst, readKey_stKey hst', hsame, hsame'] at heq
    rw [heq, hkey', Option.some.injEq] at hkey
    exact hkey.symm

end Simulates

theorem fresh_of_proper {mallocs : FsmMallocs} {k factor : ℕ} {nqueues : UInt32} {fsm : Fsm D}
    (hinit : fsmInit mallocs (2 ^ k) factor nqueues = .ok (.ok, some fsm))
    {calls : List (Call A D)} (hproper : Proper (start A fsm) .empty calls)
    (hc : ∀ key, .setState key ∉ calls)
    (htargets : (Automaton.empty.run calls).2.1.TargetsRegistered) {rets : List Ret}
    {w : World A D} (hrun : performAll (start A fsm) calls = .ok (rets, w)) : w.Fresh := by
  obtain ⟨w', hrun', hsim, _⟩ := (simulates_of_fsmInit hinit).run hproper
  rw [hrun] at hrun'
  cases hrun'
  have hstart : Unflagged (start A fsm).states := fun _ hflag ↦ Bool.false_ne_true hflag
  exact hsim.fresh htargets (hstart.performAll hc hrun)

/-- A machine with a table of four heads. -/
def chainFsm : Fsm ℕ := ⟨emptyTable 4 1, none, 1, [[]]⟩

/-- Three states under the given keys, each but the last with one event that leads to the next. -/
def chainCalls (first second third : UInt32) : List (Call ℕ ℕ) :=
  [.stateInit ⟨some 0, true, true, true⟩ 0 0 1 1, .stateInit ⟨some 1, true, true, true⟩ 0 0 1 1,
    .stateInit ⟨some 2, true, true, true⟩ 0 0 1 1,
    .stateAddEvt ⟨true, true, ⟨true, true⟩⟩ 0 0 [] none (some 1),
    .stateAddEvt ⟨true, true, ⟨true, true⟩⟩ 1 0 [] none (some 2),
    .addState ⟨true, true⟩ first 0, .addState ⟨true, true⟩ second 1, .addState ⟨true, true⟩ third 2]

/-- What the calls of `chainCalls` return. -/
def chainRets : List Ret :=
  [.st .ok, .st .ok, .st .ok, .st .ok, .st .ok, .fsm .ok, .fsm .ok, .fsm .ok]

/-- The machine after the calls of `chainCalls`. -/
def chainWorld (first second third : UInt32) : World ℕ ℕ :=
  match performAll (start ℕ chainFsm) (chainCalls first second third) with
  | .ok (_, w) => w
  | .error _ => start ℕ chainFsm

/-- When the keys ascend along the chain, the marking is complete. -/
theorem ascendingChain_complete :
    performAll (start ℕ chainFsm) (chainCalls 1 2 3) = .ok (chainRets, chainWorld 1 2 3) ∧
      ∃ w', fsmSetState (chainWorld 1 2 3) 1 = .ok (.ok, w') ∧
        MarkingComplete (chainWorld 1 2 3) 1 w' := by
  refine ⟨rfl, _, rfl, (markingComplete_iff (by decide) rfl).2 fun s hkey t ht _ ↦ ?_⟩
  have hs : s = 0 := by
    have hall : ∀ s ∈ (chainWorld 1 2 3).registered, (chainWorld 1 2 3).HasKey 1 s → s = 0 := by
      decide
    exact hall s hkey.1 hkey
  have hchain : ∃ vs : List StateId, vs.Sublist (chainWorld 1 2 3).sweepOrder ∧
      (vs ++ [t]).IsChain (fun a b ↦ b ∈ targetsOf (chainWorld 1 2 3).states a) ∧
      ∀ v ∈ (vs ++ [t]).head?, v = 0 := by
    have hall : ∀ t ∈ (chainWorld 1 2 3).registered, t = 0 ∨ t = 1 ∨ t = 2 := by decide
    rcases hall t ht with rfl | rfl | rfl
    · exact ⟨[], by decide⟩
    · exact ⟨[0], by decide⟩
    · exact ⟨[0, 1], by decide⟩
  rw [hs]
  exact hchain

/-- When the keys descend along the chain, the last state is not found. -/
theorem descendingChain_not_complete :
    performAll (start ℕ chainFsm) (chainCalls 3 2 1) = .ok (chainRets, chainWorld 3 2 1) ∧
      (chainWorld 3 2 1).Fresh ∧ ∃ w', fsmSetState (chainWorld 3 2 1) 3 = .ok (.ok, w') ∧
        ¬ MarkingComplete (chainWorld 3 2 1) 3 w' := by
  refine ⟨rfl, by decide, _, rfl, fun hcomplete ↦ ?_⟩
  have hfirst : (chainWorld 3 2 1).Leads 0 1 := by decide
  have hsecond : (chainWorld 3 2 1).Leads 1 2 := by decide
  have hflag := hcomplete 0 (by decide) 2 (by decide) (.tail (.single hfirst) hsecond)
  revert hflag
  decide

end Experimentation.StateMachine
