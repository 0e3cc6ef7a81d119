import Experimentation.StateMachine.Built
import Experimentation.StateMachine.Registration

/-!
# The current state

`fsm_process_event` moves the machine to the target of a transition as soon as some registered state
has the key of the target.  That state need not be the target: an object that was refused under the
key of a registered state has this key as well.  As long as the machine takes no such transition and
no registered state gets another key, the current state is the one that is registered under its key.
-/

namespace Experimentation.StateMachine

open Semantics HashTable

variable {A D : Type}

/-- An object that `state_init` returns is new. -/
def Call.NewObject (w : World A D) : Call A D → Prop
  | .stateInit mallocs _ _ _ _ => ∀ s, mallocs.state = some s → w.states s = none
  | _ => True

/-- The target of the transition that the event selects is registered, or no registered state has
its key. -/
def World.Follows (w : World A D) (evtkey : UInt32) : Prop :=
  ∀ t, w.targetOf evtkey = .ok (some t) → t ∈ w.registered ∨
    htableSearch (fsmCallbacks w.states) w.fsm.sttable (.stKey t) = .ok none

/-- No registered state gets another key, and no transition leads to a state that has the key of a
registered state without being registered. -/
def Call.KeepsIdentity (w : World A D) : Call A D → Prop
  | .addState _ key s => readKey w.states (.stKey s) = key ∨ s ∉ w.registered
  | .processEvent evtkey _ => w.Follows evtkey
  | _ => True

/-- The property holds of every call of the list in the state before it. -/
def Always (P : World A D → Call A D → Prop) : World A D → List (Call A D) → Prop
  | _, [] => True
  | w, c :: cs => P w c ∧
      match perform w c with
      | .ok (_, w) => Always P w cs
      | .error _ => True

/-- The current state is the object that a search for its key finds. -/
def World.CurrentRegistered (w : World A D) : Prop :=
  ∃ s st, w.fsm.cstate = some s ∧ w.states s = some st ∧ s ∈ w.registered ∧
    htableSearch (fsmCallbacks w.states) w.fsm.sttable (.caller st.stKey) = .ok (some s)

/-- Some call of the run set the state. -/
def WasSet (cs : List (Call A D)) (rs : List Ret) : Prop :=
  ∃ key, (Call.setState key, Ret.fsm .ok) ∈ cs.zip rs

/-! ## The invariant -/

/-- The table of states is as it should be, and the current state is in it. -/
structure World.Identified (w : World A D) : Prop where
  registry : w.Registry
  cstate : ∀ s, w.fsm.cstate = some s → s ∈ w.registered

section Calls

variable {w w' : World A D} {r : Ret} {c : Call A D}

/-- A state with its key as it was. -/
theorem World.Identified.storeState (h : w.Identified) {s : StateId} {st st' : StateObj A}
    (hst : w.states s = some st) (hkey : st'.stKey = st.stKey) :
    World.Identified { w with states := StateMachine.storeState w.states s st' } where
  registry := by
    apply h.registry.of_readKey
    · intro n hn
      obtain ⟨s', st₀, rfl, _⟩ := h.registry.entry n hn
      exact readKey_storeState hst hkey s'
    · exact fun s' hs' ↦ storeState_ne_none (h.registry.ne_none hs')
  cstate := h.cstate

theorem World.Identified.newObject (h : w.Identified) {s : StateId} (hs : w.states s = none)
    (st : StateObj A) :
    World.Identified { w with states := StateMachine.storeState w.states s st } where
  registry := h.registry.store (fun hmem ↦ h.registry.ne_none hmem hs) st
  cstate := h.cstate

theorem registered_addState (h : w.fsm.sttable.Tidy) {mallocs : InsertMallocs} {key : UInt32}
    {s t : StateId} {ret : FsmRet} (hrun : fsmAddState mallocs w key s = .ok (ret, w'))
    (ht : t ∈ w.registered) : t ∈ w'.registered := by
  obtain ⟨st, ret', t', hst, hinsert, rfl, _⟩ := fsmAddState_inv hrun
  obtain ⟨n, hn, hdata⟩ := List.mem_filterMap.1 ht
  exact List.mem_filterMap.2 ⟨n, (h.htableInsert hinsert).2.1 n hn, hdata⟩

theorem mem_registered_of_search {key : KeyRef} {s : StateId}
    (hsearch : htableSearch (fsmCallbacks w.states) w.fsm.sttable key = .ok (some s)) :
    s ∈ w.registered := by
  obtain ⟨n, hn, _, hdata⟩ := hasNode_of_htableSearch hsearch
  exact List.mem_filterMap.2 ⟨n, hn, hdata⟩

/-- A call that keeps the identity of the registered states keeps the invariant. -/
theorem World.Identified.perform (h : w.Identified) (hnew : c.NewObject w)
    (hkeeps : c.KeepsIdentity w) (hrun : perform w c = .ok (r, w')) : w'.Identified := by
  cases c with
  | stateInit mallocs key flag size factor =>
      obtain ⟨⟨ret, mem⟩, hcall, hrun⟩ := Exec.bind_eq_ok.1 hrun
      cases hrun
      rcases stateInit_inv hcall with rfl | ⟨s, hstate, _, rfl⟩
      · exact h
      · exact h.newObject (hnew s hstate) _
  | stateAddEvt mallocs s key pdesc pactionf pnewstate =>
      obtain ⟨⟨ret, mem⟩, hcall, hrun⟩ := Exec.bind_eq_ok.1 hrun
      cases hrun
      rcases stateAddEvt_inv hcall with rfl | ⟨st, _, t, hst, _, rfl⟩
      · exact h
      · exact h.storeState hst rfl
  | stateRemEvt s key =>
      obtain ⟨⟨ret, mem⟩, hcall, hrun⟩ := Exec.bind_eq_ok.1 hrun
      cases hrun
      obtain ⟨st, _, t, _, hst, _, rfl⟩ := stateRemEvt_inv hcall
      exact h.storeState hst rfl
  | addState mallocs key s =>
      obtain ⟨⟨ret, w₁⟩, hcall, hrun⟩ := Exec.bind_eq_ok.1 hrun
      cases hrun
      refine ⟨h.registry.addState hkeeps hcall, fun s' hs' ↦ ?_⟩
      apply registered_addState (.inl h.registry.placed.toSound) hcall
      obtain ⟨st, ret', t, _, _, rfl, _⟩ := fsmAddState_inv hcall
      exact h.cstate s' hs'
  | setState key =>
      obtain ⟨⟨ret, w₁⟩, hcall, hrun⟩ := Exec.bind_eq_ok.1 hrun
      cases hrun
      rcases fsmSetState_inv hcall with ⟨_, rfl⟩ | ⟨_, s, mem, _, hsearch, hsame, rfl⟩
      · exact h
      · have hreg : s ∈ w.registered := mem_registered_of_search hsearch
        have hmem : World.Registry { w with states := mem } :=
          h.registry.of_readKey (fun n _ ↦ hsame.readKey_eq n.hnKey) fun t ht hnone ↦
            h.registry.ne_none ht (hsame.none_iff.1 hnone)
        refine ⟨⟨hmem.placed, hmem.entry, hmem.distinct⟩, fun s' hs' ↦ ?_⟩
        cases hs'
        exact hreg
  | processEvent evtkey data =>
      obtain ⟨⟨ret, w₁⟩, hcall, hrun⟩ := Exec.bind_eq_ok.1 hrun
      cases hrun
      obtain ⟨trace, cstate, rfl, hcstate⟩ := fsmProcessEvent_inv hcall
      refine ⟨⟨h.registry.placed, h.registry.entry, h.registry.distinct⟩, fun s' hs' ↦ ?_⟩
      rcases hcstate with heq | ⟨s, found, heq, _, htarget, hfound⟩
      · exact h.cstate s' (heq.symm.trans hs')
      · have hst : s = s' := Option.some.inj (heq.symm.trans hs')
        subst hst
        rcases hkeeps s htarget with hreg | hnone
        · exact hreg
        · rw [hfound] at hnone
          cases hnone

theorem cstate_ne_none (hrun : perform w c = .ok (r, w'))
    (hset : w.fsm.cstate ≠ none ∨ ∃ key, c = .setState key ∧ r = .fsm .ok) :
    w'.fsm.cstate ≠ none := by
  rcases hset with hold | ⟨key, rfl, rfl⟩
  · cases effect_of_perform hrun with
    | nothing => exact hold
    | stateInit s hfits => exact hold
    | stateAddEvt hst hinsert => exact hold
    | stateRemEvt hst hfree => exact hold
    | addState hst hinsert => exact hold
    | setState hs hsame => exact Option.some_ne_none _
    | processEvent trace hcstate =>
        rcases hcstate with heq | ⟨s, heq, _⟩
        · exact heq ▸ hold
        · exact heq ▸ Option.some_ne_none s
  · obtain ⟨⟨ret, w₁⟩, hcall, hrun⟩ := Exec.bind_eq_ok.1 hrun
    cases hrun
    rcases fsmSetState_inv hcall with ⟨hret, _⟩ | ⟨_, s, mem, _, _, _, rfl⟩
    · cases hret
    · exact Option.some_ne_none s

theorem World.Identified.currentRegistered (h : w.Identified) (hset : w.fsm.cstate ≠ none) :
    w.CurrentRegistered := by
  obtain ⟨s, hs⟩ := Option.ne_none_iff_exists'.1 hset
  have hreg := h.cstate s hs
  obtain ⟨st, hst⟩ := Option.ne_none_iff_exists'.1 (h.registry.ne_none hreg)
  refine ⟨s, st, hs, hst, hreg, ?_⟩
  rw [htableSearch, h.registry.findNode_registered hreg hst]
  rfl

theorem perform_of_no_heads (hempty : w.fsm.sttable.htTable = [])
    (hrun : perform w c = .ok (r, w')) :
    w'.fsm.sttable.htTable = [] ∧ ∀ key, c ≠ .setState key := by
  refine ⟨?_, fun key hc ↦ ?_⟩
  · cases effect_of_perform hrun with
    | nothing => exact hempty
    | stateInit s hfits => exact hempty
    | stateAddEvt hst hinsert => exact hempty
    | stateRemEvt hst hfree => exact hempty
    | addState hst hinsert =>
        rw [HTable.htableInsert_of_no_heads hempty] at hinsert
        cases hinsert
    | setState hs hsame => exact hempty
    | processEvent trace hcstate => exact hempty
  · subst hc
    obtain ⟨_, hcall, _⟩ := Exec.bind_eq_ok.1 hrun
    obtain ⟨_, hsearch, _⟩ := Exec.bind_eq_ok.1 hcall
    obtain ⟨found, hfound, _⟩ := Exec.bind_eq_ok.1 hsearch
    rw [HTable.findNode_of_no_heads hempty] at hfound
    cases hfound

end Calls

/-! ## Runs -/

section Runs

variable {w w' : World A D} {cs : List (Call A D)} {rs : List Ret}

theorem World.Identified.performAll (h : w.Identified) (hnew : Always Call.NewObject w cs)
    (hkeeps : Always Call.KeepsIdentity w cs) (hrun : performAll w cs = .ok (rs, w'))
    (hset : w.fsm.cstate ≠ none ∨ WasSet cs rs) : w'.CurrentRegistered := by
  induction cs generalizing w rs with
  | nil =>
      cases hrun
      rcases hset with hset | ⟨key, hmem⟩
      · exact h.currentRegistered hset
      · cases hmem
  | cons c cs ih =>
      obtain ⟨⟨r, w₁⟩, hstep, hrun⟩ := Exec.bind_eq_ok.1 hrun
      obtain ⟨⟨rs', w₂⟩, hrest, hrun⟩ := Exec.bind_eq_ok.1 hrun
      cases hrun
      obtain ⟨hnew, hnews⟩ := hnew
      obtain ⟨hkeep, hkeeps⟩ := hkeeps
      rw [hstep] at hnews hkeeps
      apply ih (h.perform hnew hkeep hstep) hnews hkeeps hrest
      rcases hset with hset | ⟨key, hmem⟩
      · exact .inl (cstate_ne_none hstep (.inl hset))
      · rcases List.mem_cons.1 hmem with heq | hmem
        · cases heq
          exact .inl (cstate_ne_none hstep (.inr ⟨key, rfl, rfl⟩))
        · exact .inr ⟨key, hmem⟩

theorem not_wasSet_of_no_heads (hempty : w.fsm.sttable.htTable = [])
    (hrun : performAll w cs = .ok (rs, w')) : ¬ WasSet cs rs := by
  intro hset
  obtain ⟨key, hmem⟩ := hset
  induction cs generalizing w rs with
  | nil => cases hmem
  | cons c cs ih =>
      obtain ⟨⟨r, w₁⟩, hstep, hrun⟩ := Exec.bind_eq_ok.1 hrun
      obtain ⟨⟨rs', w₂⟩, hrest, hrun⟩ := Exec.bind_eq_ok.1 hrun
      cases hrun
      obtain ⟨hempty', hc⟩ := perform_of_no_heads hempty hstep
      rcases List.mem_cons.1 hmem with heq | hmem
      · cases heq
        exact hc key rfl
      · exact ih hempty' hrest hmem

/-- In every run in which no registered state gets another key and no transition is taken to a state
that only has the key of a registered one, the current state is registered from the first
successful `fsm_set_state` on. -/
theorem performAll_currentRegistered {mallocs : FsmMallocs} {size factor : ℕ} {nqueues : UInt32}
    {fsm : Fsm D} (hinit : fsmInit mallocs size factor nqueues = .ok (.ok, some fsm))
    (hnew : Always Call.NewObject (start A fsm) cs)
    (hkeeps : Always Call.KeepsIdentity (start A fsm) cs)
    (hrun : performAll (start A fsm) cs = .ok (rs, w)) (hset : WasSet cs rs) :
    w.CurrentRegistered := by
  obtain ⟨hfits, rfl⟩ := fsmInit_ok hinit
  rcases Nat.eq_zero_or_pos size with hzero | hpos
  · subst hzero
    exact absurd hset (not_wasSet_of_no_heads rfl hrun)
  · have hstart : World.Identified (start A (⟨emptyTable size factor, none, nqueues,
        List.replicate nqueues.toNat []⟩ : Fsm D)) :=
      ⟨emptyTable_registry hpos hfits rfl, fun s hs ↦ by cases hs⟩
    exact hstart.performAll hnew hkeeps hrun (.inr hset)

end Runs

/-- Two states, the first of which goes to the second on event 7; the second one gets the key
`key`. -/
def twoStateCalls (key : UInt32) : List (Call ℕ ℕ) :=
  [.stateInit ⟨some 0, true, true, true⟩ 0 0 4 1, .stateInit ⟨some 1, true, true, true⟩ 0 0 4 1,
    .addState ⟨true, true⟩ 1 0, .addState ⟨true, true⟩ key 1,
    .stateAddEvt ⟨true, true, ⟨true, true⟩⟩ 0 7 [] none (some 1), .setState 1, .processEvent 7 0]

/-- With a key of its own, the second state is registered when the machine moves to it. -/
theorem twoStateCalls_currentRegistered : ∃ rs w,
    performAll (start ℕ fourHeads) (twoStateCalls 2) = .ok (rs, w) ∧ w.fsm.cstate = some 1 ∧
      w.CurrentRegistered := by
  have hinit : fsmInit ⟨true, true, true, true, true⟩ 4 1 0 = .ok (.ok, some fourHeads) := rfl
  have hnew : Always Call.NewObject (start ℕ fourHeads) (twoStateCalls 2) :=
    ⟨fun _ _ ↦ rfl, fun s hs ↦ by cases hs; rfl, trivial, trivial, trivial, trivial, trivial,
      trivial⟩
  have hkeeps : Always Call.KeepsIdentity (start ℕ fourHeads) (twoStateCalls 2) :=
    ⟨trivial, trivial, .inr (by decide), .inr (by decide), trivial, trivial,
      fun t ht ↦ .inl (by cases ht; decide), trivial⟩
  exact ⟨_, _, rfl, rfl, performAll_currentRegistered hinit hnew hkeeps rfl
    ⟨1, List.mem_of_getElem? (i := 5) rfl⟩⟩

/-- With the key of the first state, the second one is refused, and the machine moves to it all the
same. -/
theorem twoStateCalls_not_currentRegistered : ∃ rs w,
    performAll (start ℕ fourHeads) (twoStateCalls 1) = .ok (rs, w) ∧
      Always Call.NewObject (start ℕ fourHeads) (twoStateCalls 1) ∧
      WasSet (twoStateCalls 1) rs ∧ w.fsm.cstate = some 1 ∧ ¬ w.CurrentRegistered := by
  refine ⟨_, _, rfl, ⟨fun _ _ ↦ rfl, fun s hs ↦ by cases hs; rfl, trivial, trivial, trivial,
    trivial, trivial, trivial⟩, ⟨1, List.mem_of_getElem? (i := 5) rfl⟩, rfl, fun hcurrent ↦ ?_⟩
  obtain ⟨s, st, hs, _, hreg, _⟩ := hcurrent
  cases hs
  exact absurd hreg (by decide)

end Experimentation.StateMachine
