import Experimentation.HashTable.Nodes
import Experimentation.StateMachine.Automaton
import Experimentation.StateMachine.Marking

/-!
# What calls do to the memory of the states

Nothing is assumed about the machine or its client here.  A call that is defined creates an object,
replaces a table, overwrites a key, or sets flags; it moves the current state at most to one that it
has just read.
-/

namespace Experimentation.StateMachine

open Semantics HashTable

variable {A D : Type}

/-- The world differs from another one in nothing but flags. -/
def World.SameUpToFlags (w w' : World A D) : Prop :=
  StateMachine.SameButFlags w.states w'.states ∧ w'.fsm = w.fsm ∧ w'.trace = w.trace

theorem World.SameUpToFlags.trans {w w' w'' : World A D} (h : w.SameUpToFlags w')
    (h' : w'.SameUpToFlags w'') : w.SameUpToFlags w'' :=
  ⟨h.1.trans h'.1, h'.2.1.trans h.2.1, h'.2.2.trans h.2.2⟩

theorem World.sameUpToFlags_store {w : World A D} {s : StateId} {st : StateObj A}
    (hst : w.states s = some st) :
    w.SameUpToFlags { w with states := storeState w.states s st.markAsReachable } := by
  refine ⟨?_, rfl, rfl⟩
  rw [storeState_markAsReachable hst]
  exact .flagState w.states s

/-- A turn of the inner loop of the marking does nothing, or it flags the target of an event of a
flagged state. -/
theorem markEvent_inv {pstate : StateId} {w w' : World A D} {eit : HIterator UInt32 (Event A)}
    (h : markEvent pstate w eit = .ok w') :
    w' = w ∨ ∃ st ev t new, w.states pstate = some st ∧ st.isReachable = true ∧
      htableIteratorGetData eit = .ok (some ev) ∧ ev.evtNewstate = some t ∧
      w.states t = some new ∧
      w' = { w with states := storeState w.states t new.markAsReachable } := by
  obtain ⟨pevt, hpevt, h⟩ := Exec.bind_eq_ok.1 h
  obtain ⟨st, hst, h⟩ := Exec.bind_eq_ok.1 h
  split at h
  · rename_i hflag
    cases pevt with
    | none => cases h
    | some ev =>
        dsimp only at h
        cases htarget : ev.evtNewstate with
        | none =>
            rw [htarget] at h
            cases h
        | some t =>
            rw [htarget] at h
            obtain ⟨new, hnew, h⟩ := Exec.bind_eq_ok.1 h
            exact .inr ⟨st, ev, t, new, loadState_eq_ok.1 hst, hflag, hpevt, htarget,
              loadState_eq_ok.1 hnew, (Except.ok.inj h).symm⟩
  · exact .inl (Except.ok.inj h).symm

theorem markEvent_sameUpToFlags {pstate : StateId} {w w' : World A D}
    {eit : HIterator UInt32 (Event A)} (h : markEvent pstate w eit = .ok w') :
    w.SameUpToFlags w' := by
  rcases markEvent_inv h with rfl | ⟨_, _, _, _, _, _, _, _, hnew, rfl⟩
  · exact ⟨.refl _, rfl, rfl⟩
  · exact World.sameUpToFlags_store hnew

theorem markState_sameUpToFlags {w w' : World A D} {sit : HIterator KeyRef StateId}
    (h : markState w sit = .ok w') : w.SameUpToFlags w' := by
  obtain ⟨pstate, _, h⟩ := Exec.bind_eq_ok.1 h
  cases pstate with
  | none => cases h
  | some pstate =>
      obtain ⟨st, _, h⟩ := Exec.bind_eq_ok.1 h
      exact forEachElm_invariant (P := fun w₁ ↦ w.SameUpToFlags w₁)
        (fun _ _ _ _ _ _ hevent hw ↦ hw.trans (markEvent_sameUpToFlags hevent)) h
        ⟨.refl _, rfl, rfl⟩

theorem fsmMarkReachableStates_sameUpToFlags {w w' : World A D}
    (h : fsmMarkReachableStates w = .ok w') : w.SameUpToFlags w' :=
  forEachElm_invariant (P := fun w₁ ↦ w.SameUpToFlags w₁)
    (fun _ _ _ _ _ _ hstate hw ↦ hw.trans (markState_sameUpToFlags hstate)) h ⟨.refl _, rfl, rfl⟩

/-- The state that the current state goes to on an event, if it handles the event. -/
def World.targetOf (w : World A D) (evtkey : UInt32) : Exec (Option StateId) := do
  let st ← w.currentState
  let pevt ← htableSearch stateCallbacks st.evttable evtkey
  return pevt.bind Event.evtNewstate

/-! ## Inversion of the calls -/

section Inversion

theorem stateInit_inv {mem mem' : StateMem A} {mallocs : StateMallocs} {key : UInt32}
    {flag : FlagByte} {size factor : ℕ} {r : StRet}
    (h : stateInit mem mallocs key flag size factor = .ok (r, mem')) :
    mem' = mem ∨ ∃ s, mallocs.state = some s ∧ size * sizeofHhead < sizeModulus ∧
      mem' = storeState mem s (StateObj.markAsUnreachable ⟨emptyTable size factor, key, flag⟩) := by
  unfold stateInit at h
  split at h
  · cases h
    exact .inl rfl
  · rename_i s hstate
    split at h
    · cases h
      exact .inl rfl
    · obtain ⟨init, htable, h⟩ := Exec.bind_eq_ok.1 h
      obtain ⟨ret, evttable⟩ := init
      cases evttable with
      | none =>
          cases h
          exact .inl rfl
      | some evttable =>
          obtain ⟨hfits, htable⟩ := htableInit_some htable
          dsimp only at h
          split at h
          · cases h
            exact .inl rfl
          · cases h
            rw [htable]
            exact .inr ⟨s, hstate, hfits, rfl⟩

theorem stateAddEvt_inv {mem mem' : StateMem A} {mallocs : EventMallocs} {s : StateId}
    {key : UInt32} {pdesc : List UInt8} {pactionf : Option A} {pnewstate : Option StateId}
    {r : StRet} (h : stateAddEvt mem mallocs s key pdesc pactionf pnewstate = .ok (r, mem')) :
    mem' = mem ∨ ∃ st ret t, mem s = some st ∧
      htableInsert stateCallbacks mallocs.insert st.evttable key
        (some ⟨strncpy pdesc maxEvtDesc, pactionf, pnewstate⟩) = .ok (ret, t) ∧
      mem' = storeState mem s { st with evttable := t } := by
  unfold stateAddEvt at h
  split at h
  · cases h
    exact .inl rfl
  · split at h
    · cases h
      exact .inl rfl
    · obtain ⟨st, hst, h⟩ := Exec.bind_eq_ok.1 h
      obtain ⟨⟨ret, t⟩, hinsert, h⟩ := Exec.bind_eq_ok.1 h
      have hmem : mem' = storeState mem s { st with evttable := t } := by
        dsimp only at h
        split at h
        · cases h
          rfl
        · cases h
          rfl
      exact .inr ⟨st, ret, t, loadState_eq_ok.1 hst, hinsert, hmem⟩

theorem stateRemEvt_inv {mem mem' : StateMem A} {s : StateId} {key : UInt32} {r : StRet}
    (h : stateRemEvt mem s key = .ok (r, mem')) :
    ∃ st ret t freed, mem s = some st ∧
      htableFreeObj stateCallbacks st.evttable key (htFreekey ||| htFreedata) =
        .ok (ret, t, freed) ∧
      mem' = storeState mem s { st with evttable := t } := by
  obtain ⟨st, hst, h⟩ := Exec.bind_eq_ok.1 h
  obtain ⟨⟨ret, t, freed⟩, hfree, h⟩ := Exec.bind_eq_ok.1 h
  have hmem : mem' = storeState mem s { st with evttable := t } := by
    dsimp only at h
    split at h
    · cases h
      rfl
    · cases h
      rfl
  exact ⟨st, ret, t, freed, loadState_eq_ok.1 hst, hfree, hmem⟩

variable {w w' : World A D} {r : FsmRet}

theorem fsmAddState_inv {mallocs : InsertMallocs} {key : UInt32} {s : StateId}
    (h : fsmAddState mallocs w key s = .ok (r, w')) :
    ∃ st ret t, w.states s = some st ∧
      htableInsert (fsmCallbacks (storeState w.states s { st with stKey := key })) mallocs
        w.fsm.sttable (.stKey s) (some s) = .ok (ret, t) ∧
      w' = { w with states := storeState w.states s { st with stKey := key }
                    fsm := { w.fsm with sttable := t } } ∧
      (r = .eexists ↔ ret = .existing) := by
  obtain ⟨st, hst, h⟩ := Exec.bind_eq_ok.1 h
  obtain ⟨⟨ret, t⟩, hinsert, h⟩ := Exec.bind_eq_ok.1 h
  refine ⟨st, ret, t, loadState_eq_ok.1 hst, hinsert, ?_⟩
  dsimp only at h
  split at h
  · rename_i hret
    cases h
    exact ⟨rfl, fun _ ↦ hret, fun _ ↦ rfl⟩
  · rename_i hret
    cases h
    exact ⟨rfl, fun heq ↦ FsmRet.noConfusion heq, fun heq ↦ absurd heq hret⟩

/-- A call of `fsm_set_state` that finds a state flags it and starts the marking. -/
theorem fsmSetState_marks {key : UInt32} (h : fsmSetState w key = .ok (r, w')) :
    r = .enotfound ∧ w' = w ∨ r = .ok ∧ ∃ s w₁, w.states s ≠ none ∧
      htableSearch (fsmCallbacks w.states) w.fsm.sttable (.caller key) = .ok (some s) ∧
      fsmMarkReachableStates { w with states := flagState w.states s } = .ok w₁ ∧
      w' = { w₁ with fsm := { w₁.fsm with cstate := some s } } := by
  obtain ⟨pstate, hsearch, h⟩ := Exec.bind_eq_ok.1 h
  cases pstate with
  | none =>
      cases h
      exact .inl ⟨rfl, rfl⟩
  | some s =>
      obtain ⟨st, hst, h⟩ := Exec.bind_eq_ok.1 h
      obtain ⟨w₁, hmark, h⟩ := Exec.bind_eq_ok.1 h
      have hload := loadState_eq_ok.1 hst
      rw [storeState_markAsReachable hload] at hmark
      cases h
      exact .inr ⟨rfl, s, w₁, hload ▸ Option.some_ne_none st, hsearch, hmark, rfl⟩

theorem fsmSetState_inv {key : UInt32} (h : fsmSetState w key = .ok (r, w')) :
    r = .enotfound ∧ w' = w ∨ r = .ok ∧ ∃ s mem, w.states s ≠ none ∧
      htableSearch (fsmCallbacks w.states) w.fsm.sttable (.caller key) = .ok (some s) ∧
      SameButFlags w.states mem ∧
      w' = { w with states := mem, fsm := { w.fsm with cstate := some s } } := by
  rcases fsmSetState_marks h with hnot | ⟨hr, s, w₁, hs, hsearch, hmark, hw'⟩
  · exact .inl hnot
  · obtain ⟨hsame, hfsm, htrace⟩ := fsmMarkReachableStates_sameUpToFlags hmark
    refine .inr ⟨hr, s, w₁.states, hs, hsearch, (SameButFlags.flagState w.states s).trans hsame, ?_⟩
    rw [hw', hfsm, htrace]

theorem fsmProcessEvent_inv {evtkey : UInt32} {data : D}
    (h : fsmProcessEvent leaveAlone w evtkey data = .ok (r, w')) :
    ∃ trace cstate, w' = { w with fsm := { w.fsm with cstate := cstate }, trace := trace } ∧
      (cstate = w.fsm.cstate ∨ ∃ s found, cstate = some s ∧ w.states s ≠ none ∧
        w.targetOf evtkey = .ok (some s) ∧
        htableSearch (fsmCallbacks w.states) w.fsm.sttable (.stKey s) = .ok (some found)) := by
  obtain ⟨st, hst, h⟩ := Exec.bind_eq_ok.1 h
  obtain ⟨pevt, hpevt, h⟩ := Exec.bind_eq_ok.1 h
  cases pevt with
  | none =>
      cases h
      exact ⟨_, _, rfl, .inl rfl⟩
  | some ev =>
      obtain ⟨w₁, hact, h⟩ := Exec.bind_eq_ok.1 h
      rw [callAction_leaveAlone] at hact
      cases hact
      cases htarget : ev.evtNewstate with
      | none =>
          rw [htarget] at h
          cases h
          exact ⟨_, _, rfl, .inl rfl⟩
      | some t =>
          rw [htarget] at h
          obtain ⟨new, hnew, h⟩ := Exec.bind_eq_ok.1 h
          obtain ⟨found, hfound, h⟩ := Exec.bind_eq_ok.1 h
          cases found with
          | none =>
              cases h
              exact ⟨_, _, rfl, .inl rfl⟩
          | some found =>
              cases h
              have hload : w.states t = some new := loadState_eq_ok.1 hnew
              refine ⟨_, _, rfl, .inr ⟨t, found, rfl, ?_, ?_, hfound⟩⟩
              · rw [hload]
                exact Option.some_ne_none new
              · rw [World.targetOf, hst, Exec.ok_bind, hpevt, Exec.ok_bind, Option.bind_some,
                  htarget]
                rfl

end Inversion

/-! ## The effects of calls -/

/-- What a defined call does to the world. -/
inductive Effect (w : World A D) : Call A D → World A D → Prop
  | nothing (c : Call A D) : Effect w c w
  | stateInit {mallocs : StateMallocs} {key : UInt32} {flag : FlagByte} {size factor : ℕ}
      (s : StateId) (hfits : size * sizeofHhead < sizeModulus) :
      Effect w (.stateInit mallocs key flag size factor) { w with
        states := storeState w.states s
          (StateObj.markAsUnreachable ⟨emptyTable size factor, key, flag⟩) }
  | stateAddEvt {mallocs : EventMallocs} {s : StateId} {key : UInt32} {pdesc : List UInt8}
      {pactionf : Option A} {pnewstate : Option StateId} {st : StateObj A} {r : HtRet}
      {t : HTable UInt32 (Event A)} (hst : w.states s = some st)
      (hinsert : htableInsert stateCallbacks mallocs.insert st.evttable key
        (some ⟨strncpy pdesc maxEvtDesc, pactionf, pnewstate⟩) = .ok (r, t)) :
      Effect w (.stateAddEvt mallocs s key pdesc pactionf pnewstate)
        { w with states := storeState w.states s { st with evttable := t } }
  | stateRemEvt {s : StateId} {key : UInt32} {st : StateObj A} {r : HtRet}
      {t : HTable UInt32 (Event A)} {freed : Freed UInt32 (Event A)} (hst : w.states s = some st)
      (hfree : htableFreeObj stateCallbacks st.evttable key (htFreekey ||| htFreedata) =
        .ok (r, t, freed)) :
      Effect w (.stateRemEvt s key)
        { w with states := storeState w.states s { st with evttable := t } }
  | addState {mallocs : InsertMallocs} {key : UInt32} {s : StateId} {st : StateObj A} {r : HtRet}
      {t : HTable KeyRef StateId} (hst : w.states s = some st)
      (hinsert : htableInsert (fsmCallbacks (storeState w.states s { st with stKey := key }))
        mallocs w.fsm.sttable (.stKey s) (some s) = .ok (r, t)) :
      Effect w (.addState mallocs key s) { w with
        states := storeState w.states s { st with stKey := key }
        fsm := { w.fsm with sttable := t } }
  | setState {key : UInt32} {s : StateId} {mem : StateMem A} (hs : w.states s ≠ none)
      (hsame : SameButFlags w.states mem) :
      Effect w (.setState key)
        { w with states := mem, fsm := { w.fsm with cstate := some s } }
  | processEvent {evtkey : UInt32} {data : D} (trace : List (A × D)) {cstate : Option StateId}
      (hcstate : cstate = w.fsm.cstate ∨ ∃ s, cstate = some s ∧ w.states s ≠ none) :
      Effect w (.processEvent evtkey data)
        { w with fsm := { w.fsm with cstate := cstate }, trace := trace }

/-- A defined call has one of the effects. -/
theorem effect_of_perform {w w' : World A D} {c : Call A D} {r : Ret}
    (h : perform w c = .ok (r, w')) : Effect w c w' := by
  cases c with
  | stateInit mallocs key flag size factor =>
      obtain ⟨⟨ret, mem⟩, hcall, h⟩ := Exec.bind_eq_ok.1 h
      cases h
      rcases stateInit_inv hcall with heq | ⟨s, _, hfits, heq⟩
      · rw [heq]
        exact .nothing _
      · rw [heq]
        exact .stateInit s hfits
  | stateAddEvt mallocs s key pdesc pactionf pnewstate =>
      obtain ⟨⟨ret, mem⟩, hcall, h⟩ := Exec.bind_eq_ok.1 h
      cases h
      rcases stateAddEvt_inv hcall with heq | ⟨st, ret', t, hst, hinsert, heq⟩
      · rw [heq]
        exact .nothing _
      · rw [heq]
        exact .stateAddEvt hst hinsert
  | stateRemEvt s key =>
      obtain ⟨⟨ret, mem⟩, hcall, h⟩ := Exec.bind_eq_ok.1 h
      cases h
      obtain ⟨st, ret', t, freed, hst, hfree, heq⟩ := stateRemEvt_inv hcall
      rw [heq]
      exact .stateRemEvt hst hfree
  | addState mallocs key s =>
      obtain ⟨⟨ret, w₁⟩, hcall, h⟩ := Exec.bind_eq_ok.1 h
      cases h
      obtain ⟨st, ret', t, hst, hinsert, heq, _⟩ := fsmAddState_inv hcall
      rw [heq]
      exact .addState hst hinsert
  | setState key =>
      obtain ⟨⟨ret, w₁⟩, hcall, h⟩ := Exec.bind_eq_ok.1 h
      cases h
      rcases fsmSetState_inv hcall with ⟨_, heq⟩ | ⟨_, s, mem, hs, _, hsame, heq⟩
      · rw [heq]
        exact .nothing _
      · rw [heq]
        exact .setState hs hsame
  | processEvent evtkey data =>
      obtain ⟨⟨ret, w₁⟩, hcall, h⟩ := Exec.bind_eq_ok.1 h
      cases h
      obtain ⟨trace, cstate, heq, hcstate⟩ := fsmProcessEvent_inv hcall
      rw [heq]
      refine .processEvent trace (hcstate.imp_right fun hmove ↦ ?_)
      obtain ⟨s, _, hs, halloc, _⟩ := hmove
      exact ⟨s, hs, halloc⟩

end Experimentation.StateMachine
