import Experimentation.HashTable.Nodes
import Experimentation.StateMachine.Memory

/-!
# Machines built by calls

A machine that is built by calls in any order, whatever they return: states may be registered twice
or not at all, keys may be overwritten, allocations may fail, and tables may have any positive
number of heads.  All that a client has to see to is that the pointers it passes are `NULL` or point
to states.  What the machine can then look at is always there.
-/

namespace Experimentation.StateMachine

open Semantics HashTable

variable {A D : Type}

/-- What the machine can look at is in memory. -/
structure Accessible (w : World A D) : Prop where
  sttable : w.fsm.sttable.Sound
  evttable : ∀ s st, w.states s = some st → st.evttable.Sound
  targets : ∀ s st, w.states s = some st → ∀ n, st.evttable.HasNode n →
    ∀ t, eventTarget n = some t → w.states t ≠ none
  cstate : ∀ s, w.fsm.cstate = some s → w.states s ≠ none

theorem Accessible.target_ne_none {w : World A D} (h : Accessible w) {s t : StateId}
    {st : StateObj A} (hst : w.states s = some st) {evtkey : UInt32} {ev : Event A}
    (hsearch : htableSearch stateCallbacks st.evttable evtkey = .ok (some ev))
    (htarget : ev.evtNewstate = some t) : w.states t ≠ none := by
  obtain ⟨n, hn, _, hdata⟩ := hasNode_of_htableSearch hsearch
  exact h.targets s st hst n hn t ((eventTarget_eq hdata).trans htarget)

/-- The pointers that are passed are good, and a table gets a head. -/
def Call.Usable (w : World A D) : Call A D → Prop
  | .stateInit _ _ _ size _ => 0 < size
  | .stateAddEvt _ _ _ _ _ pnewstate => ∀ t, pnewstate = some t → w.states t ≠ none
  | .stateRemEvt _ _ | .addState _ _ _ | .setState _ | .processEvent _ _ => True

/-- A machine that was made by `fsm_init` and defined calls. -/
inductive Built : World A D → Prop
  | init {mallocs : FsmMallocs} {size factor : ℕ} {nqueues : UInt32} {fsm : Fsm D}
      (hpos : 0 < size) (hinit : fsmInit mallocs size factor nqueues = .ok (.ok, some fsm)) :
      Built (start A fsm)
  | call {w w' : World A D} {c : Call A D} {r : Ret} (h : Built w) (hc : c.Usable w)
      (hrun : perform w c = .ok (r, w')) : Built w'

theorem storeState_ne_none {mem : StateMem A} {s t : StateId} {st : StateObj A}
    (ht : mem t ≠ none) : storeState mem s st t ≠ none := by
  by_cases heq : t = s
  · rw [heq, storeState_self]
    exact Option.some_ne_none st
  · rwa [storeState_of_ne _ _ heq]

namespace Accessible

variable {w w' : World A D} (h : Accessible w)
include h

/-- An object is new or gets another table. -/
theorem storeState {s : StateId} {st : StateObj A} (hsound : st.evttable.Sound)
    (htargets : ∀ n, st.evttable.HasNode n → ∀ t, eventTarget n = some t → w.states t ≠ none) :
    Accessible { w with states := StateMachine.storeState w.states s st } where
  sttable := h.sttable
  evttable _ _ hst' := forall_storeState hsound h.evttable hst'
  targets s' st' hst' n hn t ht := by
    apply storeState_ne_none
    exact forall_storeState htargets h.targets hst' n hn t ht
  cstate s' hs' := storeState_ne_none (h.cstate s' hs')

/-- Flags and the current state may change. -/
theorem of_same (hsame : SameButFlags w.states w'.states) (htable : w'.fsm.sttable = w.fsm.sttable)
    (hcstate : ∀ s, w'.fsm.cstate = some s → w'.states s ≠ none) : Accessible w' where
  sttable := htable ▸ h.sttable
  evttable s st' hst' := by
    obtain ⟨st, hst, heq, _⟩ := hsame.symm.exists_eq hst'
    rw [← heq]
    exact h.evttable s st hst
  targets s st' hst' n hn t ht hnone := by
    obtain ⟨st, hst, heq, _⟩ := hsame.symm.exists_eq hst'
    rw [← heq] at hn
    exact h.targets s st hst n hn t ht (hsame.none_iff.1 hnone)
  cstate := hcstate

/-- Nothing becomes inaccessible by a call. -/
theorem effect {c : Call A D} (hc : c.Usable w) (heffect : Effect w c w') : Accessible w' := by
  cases heffect with
  | nothing => exact h
  | stateInit s hfits =>
      exact h.storeState (emptyTable_sound hc hfits) fun n hn ↦ absurd hn not_hasNode_emptyTable
  | @stateAddEvt mallocs s key pdesc pactionf pnewstate st r t hst hinsert =>
      obtain ⟨hsound, hnodes⟩ := (h.evttable s st hst).htableInsert hinsert
      refine h.storeState hsound fun n hn t' ht' ↦ ?_
      rcases hnodes n hn with hold | hnew
      · exact h.targets s st hst n hold t' ht'
      · rw [hnew] at ht'
        exact hc t' ht'
  | @stateRemEvt s key st r t freed hst hfree =>
      obtain ⟨hsound, hnodes⟩ := (h.evttable s st hst).htableFreeObj hfree
      exact h.storeState hsound fun n hn ↦ h.targets s st hst n (hnodes n hn)
  | @addState mallocs key s st r t hst hinsert =>
      have hstore : Accessible { w with
          states := StateMachine.storeState w.states s { st with stKey := key } } :=
        h.storeState (h.evttable s st hst) (h.targets s st hst)
      exact ⟨(h.sttable.htableInsert hinsert).1, hstore.evttable, hstore.targets, hstore.cstate⟩
  | @setState key s mem hs hsame =>
      refine h.of_same hsame rfl fun s' hs' ↦ ?_
      cases hs'
      exact fun hnone ↦ hs (hsame.none_iff.1 hnone)
  | processEvent trace hcstate =>
      refine h.of_same (.refl w.states) rfl fun s hs ↦ ?_
      rcases hcstate with heq | ⟨s', heq, hs'⟩
      · exact h.cstate s (heq.symm.trans hs)
      · rw [heq] at hs
        cases hs
        exact hs'

end Accessible

/-- Calls leave the queues alone. -/
theorem Effect.queues {w w' : World A D} {c : Call A D} (h : Effect w c w') :
    w'.fsm.nqueues = w.fsm.nqueues ∧ w'.fsm.pqtable = w.fsm.pqtable := by
  cases h with
  | nothing => exact ⟨rfl, rfl⟩
  | stateInit s hfits => exact ⟨rfl, rfl⟩
  | stateAddEvt hst hinsert => exact ⟨rfl, rfl⟩
  | stateRemEvt hst hfree => exact ⟨rfl, rfl⟩
  | addState hst hinsert => exact ⟨rfl, rfl⟩
  | setState hs hsame => exact ⟨rfl, rfl⟩
  | processEvent trace hcstate => exact ⟨rfl, rfl⟩

namespace Built

variable {w : World A D} (h : Built w)
include h

theorem accessible : Accessible w := by
  induction h with
  | init hpos hinit =>
      obtain ⟨hfits, rfl⟩ := fsmInit_ok hinit
      constructor
      case sttable => exact emptyTable_sound hpos hfits
      case evttable => exact fun _ _ hst ↦ by cases hst
      case targets => exact fun _ _ hst ↦ by cases hst
      case cstate => exact fun _ hs ↦ by cases hs
  | call _ hc hrun ih => exact ih.effect hc (effect_of_perform hrun)

theorem queues_empty : w.fsm.pqtable = List.replicate w.fsm.nqueues.toNat [] := by
  induction h with
  | init hpos hinit =>
      obtain ⟨_, rfl⟩ := fsmInit_ok hinit
      rfl
  | call _ hc hrun ih =>
      obtain ⟨hnqueues, hpqtable⟩ := (effect_of_perform hrun).queues
      rw [hpqtable, hnqueues, ih]

end Built

/-! ## The entries of the table of states -/

/-- The entries of the table are states in memory, under the pointers to their keys. -/
def World.EntriesLoad (w : World A D) : Prop :=
  ∀ n, w.fsm.sttable.HasNode n → ∃ s, n = ⟨.stKey s, some s⟩ ∧ w.states s ≠ none

/-- The entries stay in memory. -/
theorem World.EntriesLoad.keep {w w' : World A D} (h : w.EntriesLoad)
    (htable : w'.fsm.sttable = w.fsm.sttable) (hkeep : ∀ s, w.states s ≠ none → w'.states s ≠ none) :
    w'.EntriesLoad := by
  intro n hn
  rw [htable] at hn
  obtain ⟨s, heq, hs⟩ := h n hn
  exact ⟨s, heq, hkeep s hs⟩

theorem World.EntriesLoad.effect {w w' : World A D} (h : w.EntriesLoad) (haccess : Accessible w)
    {c : Call A D} (heffect : Effect w c w') : w'.EntriesLoad := by
  cases heffect with
  | nothing => exact h
  | stateInit s hfits => exact h.keep rfl fun s' hs' ↦ storeState_ne_none hs'
  | stateAddEvt hst hinsert => exact h.keep rfl fun s' hs' ↦ storeState_ne_none hs'
  | stateRemEvt hst hfree => exact h.keep rfl fun s' hs' ↦ storeState_ne_none hs'
  | @addState mallocs key s st r t hst hinsert =>
      intro n hn
      rcases (haccess.sttable.htableInsert hinsert).2 n hn with hold | hnew
      · obtain ⟨s', heq, hs'⟩ := h n hold
        exact ⟨s', heq, storeState_ne_none hs'⟩
      · refine ⟨s, hnew, ?_⟩
        dsimp only
        rw [storeState_self]
        exact Option.some_ne_none _
  | setState hs hsame => exact h.keep rfl fun s' hs' hnone ↦ hs' (hsame.none_iff.1 hnone)
  | processEvent trace hcstate => exact h.keep rfl fun _ hs' ↦ hs'

theorem Built.entriesLoad {w : World A D} (h : Built w) : w.EntriesLoad := by
  induction h with
  | init hpos hinit =>
      obtain ⟨_, rfl⟩ := fsmInit_ok hinit
      exact fun n hn ↦ absurd hn not_hasNode_emptyTable
  | call hbuilt hc hrun ih => exact ih.effect hbuilt.accessible (effect_of_perform hrun)

end Experimentation.StateMachine
