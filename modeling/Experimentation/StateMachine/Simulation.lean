import Experimentation.StateMachine.Automaton
import Experimentation.StateMachine.Marking

/-!
# The state machine simulates its automaton

The table of states stands for the registered states, and the table of each state for its partial
transition function, whatever their sizes and factors and however often they grew.  Each allowed
call keeps the machine and the automaton in step, and answers what the automaton answers.
-/

namespace Experimentation.StateMachine

open Semantics HashTable

variable {A D : Type}

/-! ## Tables of events -/

/-- What an event does. -/
def Event.transition (ev : Event A) : Transition A := ⟨ev.evtActionf, ev.evtNewstate⟩

theorem sameEventKey_iff {key : UInt32} {n : HNode UInt32 (Event A)} :
    stateCallbacks.sameKey key n = true ↔ n.hnKey = key :=
  sameKey_iff.trans uintCmpf_eq_zero_iff

/-- The entries of a table of events are the transitions of a state. -/
structure Handles (evs : List (HNode UInt32 (Event A))) (δ : UInt32 → Option (Transition A)) :
    Prop where
  entry : ∀ n ∈ evs, ∃ ev, n.hnData = some ev ∧ δ n.hnKey = some ev.transition
  found : ∀ key, δ key ≠ none → ∃ n ∈ evs, n.hnKey = key

namespace Handles

variable {evs : List (HNode UInt32 (Event A))} {δ : UInt32 → Option (Transition A)}

theorem nil : Handles ([] : List (HNode UInt32 (Event A))) fun _ ↦ none where
  entry _ hn := absurd hn List.not_mem_nil
  found _ hkey := absurd rfl hkey

variable (h : Handles evs δ)
include h

theorem find?_eq_none_iff (key : UInt32) :
    evs.find? (stateCallbacks.sameKey key) = none ↔ δ key = none := by
  constructor
  · intro hfind
    by_contra hkey
    obtain ⟨n, hn, hsame⟩ := h.found key hkey
    exact List.find?_eq_none.1 hfind n hn (sameEventKey_iff.2 hsame)
  · intro hkey
    apply List.find?_eq_none.2
    intro n hn hsame
    obtain ⟨ev, _, htr⟩ := h.entry n hn
    rw [sameEventKey_iff.1 hsame, hkey] at htr
    cases htr

/-- A search finds the transition. -/
theorem search (key : UInt32) :
    ((evs.find? (stateCallbacks.sameKey key)).bind HNode.hnData).map Event.transition = δ key := by
  cases hfind : evs.find? (stateCallbacks.sameKey key) with
  | none => exact ((h.find?_eq_none_iff key).1 hfind).symm
  | some n =>
      obtain ⟨ev, hdata, htr⟩ := h.entry n (List.mem_of_find?_eq_some hfind)
      rw [sameEventKey_iff.1 (List.find?_some hfind)] at htr
      rw [Option.bind_some, hdata, Option.map_some, htr]

theorem append {key : UInt32} (hkey : δ key = none) (ev : Event A) :
    Handles (evs ++ [⟨key, some ev⟩]) (Function.update δ key (some ev.transition)) := by
  constructor
  · intro n hn
    rcases List.mem_append.1 hn with hold | hnew
    · obtain ⟨ev', hdata, htr⟩ := h.entry n hold
      have hne : n.hnKey ≠ key := by
        intro heq
        rw [heq, hkey] at htr
        cases htr
      exact ⟨ev', hdata, by rw [Function.update_of_ne hne, htr]⟩
    · rw [List.mem_singleton.1 hnew]
      exact ⟨ev, rfl, Function.update_self ..⟩
  · intro key' hkey'
    by_cases heq : key' = key
    · exact ⟨⟨key, some ev⟩, by simp, heq.symm⟩
    · rw [Function.update_of_ne heq] at hkey'
      obtain ⟨n, hn, hsame⟩ := h.found key' hkey'
      exact ⟨n, List.mem_append_left _ hn, hsame⟩

theorem erase
    (hdistinct : evs.Pairwise fun a b ↦ stateCallbacks.cmpf a.hnKey b.hnKey ≠ 0) (key : UInt32) :
    Handles (evs.eraseP (stateCallbacks.sameKey key)) (Function.update δ key none) := by
  constructor
  · intro n hn
    obtain ⟨ev, hdata, htr⟩ := h.entry n (List.mem_of_mem_eraseP hn)
    have hne : n.hnKey ≠ key := fun heq ↦
      not_sameKey_of_mem_eraseP hdistinct hn (uintCmpf_eq_zero_iff.2 heq)
    exact ⟨ev, hdata, by rw [Function.update_of_ne hne, htr]⟩
  · intro key' hkey'
    have hne : key' ≠ key := by
      intro heq
      rw [heq, Function.update_self] at hkey'
      exact hkey' rfl
    rw [Function.update_of_ne hne] at hkey'
    obtain ⟨n, hn, hsame⟩ := h.found key' hkey'
    have hother : ¬ stateCallbacks.sameKey key n = true := fun heq ↦
      hne (hsame.symm.trans (sameEventKey_iff.1 heq))
    exact ⟨n, (List.mem_eraseP_of_neg hother).2 hn, hsame⟩

end Handles

/-- A table of events holds the transitions of a state. -/
def EventsHold (t : HTable UInt32 (Event A)) (δ : UInt32 → Option (Transition A)) : Prop :=
  ∃ evs, Holds stateCallbacks t evs ∧ Handles evs δ

namespace EventsHold

variable {mem : StateMem A} {s : StateId} {st : StateObj A} {δ : UInt32 → Option (Transition A)}

theorem search {t : HTable UInt32 (Event A)} (h : EventsHold t δ) (key : UInt32) :
    ∃ pevt, htableSearch stateCallbacks t key = .ok pevt ∧
      pevt.map Event.transition = δ key := by
  obtain ⟨evs, hholds, hhandles⟩ := h
  exact ⟨_, hholds.htableSearch_eq key, hhandles.search key⟩

variable (h : EventsHold st.evttable δ) (hst : mem s = some st) {key : UInt32}
include h hst

theorem stateAddEvt_existing {mallocs : EventMallocs} (hkeymalloc : mallocs.key = true)
    (hevent : mallocs.event = true) (hkey : δ key ≠ none) (pdesc : List UInt8)
    (pactionf : Option A) (pnewstate : Option StateId) :
    stateAddEvt mem mallocs s key pdesc pactionf pnewstate = .ok (.existing, mem) := by
  obtain ⟨evs, hholds, hhandles⟩ := h
  have hfind : evs.find? (stateCallbacks.sameKey key) ≠ none := fun hnone ↦
    hkey ((hhandles.find?_eq_none_iff key).1 hnone)
  have hself : storeState mem s st = mem := by
    rw [storeState, ← hst, Function.update_eq_self]
  rw [stateAddEvt, hkeymalloc, hevent]
  change (loadState mem s >>= fun st ↦ htableInsert _ _ _ _ _ >>= _) = _
  rw [loadState_eq hst, Exec.ok_bind, hholds.htableInsert_existing _ _ _ hfind, Exec.ok_bind]
  exact congrArg (fun mem ↦ Except.ok (StRet.existing, mem)) hself

theorem stateAddEvt_new {mallocs : EventMallocs} (hkeymalloc : mallocs.key = true)
    (hevent : mallocs.event = true) (hnode : mallocs.insert.node = true) (hkey : δ key = none)
    {pdesc : List UInt8} {pactionf : Option A} {pnewstate : Option StateId}
    (hfits : (Op.insert key (some (⟨strncpy pdesc maxEvtDesc, pactionf, pnewstate⟩ : Event A))
      mallocs.insert).Fits stateCallbacks st.evttable) :
    ∃ t, stateAddEvt mem mallocs s key pdesc pactionf pnewstate =
        .ok (.ok, storeState mem s { st with evttable := t }) ∧
      EventsHold t (Function.update δ key (some ⟨pactionf, pnewstate⟩)) := by
  obtain ⟨evs, hholds, hhandles⟩ := h
  have hfind : evs.find? (stateCallbacks.sameKey key) = none :=
    (hhandles.find?_eq_none_iff key).2 hkey
  have hroom : st.evttable.InsertFits mallocs.insert.heads :=
    hfits (by rw [hholds.findNode_eq, hfind]) hnode
  let ev : Event A := ⟨strncpy pdesc maxEvtDesc, pactionf, pnewstate⟩
  refine ⟨_, ?_, _, hholds.inserted (new_of_find? hfind) hroom, hhandles.append hkey ev⟩
  rw [stateAddEvt, hkeymalloc, hevent]
  change (loadState mem s >>= fun st ↦ htableInsert _ _ _ _ _ >>= _) = _
  rw [loadState_eq hst, Exec.ok_bind, hholds.htableInsert_new _ _ hfind hnode hroom]
  rfl

theorem stateRemEvt_eq (key : UInt32) :
    ∃ t, stateRemEvt mem s key = .ok (if δ key = none then .notfound else .ok,
        storeState mem s { st with evttable := t }) ∧
      EventsHold t (Function.update δ key none) := by
  obtain ⟨evs, hholds, hhandles⟩ := h
  obtain ⟨freed, hfree⟩ := hholds.htableFreeObj_eq key (htFreekey ||| htFreedata)
  refine ⟨_, ?_, _, hholds.erased key, hhandles.erase hholds.distinct key⟩
  rw [stateRemEvt, loadState_eq hst, Exec.ok_bind, hfree, Exec.ok_bind]
  by_cases hkey : δ key = none
  · have hfind := (hhandles.find?_eq_none_iff key).2 hkey
    rw [if_pos hkey, if_pos hfind, if_pos hfind]
    rfl
  · have hfind := fun hnone ↦ hkey ((hhandles.find?_eq_none_iff key).1 hnone)
    rw [if_neg hkey, if_neg hfind, if_neg hfind]
    rfl

end EventsHold

/-! ## The table of states -/

theorem sameStateKey_iff {mem : StateMem A} {r : KeyRef} {n : HNode KeyRef StateId} :
    (fsmCallbacks mem).sameKey r n = true ↔ readKey mem n.hnKey = readKey mem r :=
  sameKey_iff.trans uintCmpf_eq_zero_iff

theorem readKey_storeState_of_ne (mem : StateMem A) {s t : StateId} (st : StateObj A) (h : t ≠ s) :
    readKey (storeState mem s st) (.stKey t) = readKey mem (.stKey t) := by
  rw [readKey, readKey, storeState_of_ne _ _ h]

theorem readKey_storeState {mem : StateMem A} {s : StateId} {st st' : StateObj A}
    (hst : mem s = some st) (hkey : st'.stKey = st.stKey) (t : StateId) :
    readKey (storeState mem s st') (.stKey t) = readKey mem (.stKey t) := by
  by_cases heq : t = s
  · subst heq
    rw [readKey_stKey (storeState_self ..), readKey_stKey hst, hkey]
  · exact readKey_storeState_of_ne mem st' heq

/-- The entries of a table of states are the registered states, under their own keys. -/
structure Registered (mem : StateMem A) (es : List (HNode KeyRef StateId))
    (stateOf : UInt32 → Option StateId) : Prop where
  entry : ∀ n ∈ es, ∃ s st, n = ⟨.stKey s, some s⟩ ∧ mem s = some st ∧ stateOf st.stKey = some s
  found : ∀ key s, stateOf key = some s →
    ⟨.stKey s, some s⟩ ∈ es ∧ ∃ st, mem s = some st ∧ st.stKey = key

namespace Registered

variable {mem mem' : StateMem A} {es : List (HNode KeyRef StateId)}
  {stateOf : UInt32 → Option StateId}

theorem nil (mem : StateMem A) : Registered mem [] fun _ ↦ none where
  entry _ hn := absurd hn List.not_mem_nil
  found _ _ hkey := by cases hkey

variable (h : Registered mem es stateOf)
include h

theorem find?_eq (r : KeyRef) : es.find? ((fsmCallbacks mem).sameKey r) =
    (stateOf (readKey mem r)).map fun s ↦ ⟨.stKey s, some s⟩ := by
  cases hfind : es.find? ((fsmCallbacks mem).sameKey r) with
  | none =>
      cases hkey : stateOf (readKey mem r) with
      | none => rfl
      | some s =>
          obtain ⟨hmem, st, hst, hsame⟩ := h.found _ s hkey
          exact absurd (sameStateKey_iff.2 ((readKey_stKey hst).trans hsame))
            (List.find?_eq_none.1 hfind _ hmem)
  | some n =>
      obtain ⟨s, st, rfl, hst, hkey⟩ := h.entry n (List.mem_of_find?_eq_some hfind)
      have hsame := sameStateKey_iff.1 (List.find?_some hfind)
      rw [← hsame, readKey_stKey hst, hkey, Option.map_some]

/-- The registration in a memory that keeps the keys of the registered states. -/
theorem keep (hkeep : ∀ key s, stateOf key = some s → ∀ st, mem s = some st →
      ∃ st', mem' s = some st' ∧ st'.stKey = st.stKey) :
    Registered mem' es stateOf ∧ ∀ n ∈ es, readKey mem' n.hnKey = readKey mem n.hnKey := by
  refine ⟨⟨?_, ?_⟩, ?_⟩
  · intro n hn
    obtain ⟨s, st, hentry, hst, hkey⟩ := h.entry n hn
    obtain ⟨st', hst', hsame⟩ := hkeep _ s hkey st hst
    exact ⟨s, st', hentry, hst', hsame ▸ hkey⟩
  · intro key s hkey
    obtain ⟨hmem, st, hst, hsame⟩ := h.found key s hkey
    obtain ⟨st', hst', hsame'⟩ := hkeep key s hkey st hst
    exact ⟨hmem, st', hst', hsame'.trans hsame⟩
  · intro n hn
    obtain ⟨s, st, rfl, hst, hkey⟩ := h.entry n hn
    obtain ⟨st', hst', hsame⟩ := hkeep _ s hkey st hst
    rw [readKey_stKey hst, readKey_stKey hst', hsame]

theorem append {key : UInt32} {s : StateId} {st : StateObj A} (hst : mem s = some st)
    (hkey : st.stKey = key) (hnew : stateOf key = none) :
    Registered mem (es ++ [⟨.stKey s, some s⟩]) (Function.update stateOf key (some s)) := by
  constructor
  · intro n hn
    rcases List.mem_append.1 hn with hold | hlast
    · obtain ⟨s', st', hentry, hst', hkey'⟩ := h.entry n hold
      have hne : st'.stKey ≠ key := by
        intro heq
        rw [heq, hnew] at hkey'
        cases hkey'
      exact ⟨s', st', hentry, hst', by rw [Function.update_of_ne hne, hkey']⟩
    · rw [List.mem_singleton.1 hlast]
      exact ⟨s, st, rfl, hst, by rw [hkey, Function.update_self]⟩
  · intro key' s' hkey'
    by_cases heq : key' = key
    · rw [heq, Function.update_self, Option.some.injEq] at hkey'
      subst hkey'
      exact ⟨by simp, st, hst, hkey.trans heq.symm⟩
    · rw [Function.update_of_ne heq] at hkey'
      obtain ⟨hmem, hfound⟩ := h.found key' s' hkey'
      exact ⟨List.mem_append_left _ hmem, hfound⟩

end Registered

/-- The table of states holds the registered states. -/
def TableHolds (mem : StateMem A) (t : HTable KeyRef StateId)
    (stateOf : UInt32 → Option StateId) : Prop :=
  ∃ es, Holds (fsmCallbacks mem) t es ∧ Registered mem es stateOf

namespace TableHolds

variable {mem mem' : StateMem A} {t : HTable KeyRef StateId} {stateOf : UInt32 → Option StateId}

theorem keep (h : TableHolds mem t stateOf)
    (hkeep : ∀ key s, stateOf key = some s → ∀ st, mem s = some st →
      ∃ st', mem' s = some st' ∧ st'.stKey = st.stKey) : TableHolds mem' t stateOf := by
  obtain ⟨es, hholds, hreg⟩ := h
  obtain ⟨hreg', hread⟩ := hreg.keep hkeep
  refine ⟨es, hholds.congr (fun n hn ↦ ?_) (fun n hn m hm ↦ ?_), hreg'⟩
  · exact congrArg uintHashf (hread n hn)
  · exact congrArg₂ uintCmpf (hread n hn) (hread m hm)

theorem search (h : TableHolds mem t stateOf) (r : KeyRef) :
    htableSearch (fsmCallbacks mem) t r = .ok (stateOf (readKey mem r)) := by
  obtain ⟨es, hholds, hreg⟩ := h
  rw [hholds.htableSearch_eq, hreg.find?_eq]
  cases stateOf (readKey mem r) with
  | none => rfl
  | some s => rfl

/-- A state is registered under a new key, which its object already has. -/
theorem insert (h : TableHolds mem t stateOf) {key : UInt32} {s : StateId} {st : StateObj A}
    (hst : mem s = some st) (hkey : st.stKey = key) (hnew : stateOf key = none)
    {mallocs : InsertMallocs} (hnode : mallocs.node = true)
    (hfits : (Op.insert (.stKey s) (some s) mallocs).Fits (fsmCallbacks mem) t) :
    ∃ t', htableInsert (fsmCallbacks mem) mallocs t (.stKey s) (some s) = .ok (.ok, t') ∧
      TableHolds mem t' (Function.update stateOf key (some s)) := by
  obtain ⟨es, hholds, hreg⟩ := h
  have hfind : es.find? ((fsmCallbacks mem).sameKey (.stKey s)) = none := by
    rw [hreg.find?_eq, readKey_stKey hst, hkey, hnew, Option.map_none]
  have hroom : t.InsertFits mallocs.heads :=
    hfits (by rw [hholds.findNode_eq, hfind]) hnode
  exact ⟨_, hholds.htableInsert_new _ _ hfind hnode hroom, _,
    hholds.inserted (new_of_find? hfind) hroom, hreg.append hst hkey hnew⟩

end TableHolds

/-! ## Machines and automata -/

/-- What a machine and its automaton have in common. -/
structure Simulates (w : World A D) (a : Automaton A) : Prop where
  states : TableHolds w.states w.fsm.sttable a.stateOf
  allocated : ∀ s, w.states s = none ↔ a.table s = none
  events : ∀ s st, w.states s = some st → EventsHold st.evttable (a.events s)
  cstate : w.fsm.cstate = a.current
  current : ∀ s, a.current = some s → ∃ key, a.stateOf key = some s

/-- A call answers and does what the automaton does. -/
def StaysInStep (w : World A D) (a : Automaton A) (c : Call A D) : Prop :=
  ∃ w', perform w c = .ok ((a.step c).1, w') ∧ Simulates w' (a.step c).2.1 ∧
    w'.trace = w.trace ++ (a.step c).2.2

theorem StaysInStep.of_eq {w w' : World A D} {a a' : Automaton A} {c : Call A D} {r : Ret}
    {acts : List (A × D)} (hperform : perform w c = .ok (r, w')) (hstep : a.step c = (r, a', acts))
    (hsim : Simulates w' a') (htrace : w'.trace = w.trace ++ acts) : StaysInStep w a c := by
  refine ⟨w', ?_, ?_, ?_⟩
  · rw [hstep, hperform]
  · rw [hstep]
    exact hsim
  · rw [hstep]
    exact htrace

namespace Simulates

variable {w : World A D} {a : Automaton A} {s : StateId} (h : Simulates w a)
include h

theorem exists_state (hs : a.table s ≠ none) : ∃ st, w.states s = some st :=
  Option.ne_none_iff_exists'.1 fun hnone ↦ hs ((h.allocated s).1 hnone)

/-- Registered states are in memory, under their keys. -/
theorem registered {key : UInt32} (hkey : a.stateOf key = some s) :
    ∃ st, w.states s = some st ∧ st.stKey = key := by
  obtain ⟨es, _, hreg⟩ := h.states
  exact (hreg.found key s hkey).2

/-- An object gets another table, or is new. -/
theorem storeState {st : StateObj A}
    (hkeep : ∀ old, w.states s = some old → st.stKey = old.stKey)
    {δ : UInt32 → Option (Transition A)} (hevents : EventsHold st.evttable δ) :
    Simulates { w with states := StateMachine.storeState w.states s st } (a.setEvents s δ) where
  states := h.states.keep fun key s' _ st' hst' ↦ by
    by_cases heq : s' = s
    · subst heq
      exact ⟨st, storeState_self .., hkeep st' hst'⟩
    · exact ⟨st', (storeState_of_ne _ _ heq).trans hst', rfl⟩
  allocated s' := by
    rw [a.setEvents_table_eq_none_iff, ← h.allocated s']
    dsimp only
    by_cases heq : s' = s
    · simp [heq]
    · simp [heq, storeState_of_ne]
  events s' st' hst' := by
    dsimp only at hst'
    by_cases heq : s' = s
    · subst heq
      rw [storeState_self, Option.some.injEq] at hst'
      rwa [← hst', a.events_setEvents_self]
    · rw [storeState_of_ne _ _ heq] at hst'
      rw [a.events_setEvents_of_ne δ heq]
      exact h.events s' st' hst'
  cstate := h.cstate
  current := h.current

theorem storeEvents {st : StateObj A} (hst : w.states s = some st) {t : HTable UInt32 (Event A)}
    {δ : UInt32 → Option (Transition A)} (hevents : EventsHold t δ) :
    Simulates { w with states := StateMachine.storeState w.states s { st with evttable := t } }
      (a.setEvents s δ) := by
  refine h.storeState (fun old hold ↦ ?_) hevents
  have hsame : st = old := Option.some.inj (hst.symm.trans hold)
  rw [← hsame]

/-- Flags do not matter. -/
theorem of_same {mem : StateMem A} (hsame : SameButFlags w.states mem) :
    Simulates { w with states := mem } a where
  states := h.states.keep fun key s _ st hst ↦ by
    obtain ⟨st', hst', _, hkey⟩ := hsame.exists_eq hst
    exact ⟨st', hst', hkey⟩
  allocated s := hsame.none_iff.trans (h.allocated s)
  events s st' hst' := by
    obtain ⟨st, hst, htable, _⟩ := hsame.symm.exists_eq hst'
    rw [← htable]
    exact h.events s st hst
  cstate := h.cstate
  current := h.current

theorem sttable_indexed : w.fsm.sttable.Indexed := by
  obtain ⟨es, hholds, _⟩ := h.states
  exact hholds.indexed

/-- The iterators meet nothing but registered states and events that lead to them. -/
theorem entryOk (htargets : a.TargetsRegistered) :
    ∀ n ∈ w.fsm.sttable.htTable.flatten, EntryOk w.states n := by
  intro n hn
  obtain ⟨es, hholds, hreg⟩ := h.states
  obtain ⟨s, st, rfl, hst, hkey⟩ := hreg.entry n (hholds.flatten_perm.mem_iff.1 hn)
  obtain ⟨evs, hevholds, hhandles⟩ := h.events s st hst
  refine ⟨s, st, rfl, hst, hevholds.indexed, fun e he ↦ ?_⟩
  obtain ⟨ev, hdata, htr⟩ := hhandles.entry e (hevholds.flatten_perm.mem_iff.1 he)
  obtain ⟨t, key', htarget, hkey'⟩ := htargets _ s hkey e.hnKey _ htr
  obtain ⟨new, hnew, _⟩ := h.registered hkey'
  refine ⟨t, ?_, by rw [hnew]; exact Option.some_ne_none new⟩
  exact (eventTarget_eq hdata).trans htarget

theorem stateInit {mallocs : StateMallocs} {key : UInt32} {flag : FlagByte} {size factor : ℕ}
    (hallow : (Call.stateInit mallocs key flag size factor : Call A D).Allowed a)
    (hfits : size * sizeofHhead < sizeModulus) :
    StaysInStep w a (.stateInit mallocs key flag size factor) := by
  obtain ⟨⟨s, hs, hnew⟩, hevttable, hheads, hstKey, k, hsize⟩ := hallow
  have hinit : htableInit mallocs.heads size factor =
      .ok (.ok, some (emptyTable (K := UInt32) (D := Event A) size factor)) :=
    htableInit_ok_iff.2 ⟨hheads, hfits, rfl⟩
  have hempty : EventsHold (emptyTable size factor) fun _ ↦ (none : Option (Transition A)) := by
    subst hsize
    exact ⟨[], emptyTable_holds _ hfits, .nil⟩
  have hkeep : ∀ old, w.states s = some old → key = old.stKey := fun old hold ↦ by
    rw [(h.allocated s).2 hnew] at hold
    cases hold
  let st : StateObj A := ⟨emptyTable size factor, key, flag⟩
  have hperform : perform w (.stateInit mallocs key flag size factor) = .ok (.st .ok,
      { w with states := StateMachine.storeState w.states s st.markAsUnreachable }) := by
    rw [perform, StateMachine.stateInit, hs, hevttable, hinit, hstKey]
    rfl
  have hstep : a.step (.stateInit mallocs key flag size factor : Call A D) =
      (.st .ok, a.setEvents s fun _ ↦ none, []) := by
    rw [Automaton.step, hs]
  have hsim : Simulates
      { w with states := StateMachine.storeState w.states s st.markAsUnreachable }
      (a.setEvents s fun _ ↦ none) := h.storeState hkeep hempty
  exact .of_eq hperform hstep hsim (List.append_nil _).symm

theorem stateAddEvt {mallocs : EventMallocs} {key : UInt32} {pdesc : List UInt8}
    {pactionf : Option A} {pnewstate : Option StateId}
    (hallow : (Call.stateAddEvt mallocs s key pdesc pactionf pnewstate : Call A D).Allowed a)
    (hfits : (Call.stateAddEvt mallocs s key pdesc pactionf pnewstate : Call A D).Fits w) :
    StaysInStep w a (.stateAddEvt mallocs s key pdesc pactionf pnewstate) := by
  obtain ⟨hs, hkeymalloc, hevent, hnode, _⟩ := hallow
  obtain ⟨st, hst⟩ := h.exists_state hs
  have htable := h.events s st hst
  by_cases hkey : a.events s key = none
  · obtain ⟨t, hadd, hevents⟩ := htable.stateAddEvt_new hst hkeymalloc hevent hnode hkey
      (hfits st hst)
    have hperform : perform w (.stateAddEvt mallocs s key pdesc pactionf pnewstate) =
        .ok (.st .ok, { w with
          states := StateMachine.storeState w.states s { st with evttable := t } }) := by
      rw [perform, hadd, Exec.ok_bind]
      rfl
    exact .of_eq hperform (if_pos hkey) (h.storeEvents hst hevents) (List.append_nil _).symm
  · have hadd := htable.stateAddEvt_existing hst hkeymalloc hevent hkey pdesc pactionf pnewstate
    have hperform : perform w (.stateAddEvt mallocs s key pdesc pactionf pnewstate) =
        .ok (.st .existing, w) := by
      rw [perform, hadd, Exec.ok_bind]
      rfl
    exact .of_eq hperform (if_neg hkey) h (List.append_nil _).symm

theorem stateRemEvt (hs : a.table s ≠ none) (key : UInt32) :
    StaysInStep w a (.stateRemEvt s key : Call A D) := by
  obtain ⟨st, hst⟩ := h.exists_state hs
  obtain ⟨t, hrem, hevents⟩ := (h.events s st hst).stateRemEvt_eq hst key
  have hsim := h.storeEvents hst hevents
  have hperform : perform w (.stateRemEvt s key) =
      .ok (.st (if a.events s key = none then .notfound else .ok), { w with
        states := StateMachine.storeState w.states s { st with evttable := t } }) := by
    rw [perform, hrem, Exec.ok_bind]
    rfl
  by_cases hkey : a.events s key = none
  · have hsame : Function.update (a.events s) key none = a.events s := by
      rw [← hkey, Function.update_eq_self]
    rw [hsame, a.setEvents_events hs] at hsim
    rw [if_pos hkey] at hperform
    exact .of_eq hperform (if_pos hkey) hsim (List.append_nil _).symm
  · rw [if_neg hkey] at hperform
    exact .of_eq hperform (if_neg hkey) hsim (List.append_nil _).symm

theorem addState {mallocs : InsertMallocs} {key : UInt32}
    (hallow : (Call.addState mallocs key s : Call A D).Allowed a)
    (hfits : (Call.addState mallocs key s : Call A D).Fits w) :
    StaysInStep w a (.addState mallocs key s) := by
  obtain ⟨hs, hkey, hfresh, hnode, _⟩ := hallow
  obtain ⟨st, hst⟩ := h.exists_state hs
  let mem := StateMachine.storeState w.states s { st with stKey := key }
  have hold : ∀ s', s' ≠ s → mem s' = w.states s' := fun s' hne ↦ storeState_of_ne _ _ hne
  have hnew : mem s = some { st with stKey := key } := storeState_self ..
  -- overwriting the key of an object that is not registered does not disturb the table
  have hkeep : TableHolds mem w.fsm.sttable a.stateOf := h.states.keep fun key' s' hs' st' hst' ↦
    ⟨st', (hold s' fun heq ↦ hfresh key' (heq ▸ hs')).trans hst', rfl⟩
  obtain ⟨t, hinsert, htable⟩ := hkeep.insert hnew rfl hkey hnode (hfits st hst)
  have hperform : perform w (.addState mallocs key s) = .ok (.fsm .ok, { w with
      states := mem, fsm := { w.fsm with sttable := t } }) := by
    rw [perform, fsmAddState, loadState_eq hst, Exec.ok_bind]
    change (htableInsert (fsmCallbacks mem).toCallbacks _ _ _ _ >>= _) >>= _ = _
    rw [hinsert]
    rfl
  have hsim : Simulates { w with states := mem, fsm := { w.fsm with sttable := t } }
      { a with stateOf := Function.update a.stateOf key (some s) } := by
    refine ⟨htable, fun s' ↦ ?_, fun s' st' hst' ↦ ?_, h.cstate, fun s' hs' ↦ ?_⟩
    · by_cases heq : s' = s
      · subst heq
        exact iff_of_false (by simp [hnew]) hs
      · exact (iff_of_eq (congrArg (· = none) (hold s' heq))).trans (h.allocated s')
    · by_cases heq : s' = s
      · subst heq
        have hobj : { st with stKey := key } = st' := Option.some.inj (hnew.symm.trans hst')
        rw [← hobj]
        exact h.events s' st hst
      · exact h.events s' st' ((hold s' heq).symm.trans hst')
    · obtain ⟨key', hkey'⟩ := h.current s' hs'
      have hne : key' ≠ key := by
        intro heq
        rw [heq, hkey] at hkey'
        cases hkey'
      exact ⟨key', (Function.update_of_ne hne ..).trans hkey'⟩
  exact .of_eq hperform (if_pos hkey) hsim (List.append_nil _).symm

theorem fsmSetState_eq (htargets : a.TargetsRegistered) {key : UInt32}
    (hkey : a.stateOf key = some s) :
    fsmSetState w key = .ok (.ok, { w with
      states := w.sweepOrder.foldl sweepState (flagState w.states s)
      fsm := { w.fsm with cstate := some s } }) := by
  obtain ⟨st, hst, _⟩ := h.registered hkey
  have hsim := h.of_same (.flagState w.states s)
  have hmark := fsmMarkReachableStates_eq hsim.sttable_indexed (hsim.entryOk htargets)
  rw [fsmSetState, h.states.search (.caller key), readKey, hkey, Exec.ok_bind]
  change loadState w.states s >>= _ = _
  rw [loadState_eq hst, Exec.ok_bind, storeState_markAsReachable hst]
  dsimp only
  rw [hmark]
  rfl

theorem fsmSetState_none {key : UInt32} (hkey : a.stateOf key = none) :
    fsmSetState w key = .ok (.enotfound, w) := by
  rw [fsmSetState, h.states.search (.caller key), readKey, hkey]
  rfl

theorem setState (htargets : a.TargetsRegistered) (key : UInt32) :
    StaysInStep w a (.setState key : Call A D) := by
  cases hkey : a.stateOf key with
  | none =>
      have hperform : perform w (.setState key) = .ok (.fsm .enotfound, w) := by
        rw [perform, h.fsmSetState_none hkey]
        rfl
      have hstep : a.step (.setState key : Call A D) = (.fsm .enotfound, a, []) := by
        rw [Automaton.step, hkey]
      exact .of_eq hperform hstep h (List.append_nil _).symm
  | some s =>
      have hperform : perform w (.setState key) = .ok (.fsm .ok, { w with
          states := w.sweepOrder.foldl sweepState (flagState w.states s)
          fsm := { w.fsm with cstate := some s } }) := by
        rw [perform, h.fsmSetState_eq htargets hkey]
        rfl
      have hstep : a.step (.setState key : Call A D) =
          (.fsm .ok, { a with current := some s }, []) := by
        rw [Automaton.step, hkey]
      have hsim := h.of_same
        ((SameButFlags.flagState w.states s).trans (sameButFlags_sweep _ w.sweepOrder))
      have hsim' : Simulates { w with
          states := w.sweepOrder.foldl sweepState (flagState w.states s)
          fsm := { w.fsm with cstate := some s } } { a with current := some s } :=
        ⟨hsim.states, hsim.allocated, hsim.events, rfl, fun s' hs' ↦ ⟨key, hkey.trans hs'⟩⟩
      exact .of_eq hperform hstep hsim' (List.append_nil _).symm

theorem processEvent (hcurrent : a.current ≠ none) (htargets : a.TargetsRegistered)
    (evtkey : UInt32) (data : D) : StaysInStep w a (.processEvent evtkey data) := by
  obtain ⟨s, hs⟩ := Option.ne_none_iff_exists'.1 hcurrent
  obtain ⟨key, hkey⟩ := h.current s hs
  obtain ⟨st, hst, _⟩ := h.registered hkey
  have hload := World.currentState_eq (h.cstate.trans hs) hst
  obtain ⟨pevt, hsearch, htr⟩ := (h.events s st hst).search evtkey
  cases pevt with
  | none =>
      have hperform : perform w (.processEvent evtkey data) = .ok (.fsm .enotfound, w) := by
        rw [perform, fsmProcessEvent, hload, Exec.ok_bind, hsearch]
        rfl
      have hstep : a.step (.processEvent evtkey data) = (.fsm .enotfound, a, []) := by
        rw [Automaton.step, hs, Option.bind_some, ← htr]
        rfl
      exact .of_eq hperform hstep h (List.append_nil _).symm
  | some ev =>
      obtain ⟨t, key', htarget, hkey'⟩ := htargets key s hkey evtkey _ htr.symm
      obtain ⟨new, hnew, hnewkey⟩ := h.registered hkey'
      have hevent : ev.evtNewstate = some t := htarget
      have hfound : htableSearch (fsmCallbacks w.states) w.fsm.sttable (.stKey t) =
          .ok (some t) := by
        rw [h.states.search, readKey_stKey hnew, hnewkey, hkey']
      have hperform : perform w (.processEvent evtkey data) = .ok (.fsm .ok, { w with
          fsm := { w.fsm with cstate := some t }
          trace := w.trace ++ (ev.evtActionf.map fun f ↦ (f, data)).toList }) := by
        rw [perform, fsmProcessEvent, hload, Exec.ok_bind, hsearch, Exec.ok_bind]
        dsimp only
        rw [callAction_leaveAlone, Exec.ok_bind, hevent]
        dsimp only
        rw [loadState_eq hnew, Exec.ok_bind, hfound]
        rfl
      have hstep : a.step (.processEvent evtkey data) = (.fsm .ok, { a with current := some t },
          (ev.evtActionf.map fun f ↦ (f, data)).toList) := by
        rw [Automaton.step, hs, Option.bind_some, ← htr, Option.map_some]
        dsimp only
        rw [htarget]
        rfl
      have hsim : Simulates { w with
          fsm := { w.fsm with cstate := some t }
          trace := w.trace ++ (ev.evtActionf.map fun f ↦ (f, data)).toList }
          { a with current := some t } :=
        ⟨h.states, h.allocated, h.events, rfl, fun s' hs' ↦ ⟨key', hkey'.trans hs'⟩⟩
      exact .of_eq hperform hstep hsim rfl

/-- Every allowed call keeps the machine and the automaton in step. -/
theorem step {c : Call A D} (hallow : c.Allowed a) (hfits : c.Fits w) : StaysInStep w a c := by
  cases c with
  | stateInit mallocs key flag size factor => exact h.stateInit hallow hfits
  | stateAddEvt mallocs pstate key pdesc pactionf pnewstate => exact h.stateAddEvt hallow hfits
  | stateRemEvt pstate key => exact h.stateRemEvt hallow key
  | addState mallocs key pstate => exact h.addState hallow hfits
  | setState stkey => exact h.setState hallow stkey
  | processEvent evtkey data => exact h.processEvent hallow.1 hallow.2 evtkey data

/-- A proper run keeps the machine and the automaton in step. -/
theorem run {calls : List (Call A D)} (hproper : Proper w a calls) :
    ∃ w', performAll w calls = .ok ((a.run calls).1, w') ∧ Simulates w' (a.run calls).2.1 ∧
      w'.trace = w.trace ++ (a.run calls).2.2 := by
  induction calls generalizing w a with
  | nil => exact ⟨w, rfl, h, (List.append_nil _).symm⟩
  | cons c calls ih =>
      obtain ⟨hallow, hfits, hrest⟩ := hproper
      obtain ⟨w₁, hperform, hsim, htrace⟩ := h.step hallow hfits
      rw [hperform] at hrest
      obtain ⟨w', hrun, hsim', htrace'⟩ := ih hsim hrest
      refine ⟨w', performAll_cons hperform hrun, hsim', ?_⟩
      rw [htrace', htrace, List.append_assoc]
      rfl

/-- The key that a machine reports is the only one under which the current state is registered. -/
theorem getCurrentState (hs : a.current = some s) :
    ∃ key, fsmGetCurrentState w = .ok key ∧ ∀ key', a.stateOf key' = some s ↔ key' = key := by
  obtain ⟨key, hkey⟩ := h.current s hs
  obtain ⟨st, hst, hsame⟩ := h.registered hkey
  refine ⟨key, ?_, fun key' ↦ ⟨fun hkey' ↦ ?_, fun heq ↦ heq ▸ hkey⟩⟩
  · rw [fsmGetCurrentState, World.currentState_eq (h.cstate.trans hs) hst, Exec.ok_bind, hsame]
    rfl
  · obtain ⟨st', hst', hsame'⟩ := h.registered hkey'
    rw [hst, Option.some.injEq] at hst'
    rw [← hsame, hst', hsame']

end Simulates

/-- A machine simulates the empty automaton before anything is done with it. -/
theorem simulates_of_fsmInit {mallocs : FsmMallocs} {k factor : ℕ} {nqueues : UInt32} {fsm : Fsm D}
    (hinit : fsmInit mallocs (2 ^ k) factor nqueues = .ok (.ok, some fsm)) :
    Simulates (start A fsm) .empty := by
  obtain ⟨hfits, rfl⟩ := fsmInit_ok hinit
  constructor
  case states => exact ⟨[], emptyTable_holds _ hfits, .nil _⟩
  case allocated => exact fun _ ↦ iff_of_true rfl rfl
  case events => exact fun _ _ hst ↦ by cases hst
  case cstate => rfl
  case current => exact fun _ hs ↦ by cases hs

/-- Every proper run of a machine answers and executes what its automaton answers and executes, and
ends in the state that the automaton ends in. -/
theorem performAll_eq_run {mallocs : FsmMallocs} {k factor : ℕ} {nqueues : UInt32} {fsm : Fsm D}
    (hinit : fsmInit mallocs (2 ^ k) factor nqueues = .ok (.ok, some fsm))
    {calls : List (Call A D)} (hproper : Proper (start A fsm) .empty calls) :
    ∃ w, performAll (start A fsm) calls = .ok ((Automaton.empty.run calls).1, w) ∧
      w.trace = (Automaton.empty.run calls).2.2 ∧
      ∀ s, (Automaton.empty.run calls).2.1.current = some s →
        ∃ key, fsmGetCurrentState w = .ok key ∧
          ∀ key', (Automaton.empty.run calls).2.1.stateOf key' = some s ↔ key' = key := by
  obtain ⟨w, hrun, hsim, htrace⟩ := (simulates_of_fsmInit hinit).run hproper
  exact ⟨w, hrun, htrace, fun s hs ↦ hsim.getCurrentState hs⟩

/-- A machine with a table of two heads. -/
def turnstileFsm : Fsm ℕ := ⟨emptyTable 2 1, none, 1, [[]]⟩

/-- Two states, and an event that leads from the first to the second and calls the function `9`.  It
is processed twice. -/
def turnstileCalls : List (Call ℕ ℕ) :=
  [.stateInit ⟨some 0, true, true, true⟩ 0 0 1 1, .stateInit ⟨some 1, true, true, true⟩ 0 0 1 1,
    .stateAddEvt ⟨true, true, ⟨true, true⟩⟩ 0 3 [] (some 9) (some 1),
    .addState ⟨true, true⟩ 5 0, .addState ⟨true, true⟩ 7 1,
    .setState 5, .processEvent 3 40, .processEvent 3 41]

theorem turnstile_targets {a : Automaton ℕ}
    (hstateOf : a.stateOf = Function.update (Function.update (fun _ ↦ none) 5 (some 0)) 7 (some 1))
    (hfirst : a.events 0 = Function.update (fun _ ↦ none) 3 (some ⟨some 9, some 1⟩))
    (hsecond : a.events 1 = fun _ ↦ none) : a.TargetsRegistered := by
  intro k s hk e tr htr
  have hs : s = 0 ∨ s = 1 := by
    rw [hstateOf, Function.update_apply, Function.update_apply] at hk
    grind
  rcases hs with rfl | rfl
  · rw [hfirst, Function.update_apply] at htr
    exact ⟨1, 7, by grind, by rw [hstateOf]; rfl⟩
  · rw [hsecond] at htr
    cases htr

theorem turnstile_proper : Proper (start ℕ turnstileFsm) .empty turnstileCalls := by
  have hsmall : 1 * sizeofHhead < sizeModulus := by decide
  have hdistinct : ∀ k : UInt32, Function.update (fun _ ↦ none) 5 (some 0) k ≠ some 1 := by
    intro k
    rw [Function.update_apply]
    split
    · decide
    · decide
  refine ⟨⟨⟨0, rfl, rfl⟩, rfl, rfl, rfl, 0, rfl⟩, hsmall, ?_⟩
  refine ⟨⟨⟨1, rfl, rfl⟩, rfl, rfl, rfl, 0, rfl⟩, hsmall, ?_⟩
  refine ⟨⟨Option.some_ne_none _, rfl, rfl, rfl, rfl⟩, fun st hst ↦ ?_, ?_⟩
  · cases hst
    exact fun _ _ _ _ ↦ by decide
  refine ⟨⟨Option.some_ne_none _, rfl, fun _ hk ↦ Option.some_ne_none _ hk.symm, rfl, rfl⟩,
    fun st hst ↦ ?_, ?_⟩
  · cases hst
    exact fun _ _ _ _ ↦ by decide
  refine ⟨⟨Option.some_ne_none _, rfl, hdistinct, rfl, rfl⟩, fun st hst ↦ ?_, ?_⟩
  · cases hst
    exact fun _ _ _ _ ↦ by decide
  refine ⟨turnstile_targets rfl rfl rfl, trivial, ?_⟩
  refine ⟨⟨Option.some_ne_none _, turnstile_targets rfl rfl rfl⟩, trivial, ?_⟩
  exact ⟨⟨Option.some_ne_none _, turnstile_targets rfl rfl rfl⟩, trivial, trivial⟩

/-- The event is taken once, and refused in the second state. -/
theorem turnstile_run : ∃ w, performAll (start ℕ turnstileFsm) turnstileCalls =
      .ok ([.st .ok, .st .ok, .st .ok, .fsm .ok, .fsm .ok, .fsm .ok, .fsm .ok, .fsm .enotfound],
        w) ∧ w.trace = [(9, 40)] ∧ fsmGetCurrentState w = .ok 7 := by
  have hinit : fsmInit ⟨true, true, true, true, true⟩ (2 ^ 1) 1 1 =
      .ok (.ok, some turnstileFsm) := rfl
  obtain ⟨w, hrun, htrace, hcurrent⟩ := performAll_eq_run hinit turnstile_proper
  obtain ⟨key, hkey, honly⟩ := hcurrent 1 rfl
  have hseven : (7 : UInt32) = key := (honly 7).1 rfl
  exact ⟨w, hrun, htrace, hseven ▸ hkey⟩

end Experimentation.StateMachine
