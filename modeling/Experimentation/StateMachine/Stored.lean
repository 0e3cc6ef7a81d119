import Experimentation.StateMachine.Registration

/-!
# What a return promises

`fsm_add_state` and `state_add_evt` hand an object to `htable_insert`, and only ask whether its key
was there already.  An insertion that got no memory for the node is therefore reported as a success.
It is the only way in which an event can be lost.  A state can also be shadowed: the nodes of states
whose keys were overwritten stay where they are until the table grows, and a growth then puts them
before the new one.  A state that is refused keeps the new key, and so does its entry if it has one.
-/

namespace Experimentation.StateMachine

open Semantics HashTable

variable {A D : Type}

/-- The entries of the table of states, each under the key that it points to. -/
def World.entries (w : World A D) : List (List (UInt32 × Option StateId)) :=
  w.fsm.sttable.htTable.map (List.map fun n ↦ (readKey w.states n.hnKey, n.hnData))

/-- The answer of `fsm_add_state` is right: the state is found under the key, or the table and the
keys of its entries are as they were. -/
def StateAnswer (w w' : World A D) (key : UInt32) (pstate : StateId) (r : FsmRet) : Prop :=
  if r = .ok then
    htableSearch (fsmCallbacks w'.states) w'.fsm.sttable (.caller key) = .ok (some pstate)
  else
    w'.fsm.sttable = w.fsm.sttable ∧ w'.entries = w.entries

/-- The answer of `state_add_evt` is right: an event with the action and the target is found under
the key, or the table of the state is as it was. -/
def EventAnswer (mem mem' : StateMem A) (pstate : StateId) (key : UInt32) (pactionf : Option A)
    (pnewstate : Option StateId) (r : StRet) : Prop :=
  if r = .ok then
    ∃ st ev, mem' pstate = some st ∧ htableSearch stateCallbacks st.evttable key = .ok (some ev) ∧
      ev.evtActionf = pactionf ∧ ev.evtNewstate = pnewstate
  else
    (mem' pstate).map StateObj.evttable = (mem pstate).map StateObj.evttable

/-- A key that is found is not that of a state which is registered under another one.  A key that is
not found gets a node, and if the table is resized, no node that comes first under the key is that
of another state. -/
def StateFits (mallocs : InsertMallocs) (w : World A D) (key : UInt32) (pstate : StateId) : Prop :=
  ∀ st, w.states pstate = some st →
    let cb := fsmCallbacks (storeState w.states pstate { st with stKey := key })
    (w.fsm.sttable.findNode cb (.stKey pstate) ≠ .ok none →
      pstate ∈ w.registered → st.stKey = key) ∧
    (w.fsm.sttable.findNode cb (.stKey pstate) = .ok none →
      mallocs.node = true ∧ (w.fsm.sttable.Resizes mallocs.heads →
        ∀ n, (w.fsm.sttable.nodesBefore cb (.stKey pstate)).find? (cb.sameKey (.stKey pstate)) =
          some n → n.hnData = some pstate))

/-- A key that is not found gets a node, if the event and its key have got their memory. -/
def EventFits (mallocs : EventMallocs) (mem : StateMem A) (pstate : StateId) (key : UInt32) :
    Prop :=
  ∀ st, mem pstate = some st → st.evttable.findNode stateCallbacks key = .ok none →
    mallocs.key = true → mallocs.event = true → mallocs.insert.node = true

/-! ## Where the nodes are -/

/-- The tables have their nodes, those of states point to the keys of the states, and the events are
in their places under distinct keys, unless there are no heads. -/
structure World.InPlace (w : World A D) : Prop where
  sttable : w.fsm.sttable.Tidy
  entry : ∀ n, w.fsm.sttable.HasNode n → ∃ s, n = ⟨.stKey s, some s⟩
  evttable : ∀ s st, w.states s = some st →
    st.evttable.Keyed stateCallbacks ∨ st.evttable.htTable = []

/-- It is so in a machine that `fsm_init` returned. -/
theorem World.InPlace.start {mallocs : FsmMallocs} {size factor : ℕ} {nqueues : UInt32}
    {fsm : Fsm D} (hinit : fsmInit mallocs size factor nqueues = .ok (.ok, some fsm)) :
    (start A fsm).InPlace := by
  obtain ⟨hfits, rfl⟩ := fsmInit_ok hinit
  exact ⟨emptyTable_tidy hfits, fun n hn ↦ absurd hn not_hasNode_emptyTable,
    fun s st hst ↦ by cases hst⟩

namespace World.InPlace

variable {w w' : World A D} (h : w.InPlace)
include h

/-- An object is new or gets another table. -/
theorem store {s : StateId} {st : StateObj A}
    (hkeyed : st.evttable.Keyed stateCallbacks ∨ st.evttable.htTable = []) :
    World.InPlace { w with states := storeState w.states s st } where
  sttable := h.sttable
  entry := h.entry
  evttable _ _ hst' := forall_storeState hkeyed h.evttable hst'

/-- No call moves an event from its place. -/
theorem effect {c : Call A D} (heffect : Effect w c w') : w'.InPlace := by
  cases heffect with
  | nothing => exact h
  | stateInit s hfits =>
      rename_i size factor
      apply h.store
      rcases Nat.eq_zero_or_pos size with hzero | hpos
      · exact .inr (by rw [hzero]; rfl)
      · exact .inl (emptyTable_keyed hpos hfits)
  | stateAddEvt hst hinsert =>
      apply h.store
      rcases h.evttable _ _ hst with hkeyed | hempty
      · exact .inl (hkeyed.htableInsert hinsert)
      · rw [HTable.htableInsert_of_no_heads hempty] at hinsert
        cases hinsert
  | stateRemEvt hst hfree =>
      apply h.store
      rcases h.evttable _ _ hst with hkeyed | hempty
      · exact .inl (hkeyed.htableFreeObj hfree)
      · rw [HTable.htableFreeObj_of_no_heads hempty] at hfree
        cases hfree
  | @addState mallocs key s st r t hst hinsert =>
      have hstore : World.InPlace { w with
          states := storeState w.states s { st with stKey := key } } :=
        h.store (h.evttable s st hst)
      obtain ⟨htidy, _, hnodes⟩ := h.sttable.htableInsert hinsert
      refine ⟨htidy, fun n hn ↦ ?_, hstore.evttable⟩
      exact (hnodes n hn).elim (h.entry n) fun hnew ↦ ⟨s, hnew⟩
  | setState hs hsame =>
      refine ⟨h.sttable, h.entry, fun s' st' hst' ↦ ?_⟩
      obtain ⟨st, hst, htable, _⟩ := hsame.symm.exists_eq hst'
      exact htable ▸ h.evttable s' st hst
  | processEvent trace hcstate => exact ⟨h.sttable, h.entry, h.evttable⟩

/-- No run of calls moves an event from its place. -/
theorem performAll {cs : List (Call A D)} {rs : List Ret} (hrun : performAll w cs = .ok (rs, w')) :
    w'.InPlace := by
  induction cs generalizing w rs with
  | nil =>
      cases hrun
      exact h
  | cons c cs ih =>
      obtain ⟨⟨r, w₁⟩, hcall, hrest⟩ := Exec.bind_eq_ok.1 hrun
      obtain ⟨⟨rs', w₂⟩, hrest, heq⟩ := Exec.bind_eq_ok.1 hrest
      cases heq
      exact ih (h.effect (effect_of_perform hcall)) hrest

end World.InPlace

section Call

variable {w : World A D} {s : StateId}

theorem stateAddEvt_of_no_memory {mem : StateMem A} {mallocs : EventMallocs} {key : UInt32}
    {pdesc : List UInt8} {pactionf : Option A} {pnewstate : Option StateId}
    (hmalloc : ¬ (mallocs.key = true ∧ mallocs.event = true)) :
    stateAddEvt mem mallocs s key pdesc pactionf pnewstate = .ok (.nomem, mem) := by
  unfold stateAddEvt
  cases hkey : mallocs.key with
  | false => rfl
  | true =>
      cases hevent : mallocs.event with
      | false => rfl
      | true => exact absurd ⟨hkey, hevent⟩ hmalloc

theorem stateAddEvt_eq {mem : StateMem A} {mallocs : EventMallocs} {key : UInt32}
    {pdesc : List UInt8} {pactionf : Option A} {pnewstate : Option StateId} {st : StateObj A}
    (hst : mem s = some st) (hkey : mallocs.key = true) (hevent : mallocs.event = true) :
    stateAddEvt mem mallocs s key pdesc pactionf pnewstate =
      htableInsert stateCallbacks mallocs.insert st.evttable key
          (some ⟨strncpy pdesc maxEvtDesc, pactionf, pnewstate⟩) >>= fun r ↦
        .ok (if r.1 = .existing then .existing else .ok,
          storeState mem s { st with evttable := r.2 }) := by
  rw [stateAddEvt, hkey, hevent, loadState_eq hst]
  change (htableInsert _ _ _ _ _ >>= _) = _
  congr 1
  funext r
  obtain ⟨ret, t⟩ := r
  cases ret <;> rfl

theorem stateAddEvt_of_no_state {mem : StateMem A} {mallocs : EventMallocs} {key : UInt32}
    {pdesc : List UInt8} {pactionf : Option A} {pnewstate : Option StateId}
    (hst : mem s = none) (hkey : mallocs.key = true) (hevent : mallocs.event = true) :
    stateAddEvt mem mallocs s key pdesc pactionf pnewstate = .error .badPointer := by
  rw [stateAddEvt, hkey, hevent, loadState, hst]
  rfl

theorem eventAnswer_of_findNode {mem : StateMem A} {st : StateObj A} {key : UInt32} {ev : Event A}
    {t : HTable UInt32 (Event A)}
    (hfind : t.findNode stateCallbacks key = .ok (some ⟨key, some ev⟩)) :
    EventAnswer mem (storeState mem s { st with evttable := t }) s key ev.evtActionf
      ev.evtNewstate .ok := by
  refine (if_pos rfl).mpr ⟨_, ev, storeState_self .., ?_, rfl, rfl⟩
  rw [htableSearch, hfind]
  rfl

theorem insertEvent_iff {mem : StateMem A} {st : StateObj A} (hst : mem s = some st)
    (h : st.evttable.Placed stateCallbacks) (mallocs : InsertMallocs) (key : UInt32)
    (ev : Event A) :
    (∀ r mem', (htableInsert stateCallbacks mallocs st.evttable key (some ev) >>= fun r ↦
          .ok (if r.1 = .existing then StRet.existing else StRet.ok,
            storeState mem s { st with evttable := r.2 })) = .ok (r, mem') →
        EventAnswer mem mem' s key ev.evtActionf ev.evtNewstate r) ↔
      (st.evttable.findNode stateCallbacks key = .ok none → mallocs.node = true) := by
  cases h.toSound.insert_step stateCallbacks key (some ev) mallocs with
  | existing n hfind hrun =>
      rw [hrun, Exec.ok_bind, Exec.forall_ok_eq_iff, hfind]
      have hne : StRet.existing ≠ .ok := by decide
      refine iff_of_true ((if_neg hne).mpr ?_) fun hnone ↦ ?_
      · rw [storeState_self, hst]
      · cases hnone
  | nomem hfind hnode hrun =>
      rw [hrun, Exec.ok_bind, Exec.forall_ok_eq_iff, hfind]
      refine iff_of_false (fun hright ↦ ?_) fun hfits ↦ ?_
      · obtain ⟨st', ev', hst', hsearch, _⟩ := (if_pos rfl).mp hright
        rw [storeState_self] at hst'
        cases hst'
        rw [htableSearch, hfind] at hsearch
        cases hsearch
      · rw [hfits rfl] at hnode
        contradiction
  | added hfind hnode _ hrun =>
      rw [hrun, Exec.ok_bind, Exec.forall_ok_eq_iff]
      have hfound := h.toSound.findNode_withNode hfind (some ev)
      exact iff_of_true (eventAnswer_of_findNode hfound) fun _ ↦ hnode
  | resized hfind hnode _ _ _ hrun =>
      rw [hrun, Exec.ok_bind, Exec.forall_ok_eq_iff]
      have hfound := h.toSound.findNode_resized hfind (some ev) (wrapSize (st.evttable.htGrows + 1))
      rw [h.find?_nodesBefore hfind, Option.none_or] at hfound
      exact iff_of_true (eventAnswer_of_findNode hfound) fun _ ↦ hnode
  | unresized hfind hnode _ _ hrun =>
      rw [hrun, Exec.ok_bind, Exec.forall_ok_eq_iff]
      have hfound := h.toSound.findNode_withNode hfind (some ev)
      exact iff_of_true (eventAnswer_of_findNode hfound) fun _ ↦ hnode
  | overflows fault _ hnode _ _ _ hrun =>
      rw [hrun]
      exact iff_of_true (Exec.forall_error_eq fault _) fun _ ↦ hnode

/-- The answer of a call that stores an event is right, unless the memory of its node is missing. -/
theorem World.InPlace.eventAnswer_iff (h : w.InPlace) (mallocs : EventMallocs) (s : StateId)
    (key : UInt32) (pdesc : List UInt8) (pactionf : Option A) (pnewstate : Option StateId) :
    (∀ r mem', stateAddEvt w.states mallocs s key pdesc pactionf pnewstate = .ok (r, mem') →
        EventAnswer w.states mem' s key pactionf pnewstate r) ↔
      EventFits mallocs w.states s key := by
  by_cases hmalloc : mallocs.key = true ∧ mallocs.event = true
  case neg =>
    refine iff_of_true (fun r mem' hrun ↦ ?_) fun _ _ _ hkey hevent ↦ absurd ⟨hkey, hevent⟩ hmalloc
    rw [stateAddEvt_of_no_memory hmalloc] at hrun
    cases hrun
    rfl
  cases hst : w.states s with
  | none =>
      refine iff_of_true (fun r mem' hrun ↦ ?_) fun st hst' ↦ ?_
      · rw [stateAddEvt_of_no_state hst hmalloc.1 hmalloc.2] at hrun
        cases hrun
      · rw [hst] at hst'
        cases hst'
  | some st =>
      have hfits_iff : EventFits mallocs w.states s key ↔
          (st.evttable.findNode stateCallbacks key = .ok none → mallocs.insert.node = true) := by
        constructor
        · exact fun hfits hnone ↦ hfits st hst hnone hmalloc.1 hmalloc.2
        · intro hnode st' hst' hnone _ _
          cases hst.symm.trans hst'
          exact hnode hnone
      rw [hfits_iff, stateAddEvt_eq hst hmalloc.1 hmalloc.2]
      rcases h.evttable s st hst with hkeyed | hempty
      · exact insertEvent_iff hst hkeyed.toPlaced mallocs.insert key _
      · rw [HTable.htableInsert_of_no_heads hempty, HTable.findNode_of_no_heads hempty]
        refine iff_of_true (fun r mem' hrun ↦ ?_) fun hnone ↦ ?_
        · cases hrun
        · cases hnone

theorem stateFits_iff {st : StateObj A} (hst : w.states s = some st) {mallocs : InsertMallocs}
    {key : UInt32} {cb : LawfulCallbacks KeyRef}
    (hcb : fsmCallbacks (storeState w.states s { st with stKey := key }) = cb) :
    StateFits mallocs w key s ↔
      (w.fsm.sttable.findNode cb (.stKey s) ≠ .ok none → s ∈ w.registered → st.stKey = key) ∧
      (w.fsm.sttable.findNode cb (.stKey s) = .ok none →
        mallocs.node = true ∧ (w.fsm.sttable.Resizes mallocs.heads →
          ∀ n, (w.fsm.sttable.nodesBefore cb (.stKey s)).find? (cb.sameKey (.stKey s)) = some n →
            n.hnData = some s)) := by
  subst hcb
  constructor
  · exact fun hfits ↦ hfits st hst
  · intro hfits st' hst'
    cases hst.symm.trans hst'
    exact hfits

theorem fsmAddState_eq {st : StateObj A} (hst : w.states s = some st) (mallocs : InsertMallocs)
    (key : UInt32) :
    fsmAddState mallocs w key s =
      htableInsert (fsmCallbacks (storeState w.states s { st with stKey := key })) mallocs
          w.fsm.sttable (.stKey s) (some s) >>= fun r ↦
        .ok (if r.1 = .existing then .eexists else .ok,
          { w with states := storeState w.states s { st with stKey := key }
                   fsm := { w.fsm with sttable := r.2 } }) := by
  rw [fsmAddState, loadState_eq hst]
  change (htableInsert _ _ _ _ _ >>= _) = _
  congr 1
  funext r
  obtain ⟨ret, t⟩ := r
  cases ret <;> rfl

theorem stateAnswer_ok_iff {mem : StateMem A} {key : UInt32} (hkey : readKey mem (.stKey s) = key)
    {t : HTable KeyRef StateId} {found : Option (HNode KeyRef StateId)}
    (hfind : t.findNode (fsmCallbacks mem) (.stKey s) = .ok found) :
    StateAnswer w { w with states := mem, fsm := { w.fsm with sttable := t } } key s .ok ↔
      found.bind HNode.hnData = some s := by
  have hsearch : htableSearch (fsmCallbacks mem) t (.caller key) =
      .ok (found.bind HNode.hnData) := by
    have hsame : readKey mem (.caller key) = readKey mem (.stKey s) := hkey.symm
    rw [htableSearch, findNode_congr hsame, hfind]
    cases found with
    | none => rfl
    | some n => rfl
  refine (iff_of_eq (if_pos rfl)).trans ?_
  rw [hsearch, Except.ok.injEq]

/-- Writing the key of a state changes the keys of the entries just if the state has an entry, and
had another key. -/
theorem World.InPlace.entries_store_iff (h : w.InPlace) {st : StateObj A}
    (hst : w.states s = some st) (key : UInt32) :
    World.entries { w with states := storeState w.states s { st with stKey := key } } = w.entries ↔
      (s ∈ w.registered → st.stKey = key) := by
  have hkey := readKey_stKey (storeState_self w.states s { st with stKey := key })
  simp only [World.entries, List.map_inj_left, Prod.mk.injEq, and_true]
  constructor
  · intro hsame hs
    obtain ⟨n, hn, hdata⟩ := List.mem_filterMap.1 hs
    obtain ⟨s', rfl⟩ := h.entry n hn
    cases hdata
    obtain ⟨chain, hchain, hmem⟩ := List.mem_flatten.1 hn
    have hread := hsame chain hchain _ hmem
    dsimp only at hread
    rw [hkey, readKey_stKey hst] at hread
    exact hread.symm
  · intro hold chain hchain n hmem
    have hn : w.fsm.sttable.HasNode n := List.mem_flatten.2 ⟨chain, hchain, hmem⟩
    obtain ⟨s', rfl⟩ := h.entry n hn
    by_cases heq : s' = s
    · subst heq
      dsimp only
      rw [hkey, readKey_stKey hst]
      exact (hold (List.mem_filterMap.2 ⟨_, hn, rfl⟩)).symm
    · exact readKey_storeState_of_ne w.states _ heq

theorem insertState_iff {mem : StateMem A} {key : UInt32} (hkey : readKey mem (.stKey s) = key)
    (h : w.fsm.sttable.Sound) (mallocs : InsertMallocs) :
    (∀ r w', (htableInsert (fsmCallbacks mem) mallocs w.fsm.sttable (.stKey s) (some s) >>= fun r ↦
          .ok (if r.1 = .existing then FsmRet.eexists else FsmRet.ok,
            { w with states := mem, fsm := { w.fsm with sttable := r.2 } })) = .ok (r, w') →
        StateAnswer w w' key s r) ↔
      (w.fsm.sttable.findNode (fsmCallbacks mem) (.stKey s) ≠ .ok none →
        World.entries { w with states := mem } = w.entries) ∧
      (w.fsm.sttable.findNode (fsmCallbacks mem) (.stKey s) = .ok none →
        mallocs.node = true ∧ (w.fsm.sttable.Resizes mallocs.heads →
          ∀ n, (w.fsm.sttable.nodesBefore (fsmCallbacks mem) (.stKey s)).find?
              ((fsmCallbacks mem).sameKey (.stKey s)) = some n → n.hnData = some s)) := by
  cases h.insert_step (fsmCallbacks mem) (.stKey s) (some s) mallocs with
  | existing n hfind hrun =>
      rw [hrun, Exec.ok_bind, Exec.forall_ok_eq_iff, hfind]
      have hne : FsmRet.eexists ≠ .ok := by decide
      refine (iff_of_eq (if_neg hne)).trans ⟨fun hsame ↦ ?_, fun hfits ↦ ?_⟩
      · exact ⟨fun _ ↦ hsame.2, nofun⟩
      · exact ⟨rfl, hfits.1 nofun⟩
  | nomem hfind hnode hrun =>
      rw [hrun, Exec.ok_bind, Exec.forall_ok_eq_iff]
      refine iff_of_false (fun hright ↦ ?_) fun hfits ↦ ?_
      · have hsome := (stateAnswer_ok_iff hkey hfind).1 hright
        cases hsome
      · rw [(hfits.2 hfind).1] at hnode
        contradiction
  | added hfind hnode hlimit hrun =>
      rw [hrun, Exec.ok_bind, Exec.forall_ok_eq_iff]
      have hfound := stateAnswer_ok_iff (w := w) hkey (h.findNode_withNode hfind (some s))
      exact iff_of_true (hfound.2 rfl) ⟨fun hsome ↦ absurd hfind hsome,
        fun _ ↦ ⟨hnode, fun hresizes ↦ absurd hresizes.1 hlimit⟩⟩
  | resized hfind hnode hlimit hheads hfits hrun =>
      rw [hrun, Exec.ok_bind, Exec.forall_ok_eq_iff]
      have hfound := stateAnswer_ok_iff (w := w) hkey (h.findNode_resized hfind (some s)
        (wrapSize (w.fsm.sttable.htGrows + 1)))
      cases hbefore : (w.fsm.sttable.nodesBefore (fsmCallbacks mem) (.stKey s)).find?
          ((fsmCallbacks mem).sameKey (.stKey s)) with
      | none =>
          rw [hbefore] at hfound
          refine iff_of_true (hfound.2 rfl) ⟨fun hsome ↦ absurd hfind hsome,
            fun _ ↦ ⟨hnode, fun _ n hn ↦ ?_⟩⟩
          cases hn
      | some m =>
          rw [hbefore] at hfound
          constructor
          · intro hright
            refine ⟨fun hsome ↦ absurd hfind hsome, fun _ ↦ ⟨hnode, fun _ n hn ↦ ?_⟩⟩
            cases hn
            exact hfound.1 hright
          · exact fun hfits' ↦ hfound.2 ((hfits'.2 hfind).2 ⟨hlimit, hheads, hfits⟩ m rfl)
  | unresized hfind hnode hlimit hheads hrun =>
      rw [hrun, Exec.ok_bind, Exec.forall_ok_eq_iff]
      have hfound := stateAnswer_ok_iff (w := w) hkey (h.findNode_withNode hfind (some s))
      refine iff_of_true (hfound.2 rfl) ⟨fun hsome ↦ absurd hfind hsome,
        fun _ ↦ ⟨hnode, fun hresizes ↦ ?_⟩⟩
      rw [hresizes.2.1] at hheads
      contradiction
  | overflows fault hfind hnode _ _ hfits hrun =>
      rw [hrun]
      refine iff_of_true (Exec.forall_error_eq fault _) ⟨fun hsome ↦ absurd hfind hsome,
        fun _ ↦ ⟨hnode, fun hresizes ↦ ?_⟩⟩
      exact absurd hresizes.2.2 hfits

/-- The answer of a call that stores a state is right, unless an entry is re-keyed, the memory of
the node is missing or another state comes before it. -/
theorem World.InPlace.stateAnswer_iff (h : w.InPlace) (mallocs : InsertMallocs) (key : UInt32)
    (s : StateId) :
    (∀ r w', fsmAddState mallocs w key s = .ok (r, w') → StateAnswer w w' key s r) ↔
      StateFits mallocs w key s := by
  cases hst : w.states s with
  | none =>
      refine iff_of_true (fun r w' hrun ↦ ?_) fun st hst' ↦ ?_
      · obtain ⟨st, _, _, hst', _⟩ := fsmAddState_inv hrun
        rw [hst] at hst'
        cases hst'
      · rw [hst] at hst'
        cases hst'
  | some st =>
      rw [stateFits_iff hst rfl]
      rcases h.sttable with hsound | hempty
      · rw [fsmAddState_eq hst, ← h.entries_store_iff hst]
        exact insertState_iff (readKey_stKey (storeState_self ..)) hsound mallocs
      · refine iff_of_true (fun r w' hrun ↦ ?_) ⟨fun _ hs ↦ ?_, fun hnone ↦ ?_⟩
        · exact absurd hrun (fsmAddState_of_no_heads hempty)
        · rw [World.registered, hempty] at hs
          cases hs
        · rw [HTable.findNode_of_no_heads hempty] at hnone
          cases hnone

end Call

/-! ## Reachable machines -/

/-- In every state that a machine gets to by calls, the answer of `fsm_add_state` is right just when
a state that is refused has no entry under another key, the node of a new key gets its memory, and
no other state comes before the new one; and that of `state_add_evt` just when the node of a new key
gets its memory. -/
theorem answers_iff_fit {mallocs : FsmMallocs} {size factor : ℕ} {nqueues : UInt32} {fsm : Fsm D}
    (hinit : fsmInit mallocs size factor nqueues = .ok (.ok, some fsm)) {cs : List (Call A D)}
    {rs : List Ret} {w : World A D} (hrun : performAll (start A fsm) cs = .ok (rs, w)) :
    (∀ mallocs key s,
      (∀ r w', fsmAddState mallocs w key s = .ok (r, w') → StateAnswer w w' key s r) ↔
        StateFits mallocs w key s) ∧
    ∀ mallocs s key pdesc pactionf pnewstate,
      (∀ r mem', stateAddEvt w.states mallocs s key pdesc pactionf pnewstate = .ok (r, mem') →
          EventAnswer w.states mem' s key pactionf pnewstate r) ↔
        EventFits mallocs w.states s key := by
  have hplace := (World.InPlace.start hinit).performAll hrun
  exact ⟨hplace.stateAnswer_iff, hplace.eventAnswer_iff⟩

/-- A machine with a state that handles an event, and a state that is not registered. -/
def storedCalls : List (Call ℕ ℕ) :=
  [.stateInit ⟨some 0, true, true, true⟩ 0 0 4 1, .stateInit ⟨some 1, true, true, true⟩ 0 0 4 1,
    .addState ⟨true, true⟩ 1 0, .stateAddEvt ⟨true, true, ⟨true, true⟩⟩ 0 7 [] (some 5) (some 1)]

/-- Another state and another event are stored, and keys that are there already are refused. -/
theorem stored_answers : ∃ rs w, performAll (start ℕ fourHeads) storedCalls = .ok (rs, w) ∧
    (∀ r w', fsmAddState ⟨true, false⟩ w 2 1 = .ok (r, w') → StateAnswer w w' 2 1 r) ∧
    (∀ r w', fsmAddState ⟨true, false⟩ w 1 1 = .ok (r, w') → StateAnswer w w' 1 1 r) ∧
    ∀ key r mem', stateAddEvt w.states ⟨true, true, ⟨true, false⟩⟩ 0 key [] (some 6) none =
        .ok (r, mem') → EventAnswer w.states mem' 0 key (some 6) none r := by
  have hinit : fsmInit ⟨true, true, true, true, true⟩ 4 1 0 = .ok (.ok, some fourHeads) := rfl
  have hrun : performAll (start ℕ fourHeads) storedCalls = .ok (_, _) := rfl
  obtain ⟨hstate, hevent⟩ := answers_iff_fit hinit hrun
  refine ⟨_, _, rfl, (hstate _ 2 1).2 fun _ _ ↦ ⟨fun _ hs ↦ ?_, fun _ ↦ ⟨rfl, fun hresizes ↦ ?_⟩⟩,
    (hstate _ 1 1).2 fun _ _ ↦ ⟨fun _ hs ↦ ?_, fun _ ↦ ⟨rfl, fun hresizes ↦ ?_⟩⟩,
    fun key ↦ (hevent _ _ key _ _ _).2 fun _ _ _ _ _ ↦ rfl⟩
  · exact absurd hs (by decide)
  · exact absurd hresizes.2.1 Bool.false_ne_true
  · exact absurd hs (by decide)
  · exact absurd hresizes.2.1 Bool.false_ne_true

/-- A machine that has one state object. -/
def oneStateCalls : List (Call ℕ ℕ) := [.stateInit ⟨some 0, true, true, true⟩ 0 0 4 1]

/-- A state and an event whose nodes do not get their memory are lost, and both calls succeed.  A
registered state that is refused under the key of another one is lost under its own. -/
theorem answers_wrong :
    (∃ rs w, performAll (start ℕ fourHeads) oneStateCalls = .ok (rs, w) ∧
      (∃ w', fsmAddState ⟨false, true⟩ w 1 0 = .ok (.ok, w') ∧
        htableSearch (fsmCallbacks w'.states) w'.fsm.sttable (.caller 1) = .ok none ∧
        ¬ StateAnswer w w' 1 0 .ok) ∧
      ∃ mem', stateAddEvt w.states ⟨true, true, ⟨false, true⟩⟩ 0 7 [] (some 5) none =
          .ok (.ok, mem') ∧
        (mem' 0).map (fun st ↦ htableSearch stateCallbacks st.evttable 7) = some (.ok none) ∧
        ¬ EventAnswer w.states mem' 0 7 (some 5) none .ok) ∧
    ∃ rs w, performAll (start ℕ fourHeads) (storedCalls ++ [.addState ⟨true, true⟩ 2 1]) =
        .ok (rs, w) ∧
      htableSearch (fsmCallbacks w.states) w.fsm.sttable (.caller 1) = .ok (some 0) ∧
      ∃ w', fsmAddState ⟨true, true⟩ w 2 0 = .ok (.eexists, w') ∧
        htableSearch (fsmCallbacks w'.states) w'.fsm.sttable (.caller 1) = .ok none ∧
        ¬ StateAnswer w w' 2 0 .eexists := by
  refine ⟨⟨_, _, rfl, ⟨_, rfl, rfl, fun hanswer ↦ ?_⟩, _, rfl, rfl, fun hanswer ↦ ?_⟩,
    _, _, rfl, rfl, _, rfl, rfl, fun hanswer ↦ ?_⟩
  · have hsearch := (if_pos rfl).mp hanswer
    cases hsearch
  · obtain ⟨st, ev, hst, hsearch, _⟩ := (if_pos rfl).mp hanswer
    cases hst
    cases hsearch
  · have hne : FsmRet.eexists ≠ .ok := by decide
    have hentries := ((if_neg hne).mp hanswer).2
    exact absurd hentries (by decide)

end Experimentation.StateMachine
