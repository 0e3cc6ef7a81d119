import Experimentation.StateMachine.CurrentState

/-!
# Flags and the transitions that they came from

A flag says that a state can be reached from a state that was set.  Flags are only ever set, along
transitions that are there at the time, and transitions are only ever added or removed.  Adding one
makes no flag wrong; removing one does when a flagged state was reached over it and in no other way,
and `fsm_set_state` does not notice, although it is meant to bring the flags in accordance with the
transitions.
-/

namespace Experimentation.StateMachine

open Semantics HashTable Relation

variable {A D : Type}

/-- State objects as `state_init` leaves them. -/
def FreshMemory (mem : StateMem A) : Prop := ∀ s st, mem s = some st → st.isReachable = false ∧
  ∃ size factor, size * sizeofHhead < sizeModulus ∧ st.evttable = emptyTable size factor

/-- One call, with the keys that successful calls of `fsm_set_state` were given.  Every state is
registered once; transitions are removed as `allow` allows. -/
inductive FlagStep (allow : World A D → Set UInt32 → StateId → UInt32 → Prop) :
    World A D → Set UInt32 → World A D → Set UInt32 → Prop
  | addState {w w' : World A D} {keys : Set UInt32} {mallocs : InsertMallocs} {key : UInt32}
      {s : StateId} {r : FsmRet} (honce : s ∉ w.registered)
      (h : fsmAddState mallocs w key s = .ok (r, w')) : FlagStep allow w keys w' keys
  | addEvt {w : World A D} {keys : Set UInt32} {mem : StateMem A} {mallocs : EventMallocs}
      {s : StateId} {key : UInt32} {pdesc : List UInt8} {pactionf : Option A}
      {pnewstate : Option StateId} {r : StRet}
      (h : stateAddEvt w.states mallocs s key pdesc pactionf pnewstate = .ok (r, mem)) :
      FlagStep allow w keys { w with states := mem } keys
  | remEvt {w : World A D} {keys : Set UInt32} {mem : StateMem A} {s : StateId} {key : UInt32}
      {r : StRet} (hallow : allow w keys s key) (h : stateRemEvt w.states s key = .ok (r, mem)) :
      FlagStep allow w keys { w with states := mem } keys
  | setState {w w' : World A D} {keys : Set UInt32} {key : UInt32}
      (h : fsmSetState w key = .ok (.ok, w')) : FlagStep allow w keys w' (insert key keys)
  | notFound {w w' : World A D} {keys : Set UInt32} {key : UInt32}
      (h : fsmSetState w key = .ok (.enotfound, w')) : FlagStep allow w keys w' keys
  | mark {w w' : World A D} {keys : Set UInt32} (h : fsmMarkReachableStates w = .ok w') :
      FlagStep allow w keys w' keys

/-- What runs reach from a machine that `fsm_init` returned and fresh states. -/
inductive FlagReach (allow : World A D → Set UInt32 → StateId → UInt32 → Prop) :
    World A D → Set UInt32 → Prop
  | start {mallocs : FsmMallocs} {size factor : ℕ} {nqueues : UInt32} {fsm : Fsm D}
      {mem : StateMem A} (hinit : fsmInit mallocs size factor nqueues = .ok (.ok, some fsm))
      (hfresh : FreshMemory mem) : FlagReach allow ⟨mem, fsm, []⟩ ∅
  | step {w w' : World A D} {keys keys' : Set UInt32} (hs : FlagReach allow w keys)
      (h : FlagStep allow w keys w' keys') : FlagReach allow w' keys'

/-- A path leads to the state from one whose key is among the keys. -/
def World.ReachedFrom (w : World A D) (keys : Set UInt32) (t : StateId) : Prop :=
  ∃ key ∈ keys, ∃ s, w.HasKey key s ∧ ReflTransGen w.Leads s t

/-- There is a transition from `a` to `b` besides those of `s` on the event. -/
def World.LeadsWithout (w : World A D) (s : StateId) (evtkey : UInt32) (a b : StateId) : Prop :=
  ∃ st ∈ w.states a, ∃ e ∈ st.evttable.htTable.flatten, eventTarget e = some b ∧
    ¬ (a = s ∧ e.hnKey = evtkey)

instance (w : World A D) (s : StateId) (evtkey : UInt32) (a b : StateId) :
    Decidable (w.LeadsWithout s evtkey a b) :=
  inferInstanceAs (Decidable (∃ st ∈ w.states a, ∃ e ∈ st.evttable.htTable.flatten,
    eventTarget e = some b ∧ ¬ (a = s ∧ e.hnKey = evtkey)))

/-- Every flagged state is reached without the transition of `s` on the event. -/
def World.Dispensable (w : World A D) (keys : Set UInt32) (s : StateId) (evtkey : UInt32) : Prop :=
  ∀ t, IsFlagged w.states t →
    ∃ key ∈ keys, ∃ root, w.HasKey key root ∧ ReflTransGen (w.LeadsWithout s evtkey) root t

/-- Every registered state that is flagged is reached from a state whose key was set. -/
def World.FlagsSound (w : World A D) (keys : Set UInt32) : Prop :=
  ∀ t ∈ w.registered, IsFlagged w.states t → w.ReachedFrom keys t

/-! ## What the calls do to flags and paths -/

section Marking

variable {w w' : World A D}

theorem markEvent_flagged {Q : StateId → Prop} (hclosed : ∀ s t, Q s → w.Leads s t → Q t)
    {pstate : StateId} {st : StateObj A} (hst : w.states pstate = some st) {w₁ w₂ : World A D}
    {pos : ℕ} {n : HNode UInt32 (Event A)} {rest : List (HNode UInt32 (Event A))}
    (hn : st.evttable.HasNode n)
    (h : markEvent pstate w₁ ⟨pos, n :: rest⟩ = .ok w₂) (hQ : ∀ t, IsFlagged w₁.states t → Q t) :
    ∀ t, IsFlagged w₂.states t → Q t := by
  rcases markEvent_inv h with rfl | ⟨st₁, ev, t, new, hst₁, hflag, hpevt, htarget, hnew, rfl⟩
  · exact hQ
  · have hp : Q pstate := hQ pstate ((isFlagged_iff hst₁).2 hflag)
    have hdata : n.hnData = some ev := Except.ok.inj hpevt
    have hleads : w.Leads pstate t := ⟨st, hst, n, hn, (eventTarget_eq hdata).trans htarget⟩
    intro t' ht'
    dsimp only at ht'
    rw [storeState_markAsReachable hnew,
      isFlagged_flagState (hnew ▸ Option.some_ne_none new)] at ht'
    rcases ht' with hold | rfl
    · exact hQ t' hold
    · exact hclosed pstate t' hp hleads

theorem fsmMarkReachableStates_flagged {Q : StateId → Prop}
    (hclosed : ∀ s t, Q s → w.Leads s t → Q t) (h : fsmMarkReachableStates w = .ok w')
    (hQ : ∀ t, IsFlagged w.states t → Q t) : ∀ t, IsFlagged w'.states t → Q t := by
  have hstate : ∀ (w₁ : World A D) sit w₂, markState w₁ sit = .ok w₂ →
      w.SameUpToFlags w₁ ∧ (∀ t, IsFlagged w₁.states t → Q t) →
      w.SameUpToFlags w₂ ∧ ∀ t, IsFlagged w₂.states t → Q t := by
    intro w₁ sit w₂ hstep hw₁
    obtain ⟨pstate, _, hstep⟩ := Exec.bind_eq_ok.1 hstep
    cases pstate with
    | none => cases hstep
    | some pstate =>
        obtain ⟨st₁, hst₁, hstep⟩ := Exec.bind_eq_ok.1 hstep
        obtain ⟨st, hst, htable, _⟩ := hw₁.1.1.symm.exists_eq (loadState_eq_ok.1 hst₁)
        apply forEachElm_invariant (P := fun w₂ : World A D ↦
          w.SameUpToFlags w₂ ∧ ∀ t, IsFlagged w₂.states t → Q t) ?_ hstep hw₁
        intro w₂ pos n rest w₃ hn hevent hw₂
        rw [← htable] at hn
        exact ⟨hw₂.1.trans (markEvent_sameUpToFlags hevent),
          markEvent_flagged hclosed hst hn hevent hw₂.2⟩
  have hall := forEachElm_invariant (P := fun w₁ : World A D ↦
    w.SameUpToFlags w₁ ∧ ∀ t, IsFlagged w₁.states t → Q t)
    (fun w₁ _ _ _ w₂ _ hstep hw₁ ↦ hstate w₁ _ w₂ hstep hw₁) h ⟨⟨.refl _, rfl, rfl⟩, hQ⟩
  exact hall.2

end Marking

section Paths

variable {w w' : World A D} {keys keys' : Set UInt32} {t : StateId}

theorem World.ReachedFrom.mono (h : w.ReachedFrom keys t) (hkeys : keys ⊆ keys')
    (hroots : ∀ key s, w.HasKey key s → w'.HasKey key s)
    (hleads : ∀ a b, w.Leads a b → w'.Leads a b) : w'.ReachedFrom keys' t := by
  obtain ⟨key, hkey, s, hs, hpath⟩ := h
  exact ⟨key, hkeys hkey, s, hroots key s hs, ReflTransGen.mono hleads _ _ hpath⟩

theorem World.ReachedFrom.tail {s : StateId} (h : w.ReachedFrom keys s) (hleads : w.Leads s t) :
    w.ReachedFrom keys t := by
  obtain ⟨key, hkey, root, hroot, hpath⟩ := h
  exact ⟨key, hkey, root, hroot, hpath.tail hleads⟩

/-- An object gets another table of events. -/
theorem World.Leads.store {s : StateId} {st' : StateObj A} {a b : StateId} (h : w.Leads a b)
    (hkeep : a = s → ∃ e, st'.evttable.HasNode e ∧ eventTarget e = some b) :
    World.Leads { w with states := storeState w.states s st' } a b := by
  by_cases heq : a = s
  · obtain ⟨e, he, htarget⟩ := hkeep heq
    exact ⟨st', heq ▸ storeState_self .., e, he, htarget⟩
  · obtain ⟨st₀, hst₀, he⟩ := h
    exact ⟨st₀, (storeState_of_ne _ _ heq).trans hst₀, he⟩

/-- An object gets a table with the nodes of its old one. -/
theorem World.Leads.grow {s : StateId} {st st' : StateObj A} {a b : StateId} (h : w.Leads a b)
    (hst : w.states s = some st)
    (hkept : ∀ e, st.evttable.HasNode e → st'.evttable.HasNode e) :
    World.Leads { w with states := storeState w.states s st' } a b := by
  apply h.store
  intro heq
  obtain ⟨st₀, hst₀, e, he, htarget⟩ := h
  rw [heq, hst, Option.mem_some_iff] at hst₀
  exact ⟨e, hkept e (hst₀ ▸ he), htarget⟩

/-- An object keeps its key. -/
theorem World.HasKey.store {s root : StateId} {st st' : StateObj A} {key : UInt32}
    (hst : w.states s = some st) (hkey : st'.stKey = st.stKey) (h : w.HasKey key root) :
    World.HasKey { w with states := storeState w.states s st' } key root := by
  exact ⟨h.1, (readKey_storeState hst hkey root).trans h.2⟩

theorem isFlagged_store {mem : StateMem A} {s : StateId} {st : StateObj A} (st' : StateObj A)
    (hst : mem s = some st) (hflag : st'.flag = st.flag) :
    IsFlagged (storeState mem s st') t ↔ IsFlagged mem t := by
  by_cases heq : t = s
  · subst heq
    rw [isFlagged_iff (storeState_self ..), isFlagged_iff hst, StateObj.isReachable,
      StateObj.isReachable, hflag]
  · rw [IsFlagged, IsFlagged, storeState_of_ne _ _ heq]

theorem SameButFlags.leads {mem : StateMem A} (h : SameButFlags w.states mem) {a b : StateId}
    (hleads : w.Leads a b) : World.Leads { w with states := mem } a b := by
  obtain ⟨st, hst, e, he, htarget⟩ := hleads
  obtain ⟨st', hst', htable, _⟩ := h.exists_eq hst
  exact ⟨st', hst', e, htable.symm ▸ he, htarget⟩

theorem SameButFlags.hasKey {mem : StateMem A} (h : SameButFlags w.states mem) {key : UInt32}
    {s : StateId} (hs : w.HasKey key s) : World.HasKey { w with states := mem } key s :=
  ⟨hs.1, (h.readKey_eq _).trans hs.2⟩

end Paths

/-! ## The invariant -/

/-- Every flagged object is reached. -/
structure World.Marked (w : World A D) (keys : Set UInt32) : Prop where
  sttable : w.fsm.sttable.Tidy
  entry : ∀ n, w.fsm.sttable.HasNode n → ∃ s, n = ⟨.stKey s, some s⟩
  evttable : ∀ s st, w.states s = some st → st.evttable.Tidy
  reached : ∀ t, IsFlagged w.states t → w.ReachedFrom keys t

namespace World.Marked

variable {w w' : World A D} {keys : Set UInt32} (h : w.Marked keys)
include h

/-- An object gets another table, and flagged objects are still reached. -/
theorem store {s : StateId} {st st' : StateObj A} (hst : w.states s = some st)
    (htidy : st'.evttable.Tidy) (hflag : st'.flag = st.flag)
    (hreached : ∀ t, IsFlagged w.states t →
      World.ReachedFrom { w with states := storeState w.states s st' } keys t) :
    World.Marked { w with states := storeState w.states s st' } keys where
  sttable := h.sttable
  entry := h.entry
  evttable _ _ hst₀ := forall_storeState htidy h.evttable hst₀
  reached t ht := hreached t ((isFlagged_store st' hst hflag).1 ht)

/-- Only flags change, and what is flagged is reached. -/
theorem flags {keys' : Set UInt32} {mem : StateMem A} (cstate : Option StateId)
    (hsame : SameButFlags w.states mem)
    (hreached : ∀ t, IsFlagged mem t → w.ReachedFrom keys' t) :
    World.Marked { w with states := mem, fsm := { w.fsm with cstate := cstate } } keys' where
  sttable := h.sttable
  entry := h.entry
  evttable s st' hst' := by
    obtain ⟨st, hst, htable, _⟩ := hsame.symm.exists_eq hst'
    exact htable ▸ h.evttable s st hst
  reached t ht := by
    apply (hreached t ht).mono subset_rfl
    · exact fun _ _ hs ↦ hsame.hasKey hs
    · exact fun _ _ hleads ↦ hsame.leads hleads

theorem hasKey_of_search {key : UInt32} {s : StateId}
    (hsearch : htableSearch (fsmCallbacks w.states) w.fsm.sttable (.caller key) = .ok (some s)) :
    w.HasKey key s := by
  obtain ⟨n, hn, hsame, hdata⟩ := hasNode_of_htableSearch hsearch
  obtain ⟨s', rfl⟩ := h.entry n hn
  cases hdata
  exact ⟨List.mem_filterMap.2 ⟨_, hn, rfl⟩, fsmCmpf_eq_zero_iff.1 (sameKey_iff.1 hsame)⟩

/-- Another state is registered. -/
theorem addState {mallocs : InsertMallocs} {key : UInt32} {s : StateId} {r : FsmRet}
    (honce : s ∉ w.registered) (hrun : fsmAddState mallocs w key s = .ok (r, w')) :
    w'.Marked keys := by
  have hregistered := fun t ↦ registered_addState (t := t) h.sttable hrun
  obtain ⟨st, ret, t, hst, hinsert, rfl, _⟩ := fsmAddState_inv hrun
  obtain ⟨htidy, _, hentry⟩ := h.sttable.htableInsert hinsert
  have hkey : ∀ key' root, w.HasKey key' root → World.HasKey
      { w with states := storeState w.states s { st with stKey := key }
               fsm := { w.fsm with sttable := t } } key' root := by
    intro key' root hroot
    have hne : root ≠ s := fun heq ↦ honce (heq ▸ hroot.1)
    exact ⟨hregistered root hroot.1, (readKey_storeState_of_ne w.states _ hne).trans hroot.2⟩
  refine ⟨htidy, fun n hn ↦ ?_, fun s' st' hst' ↦ ?_, fun t' ht' ↦ ?_⟩
  · rcases hentry n hn with hold | hnew
    · exact h.entry n hold
    · exact ⟨s, hnew⟩
  · exact forall_storeState (h.evttable s st hst) h.evttable hst'
  · have hold := (isFlagged_store { st with stKey := key } hst rfl).1 ht'
    exact (h.reached t' hold).mono subset_rfl hkey fun _ _ hleads ↦ hleads.grow hst fun _ ↦ id

theorem addEvt {mallocs : EventMallocs} {s : StateId} {key : UInt32} {pdesc : List UInt8}
    {pactionf : Option A} {pnewstate : Option StateId} {r : StRet} {mem : StateMem A}
    (hrun : stateAddEvt w.states mallocs s key pdesc pactionf pnewstate = .ok (r, mem)) :
    World.Marked { w with states := mem } keys := by
  rcases stateAddEvt_inv hrun with rfl | ⟨st, _, t, hst, hinsert, rfl⟩
  · exact h
  · obtain ⟨htidy, hkept, _⟩ := (h.evttable s st hst).htableInsert hinsert
    have hkey : ∀ key' root, w.HasKey key' root → World.HasKey
        { w with states := storeState w.states s { st with evttable := t } } key' root :=
      fun _ _ hroot ↦ hroot.store hst rfl
    refine h.store hst htidy rfl fun t' ht' ↦ ?_
    exact (h.reached t' ht').mono subset_rfl hkey fun _ _ hleads ↦ hleads.grow hst hkept

theorem remEvt {s : StateId} {key : UInt32} {r : StRet} {mem : StateMem A}
    (hdispensable : w.Dispensable keys s key) (hrun : stateRemEvt w.states s key = .ok (r, mem)) :
    World.Marked { w with states := mem } keys := by
  obtain ⟨st, _, t, _, hst, hfree, rfl⟩ := stateRemEvt_inv hrun
  obtain ⟨htidy, hkept⟩ := (h.evttable s st hst).htableFreeObj hfree
  refine h.store hst htidy rfl fun t' ht' ↦ ?_
  obtain ⟨key', hkey', root, hroot, hpath⟩ := hdispensable t' ht'
  refine ⟨key', hkey', root, hroot.store hst rfl, ReflTransGen.mono (fun a b hleads ↦ ?_) _ _ hpath⟩
  obtain ⟨st₀, hst₀, e, he, htarget, hother⟩ := hleads
  apply World.Leads.store ⟨st₀, hst₀, e, he, htarget⟩
  intro heq
  rw [heq, hst, Option.mem_some_iff] at hst₀
  refine ⟨e, hkept e (hst₀ ▸ he) ?_, htarget⟩
  rw [Bool.eq_false_iff, Ne, sameKey_iff]
  exact fun hsame ↦ hother ⟨heq, uintCmpf_eq_zero_iff.1 hsame⟩

/-- The marking. -/
theorem mark (hrun : fsmMarkReachableStates w = .ok w') : w'.Marked keys := by
  have hflags := fsmMarkReachableStates_flagged (Q := w.ReachedFrom keys)
    (fun _ _ hs hleads ↦ hs.tail hleads) hrun h.reached
  obtain ⟨hsame, hfsm, htrace⟩ := fsmMarkReachableStates_sameUpToFlags hrun
  have hmarked := h.flags w.fsm.cstate hsame hflags
  obtain ⟨states, fsm, trace⟩ := w'
  dsimp only at hfsm htrace
  rw [hfsm, htrace]
  exact hmarked

/-- A state is set. -/
theorem setState {key : UInt32} (hrun : fsmSetState w key = .ok (.ok, w')) :
    w'.Marked (insert key keys) := by
  rcases fsmSetState_marks hrun with ⟨hret, _⟩ | ⟨_, s, w₁, hs, hsearch, hmark, rfl⟩
  · cases hret
  · have hroot : w.ReachedFrom (insert key keys) s :=
      ⟨key, Set.mem_insert key keys, s, h.hasKey_of_search hsearch, .refl⟩
    have hflag : World.Marked { w with states := flagState w.states s } (insert key keys) := by
      apply h.flags w.fsm.cstate (.flagState w.states s)
      intro t ht
      rcases (isFlagged_flagState hs).1 ht with hold | rfl
      · exact (h.reached t hold).mono (Set.subset_insert key keys) (fun _ _ ↦ id) fun _ _ ↦ id
      · exact hroot
    have hmarked := hflag.mark hmark
    exact hmarked.flags _ (.refl _) hmarked.reached

/-- One call. -/
theorem step {keys' : Set UInt32} (hstep : FlagStep World.Dispensable w keys w' keys') :
    w'.Marked keys' := by
  cases hstep with
  | addState honce hrun => exact h.addState honce hrun
  | addEvt hrun => exact h.addEvt hrun
  | remEvt hdispensable hrun => exact h.remEvt hdispensable hrun
  | setState hrun => exact h.setState hrun
  | notFound hrun =>
      rcases fsmSetState_inv hrun with ⟨_, rfl⟩ | ⟨hret, _⟩
      · exact h
      · cases hret
  | mark hrun => exact h.mark hrun

end World.Marked

theorem marked_start {mallocs : FsmMallocs} {size factor : ℕ} {nqueues : UInt32} {fsm : Fsm D}
    {mem : StateMem A} (hinit : fsmInit mallocs size factor nqueues = .ok (.ok, some fsm))
    (hfresh : FreshMemory mem) : World.Marked ⟨mem, fsm, []⟩ ∅ := by
  obtain ⟨hfits, rfl⟩ := fsmInit_ok hinit
  refine ⟨emptyTable_tidy hfits, fun n hn ↦ absurd hn not_hasNode_emptyTable, fun s st hst ↦ ?_,
    fun t ht ↦ ?_⟩
  · obtain ⟨_, size, factor, hfits, htable⟩ := hfresh s st hst
    exact htable ▸ emptyTable_tidy hfits
  · obtain ⟨st, hst, hflag⟩ := (Option.any_eq_true _ _).1 ht
    rw [(hfresh t st hst).1] at hflag
    cases hflag

/-- In every run that removes no transition on which a flag depends, no flag is wrong. -/
theorem FlagReach.flagsSound {w : World A D} {keys : Set UInt32}
    (h : FlagReach World.Dispensable w keys) : w.FlagsSound keys := by
  have hmarked : w.Marked keys := by
    induction h with
    | start hinit hfresh => exact marked_start hinit hfresh
    | step _ hstep ih => exact ih.step hstep
  exact fun t _ ht ↦ hmarked.reached t ht

theorem twoStates_freshMemory : FreshMemory twoStates := by
  intro s st hst
  unfold twoStates at hst
  split at hst
  · cases hst
    exact ⟨rfl, 1, 1, by decide, rfl⟩
  · cases hst

/-- Two fresh states and an empty machine, after the calls. -/
def twoStateWorld (cs : List (Call ℕ ℕ)) : World ℕ ℕ :=
  match performAll ⟨twoStates, fourHeads, []⟩ cs with
  | .ok (_, w) => w
  | .error _ => ⟨twoStates, fourHeads, []⟩

/-- Both states are registered. -/
def bothAdded : List (Call ℕ ℕ) := [.addState ⟨true, true⟩ 1 0, .addState ⟨true, true⟩ 2 1]

/-- The first state goes to the second one on the event. -/
def addTransition (evtkey : UInt32) : Call ℕ ℕ :=
  .stateAddEvt ⟨true, true, ⟨true, true⟩⟩ 0 evtkey [] none (some 1)

theorem bothAdded_reach (allow : World ℕ ℕ → Set UInt32 → StateId → UInt32 → Prop) :
    FlagReach allow (twoStateWorld bothAdded) ∅ := by
  have hinit : fsmInit ⟨true, true, true, true, true⟩ 4 1 0 = .ok (.ok, some fourHeads) := rfl
  have hfirst : fsmAddState ⟨true, true⟩ (twoStateWorld []) 1 0 =
      .ok (.ok, twoStateWorld [.addState ⟨true, true⟩ 1 0]) := rfl
  have hsecond : fsmAddState ⟨true, true⟩ (twoStateWorld [.addState ⟨true, true⟩ 1 0]) 2 1 =
      .ok (.ok, twoStateWorld bothAdded) := rfl
  have hstart : FlagReach allow (twoStateWorld []) ∅ := .start hinit twoStates_freshMemory
  exact (hstart.step (.addState (by decide) hfirst)).step (.addState (by decide) hsecond)

/-- The first state leads to the second one on event 7 and is set. -/
def markedTwo : List (Call ℕ ℕ) := bothAdded ++ [addTransition 7, .setState 1]

theorem markedTwo_reach (allow : World ℕ ℕ → Set UInt32 → StateId → UInt32 → Prop) :
    FlagReach allow (twoStateWorld markedTwo) {1} := by
  have hadd : stateAddEvt (twoStateWorld bothAdded).states ⟨true, true, ⟨true, true⟩⟩ 0 7 [] none
      (some 1) = .ok (.ok, (twoStateWorld (bothAdded ++ [addTransition 7])).states) := rfl
  have hset : fsmSetState (twoStateWorld (bothAdded ++ [addTransition 7])) 1 =
      .ok (.ok, twoStateWorld markedTwo) := rfl
  rw [← insert_empty_eq]
  exact ((bothAdded_reach allow).step (.addEvt hadd)).step (.setState hset)

/-- When another transition leads to the second state, the one on event 7 can be removed. -/
theorem replaced_flagsSound :
    FlagReach World.Dispensable (twoStateWorld (markedTwo ++
        [addTransition 8, .stateRemEvt 0 7, .setState 1])) {1} ∧
      IsFlagged (twoStateWorld (markedTwo ++
        [addTransition 8, .stateRemEvt 0 7, .setState 1])).states 1 ∧
      (twoStateWorld (markedTwo ++
        [addTransition 8, .stateRemEvt 0 7, .setState 1])).FlagsSound {1} := by
  have hadd : stateAddEvt (twoStateWorld markedTwo).states ⟨true, true, ⟨true, true⟩⟩ 0 8 [] none
      (some 1) = .ok (.ok, (twoStateWorld (markedTwo ++ [addTransition 8])).states) := rfl
  have hremove : stateRemEvt (twoStateWorld (markedTwo ++ [addTransition 8])).states 0 7 =
      .ok (.ok, (twoStateWorld (markedTwo ++ [addTransition 8, .stateRemEvt 0 7])).states) := rfl
  have hset : fsmSetState (twoStateWorld (markedTwo ++ [addTransition 8, .stateRemEvt 0 7])) 1 =
      .ok (.ok, twoStateWorld (markedTwo ++
        [addTransition 8, .stateRemEvt 0 7, .setState 1])) := rfl
  have hdispensable : (twoStateWorld (markedTwo ++ [addTransition 8])).Dispensable {1} 0 7 := by
    intro t ht
    have hroot : (twoStateWorld (markedTwo ++ [addTransition 8])).HasKey 1 0 := by decide
    have hleads : (twoStateWorld (markedTwo ++ [addTransition 8])).LeadsWithout 0 7 0 1 := by decide
    cases t with
    | zero => exact ⟨1, rfl, 0, hroot, .refl⟩
    | succ t =>
        cases t with
        | zero => exact ⟨1, rfl, 0, hroot, .single hleads⟩
        | succ t => cases ht
  have hreach : FlagReach World.Dispensable (twoStateWorld (markedTwo ++
      [addTransition 8, .stateRemEvt 0 7, .setState 1])) {1} := by
    rw [← Set.insert_eq_of_mem (Set.mem_singleton (1 : UInt32))]
    exact (((markedTwo_reach _).step (.addEvt hadd)).step (.remEvt hdispensable hremove)).step
      (.setState hset)
  exact ⟨hreach, by decide, hreach.flagsSound⟩

/-- When none does, the second state is still flagged after the first one is set again. -/
theorem removed_not_flagsSound :
    FlagReach (fun _ _ _ _ ↦ True) (twoStateWorld (markedTwo ++ [.stateRemEvt 0 7])) {1} ∧
      fsmSetState (twoStateWorld (markedTwo ++ [.stateRemEvt 0 7])) 1 =
        .ok (.ok, twoStateWorld (markedTwo ++ [.stateRemEvt 0 7, .setState 1])) ∧
      ¬ (twoStateWorld (markedTwo ++ [.stateRemEvt 0 7, .setState 1])).FlagsSound {1} := by
  have hremove : stateRemEvt (twoStateWorld markedTwo).states 0 7 =
      .ok (.ok, (twoStateWorld (markedTwo ++ [.stateRemEvt 0 7])).states) := rfl
  refine ⟨(markedTwo_reach _).step (.remEvt trivial hremove), rfl, fun hsound ↦ ?_⟩
  obtain ⟨key, hkey, root, hroot, hpath⟩ := hsound 1 (by decide) (by decide)
  cases hkey
  have hfirst : root = 0 := by
    have hall : ∀ s ∈ (twoStateWorld (markedTwo ++ [.stateRemEvt 0 7, .setState 1])).registered,
        (twoStateWorld (markedTwo ++ [.stateRemEvt 0 7, .setState 1])).HasKey 1 s → s = 0 := by
      decide
    exact hall root hroot.1 hroot
  subst hfirst
  rcases hpath.cases_head with heq | ⟨t, hleads, _⟩
  · cases heq
  · obtain ⟨st, hst, e, he, _⟩ := hleads
    cases hst
    cases he

end Experimentation.StateMachine
