import Experimentation.HashTable.Placement
import Experimentation.StateMachine.Reachability

/-!
# Registering states

A node of the table of states points to the key that is stored in the state itself, and
`fsm_add_state` writes that key before it knows whether the state will be accepted.  Writing another
key into a registered state moves the state away from its place in the table; writing one into a
state that is then refused is a change that the caller is not told about.  All other calls keep the
table consistent.
-/

namespace Experimentation.StateMachine

open Semantics HashTable

variable {A D : Type}

/-- Every entry of the table of states is found under the key of its own state, and no two entries
have equal keys. -/
structure World.Consistent (w : World A D) : Prop where
  found : ∀ n ∈ w.fsm.sttable.htTable.flatten, ∃ s st, n.hnData = some s ∧ w.states s = some st ∧
    htableSearch (fsmCallbacks w.states) w.fsm.sttable (.caller st.stKey) = .ok (some s)
  distinct : w.fsm.sttable.htTable.flatten.Pairwise fun a b ↦
    readKey w.states a.hnKey ≠ readKey w.states b.hnKey

/-- The table, every registered state and the key of `pstate` are as they were. -/
structure World.Unchanged (w w' : World A D) (pstate : StateId) : Prop where
  sttable : w'.fsm.sttable = w.fsm.sttable
  registered : ∀ s ∈ w.registered, w'.states s = w.states s
  stKey : readKey w'.states (.stKey pstate) = readKey w.states (.stKey pstate)

/-- What a call of `fsm_add_state` that returned should have kept. -/
def AddKeeps (w : World A D) (pstate : StateId) (r : FsmRet) (w' : World A D) : Prop :=
  w'.Consistent ∧ (r = .eexists → w.Unchanged w' pstate)

/-- The state has the key already, or it is not registered and no registered state has the key. -/
def World.Admits (w : World A D) (key : UInt32) (pstate : StateId) : Prop :=
  readKey w.states (.stKey pstate) = key ∨ pstate ∉ w.registered ∧
    htableSearch (fsmCallbacks w.states) w.fsm.sttable (.caller key) = .ok none

/-- The arguments of a call of `fsm_add_state`, with the outcomes of its allocations. -/
structure AddCall where
  mallocs : InsertMallocs
  key : UInt32
  pstate : StateId

/-- All calls of the list that return keep what they should. -/
def AllKeep : World A D → List AddCall → Prop
  | _, [] => True
  | w, c :: cs =>
      match fsmAddState c.mallocs w c.key c.pstate with
      | .ok (r, w') => AddKeeps w c.pstate r w' ∧ AllKeep w' cs
      | .error _ => True

/-- All calls of the list that return are admitted in the state before them. -/
def AllAdmitted : World A D → List AddCall → Prop
  | _, [] => True
  | w, c :: cs =>
      match fsmAddState c.mallocs w c.key c.pstate with
      | .ok (_, w') => w.Admits c.key c.pstate ∧ AllAdmitted w' cs
      | .error _ => True

/-! ## The table of registered states -/

/-- The nodes of the table are registered states in their places, with distinct keys. -/
structure World.Registry (w : World A D) : Prop where
  placed : w.fsm.sttable.Placed (fsmCallbacks w.states)
  entry : ∀ n, w.fsm.sttable.HasNode n → ∃ s st, n = ⟨.stKey s, some s⟩ ∧ w.states s = some st
  distinct : w.fsm.sttable.htTable.flatten.Pairwise fun a b ↦
    (fsmCallbacks w.states).cmpf a.hnKey b.hnKey ≠ 0

theorem fsmCmpf_eq_zero_iff {mem : StateMem A} {a b : KeyRef} :
    (fsmCallbacks mem).cmpf a b = 0 ↔ readKey mem a = readKey mem b := uintCmpf_eq_zero_iff

theorem findNode_congr {mem : StateMem A} {t : HTable KeyRef StateId} {a b : KeyRef}
    (h : readKey mem a = readKey mem b) :
    t.findNode (fsmCallbacks mem) a = t.findNode (fsmCallbacks mem) b := by
  have hsame : ((fsmCallbacks mem).sameKey a : HNode KeyRef StateId → Bool) =
      (fsmCallbacks mem).sameKey b := by
    funext n
    change decide (uintCmpf (readKey mem n.hnKey) (readKey mem a) = 0) =
      decide (uintCmpf (readKey mem n.hnKey) (readKey mem b) = 0)
    rw [h]
  have hindex : t.indexOf (fsmCallbacks mem) a = t.indexOf (fsmCallbacks mem) b :=
    congrArg (fun key ↦ bucketIndex t.htSize (uintHashf key)) h
  rw [HTable.findNode, HTable.findNode, hsame, hindex]

namespace World.Registry

variable {w : World A D} (h : w.Registry)
include h

theorem hasNode_iff {s : StateId} :
    w.fsm.sttable.HasNode ⟨.stKey s, some s⟩ ↔ s ∈ w.registered := by
  rw [World.registered, List.mem_filterMap]
  constructor
  · intro hn
    exact ⟨_, hn, rfl⟩
  · intro hs
    obtain ⟨n, hn, hdata⟩ := hs
    obtain ⟨s', st, rfl, _⟩ := h.entry n hn
    cases hdata
    exact hn

theorem findNode_registered {s : StateId} {st : StateObj A} (hs : s ∈ w.registered)
    (hst : w.states s = some st) :
    w.fsm.sttable.findNode (fsmCallbacks w.states) (.caller st.stKey) =
      .ok (some ⟨.stKey s, some s⟩) :=
  h.placed.findNode_of_mem h.distinct (h.hasNode_iff.2 hs)
    (fsmCmpf_eq_zero_iff.2 (readKey_stKey hst))

theorem findNode_eq_none_iff (key : KeyRef) :
    w.fsm.sttable.findNode (fsmCallbacks w.states) key = .ok none ↔
      ∀ n, w.fsm.sttable.HasNode n → readKey w.states n.hnKey ≠ readKey w.states key := by
  rw [h.placed.findNode_eq, Except.ok.injEq, List.find?_eq_none]
  apply forall₂_congr
  intro n _
  rw [sameKey_iff, fsmCmpf_eq_zero_iff]

theorem htableSearch_eq_none_iff {key : KeyRef} :
    htableSearch (fsmCallbacks w.states) w.fsm.sttable key = .ok none ↔
      w.fsm.sttable.findNode (fsmCallbacks w.states) key = .ok none := by
  obtain ⟨found, hfound⟩ := h.placed.exists_findNode (fsmCallbacks w.states) key
  rw [htableSearch, hfound]
  cases found with
  | none => simp
  | some n =>
      obtain ⟨s, st, rfl, _⟩ := h.entry n (HTable.hasNode_of_findNode hfound).1
      simp

theorem consistent : w.Consistent where
  found n hn := by
    obtain ⟨s, st, rfl, hst⟩ := h.entry n hn
    refine ⟨s, st, rfl, hst, ?_⟩
    rw [htableSearch, h.findNode_registered (h.hasNode_iff.1 hn) hst]
    rfl
  distinct := h.distinct.imp fun hne heq ↦ hne (fsmCmpf_eq_zero_iff.2 heq)

theorem readKey_store {s : StateId} (hs : s ∉ w.registered) (st : StateObj A)
    {n : HNode KeyRef StateId} (hn : w.fsm.sttable.HasNode n) :
    readKey (storeState w.states s st) n.hnKey = readKey w.states n.hnKey := by
  obtain ⟨s', st', rfl, _⟩ := h.entry n hn
  have hne : s' ≠ s := fun heq ↦ hs (heq ▸ h.hasNode_iff.1 hn)
  exact readKey_storeState_of_ne w.states st hne

theorem of_readKey {mem : StateMem A}
    (hkeep : ∀ n, w.fsm.sttable.HasNode n → readKey mem n.hnKey = readKey w.states n.hnKey)
    (halloc : ∀ s ∈ w.registered, mem s ≠ none) : World.Registry { w with states := mem } := by
  refine ⟨h.placed.congr fun n hn ↦ congrArg uintHashf (hkeep n hn), fun n hn ↦ ?_, ?_⟩
  · obtain ⟨s, st, rfl, _⟩ := h.entry n hn
    obtain ⟨st', hst'⟩ := Option.ne_none_iff_exists'.1 (halloc s (h.hasNode_iff.1 hn))
    exact ⟨s, st', rfl, hst'⟩
  · apply h.distinct.imp_of_mem
    intro a b ha hb hne heq
    apply hne
    rw [fsmCmpf_eq_zero_iff] at heq ⊢
    rwa [hkeep a ha, hkeep b hb] at heq

theorem ne_none {s : StateId} (hs : s ∈ w.registered) : w.states s ≠ none := by
  obtain ⟨s', st, heq, hst⟩ := h.entry _ (h.hasNode_iff.2 hs)
  cases heq
  rw [hst]
  exact Option.some_ne_none st

/-- The key of a state that is not registered does not matter. -/
theorem store {s : StateId} (hs : s ∉ w.registered) (st : StateObj A) :
    World.Registry { w with states := storeState w.states s st } := by
  apply h.of_readKey fun n hn ↦ h.readKey_store hs st hn
  intro s' hs'
  have hne : s' ≠ s := fun heq ↦ hs (heq ▸ hs')
  rw [storeState_of_ne _ _ hne]
  exact h.ne_none hs'

theorem findNode_store_eq_none_iff {s : StateId} (hs : s ∉ w.registered) (st : StateObj A) :
    w.fsm.sttable.findNode (fsmCallbacks (storeState w.states s st)) (.stKey s) = .ok none ↔
      htableSearch (fsmCallbacks w.states) w.fsm.sttable (.caller st.stKey) = .ok none := by
  have hstore := (h.store hs st).findNode_eq_none_iff (.stKey s)
  dsimp only at hstore
  rw [hstore, h.htableSearch_eq_none_iff, h.findNode_eq_none_iff,
    readKey_stKey (storeState_self w.states s st)]
  apply forall₂_congr
  intro n hn
  rw [h.readKey_store hs st hn]
  rfl

/-- A state whose key is new is put into the table. -/
theorem inserted {s : StateId} {st : StateObj A} (hst : w.states s = some st) {malloc : Bool}
    (hnone : w.fsm.sttable.findNode (fsmCallbacks w.states) (.stKey s) = .ok none)
    (hfits : w.fsm.sttable.InsertFits malloc) :
    World.Registry { w with fsm := { w.fsm with
      sttable := w.fsm.sttable.inserted (fsmCallbacks w.states) malloc ⟨.stKey s, some s⟩ } } := by
  have hperm := (h.placed.toSound.inserted (fsmCallbacks w.states) ⟨.stKey s, some s⟩ hfits).2
  have hkeyed : w.fsm.sttable.Keyed (fsmCallbacks w.states) := ⟨h.placed, h.distinct⟩
  refine ⟨h.placed.inserted _ hfits, fun n hn ↦ ?_, (hkeyed.inserted hnone hfits).distinct⟩
  rcases List.mem_append.1 (hperm.mem_iff.1 hn) with hold | hnew
  · exact h.entry n hold
  · exact ⟨s, st, List.mem_singleton.1 hnew, hst⟩

end World.Registry

section Call

variable {w w' : World A D} {mallocs : InsertMallocs} {key : UInt32} {s : StateId} {r : FsmRet}

theorem storeState_sameKey {mem : StateMem A} {st : StateObj A} (hst : mem s = some st) :
    storeState mem s { st with stKey := st.stKey } = mem :=
  (Function.update_eq_self_iff ..).2 hst.symm

/-- Writing the key of a state leaves the table as it should be, unless the state is registered
under another key. -/
theorem World.Registry.writeKey (h : w.Registry) {st : StateObj A} (hst : w.states s = some st)
    (hkey : readKey w.states (.stKey s) = key ∨ s ∉ w.registered) :
    World.Registry { w with states := storeState w.states s { st with stKey := key } } := by
  rcases hkey with hsame | hunregistered
  · rw [readKey_stKey hst] at hsame
    rw [← hsame, storeState_sameKey hst]
    exact h
  · exact h.store hunregistered _

/-- A call that does not give a registered state another key keeps the table as it should be. -/
theorem World.Registry.addState (h : w.Registry)
    (hkey : readKey w.states (.stKey s) = key ∨ s ∉ w.registered)
    (hrun : fsmAddState mallocs w key s = .ok (r, w')) : w'.Registry := by
  obtain ⟨st, ret, t, hst, hinsert, rfl, _⟩ := fsmAddState_inv hrun
  have hwrite := h.writeKey hst hkey
  rcases hwrite.placed.toSound.htableInsert_inv hinsert with
    ⟨_, rfl, _⟩ | ⟨hnone, ⟨_, rfl⟩ | ⟨_, rfl, hfits⟩⟩
  · exact hwrite
  · exact hwrite
  · exact hwrite.inserted (storeState_self ..) hnone hfits

theorem World.Registry.unchanged (h : w.Registry) (hadmits : w.Admits key s)
    (hrun : fsmAddState mallocs w key s = .ok (.eexists, w')) : w.Unchanged w' s := by
  obtain ⟨st, ret, t, hst, hinsert, rfl, hret⟩ := fsmAddState_inv hrun
  obtain ⟨htable, n, hfound⟩ : t = w.fsm.sttable ∧ ∃ n, w.fsm.sttable.findNode
      (fsmCallbacks (storeState w.states s { st with stKey := key })) (.stKey s) =
        .ok (some n) := by
    rcases h.placed.toSound.htableInsert_inv hinsert with
      ⟨_, htable, hfound⟩ | ⟨_, ⟨hnomem, _⟩ | ⟨hok, _⟩⟩
    · exact ⟨htable, hfound⟩
    · exact absurd (hret.1 rfl) (hnomem ▸ HtRet.noConfusion)
    · exact absurd (hret.1 rfl) (hok ▸ HtRet.noConfusion)
  rcases hadmits with hsame | ⟨hunregistered, hnone⟩
  · rw [readKey_stKey hst] at hsame
    rw [htable, ← hsame, storeState_sameKey hst]
    exact ⟨rfl, fun _ _ ↦ rfl, rfl⟩
  · have hnew := (h.findNode_store_eq_none_iff hunregistered { st with stKey := key }).2 hnone
    rw [hfound] at hnew
    cases hnew

theorem World.Registry.not_consistent (h : w.Registry) (hs : s ∈ w.registered)
    (hrun : fsmAddState mallocs w key s = .ok (r, w')) (hr : r ≠ .eexists) : ¬ w'.Consistent := by
  intro hconsistent
  obtain ⟨st, ret, t, hst, hinsert, rfl, hret⟩ := fsmAddState_inv hrun
  have hread : readKey (storeState w.states s { st with stKey := key }) (.stKey s) = key :=
    readKey_stKey (storeState_self ..)
  have hmem : (⟨.stKey s, some s⟩ : HNode KeyRef StateId) ∈ w.fsm.sttable.htTable.flatten :=
    h.hasNode_iff.2 hs
  rcases h.placed.toSound.htableInsert_inv hinsert with
    ⟨hexisting, _⟩ | ⟨hnone, ⟨_, rfl⟩ | ⟨_, rfl, hfits⟩⟩
  · exact hr (hret.2 hexisting)
  · -- the state is not found under its new key
    obtain ⟨s', st', hdata, hst', hsearch⟩ := hconsistent.found _ hmem
    cases hdata
    have hkey : st'.stKey = key := (readKey_stKey hst').symm.trans hread
    have hsame := findNode_congr (t := w.fsm.sttable) (b := .caller key) hread
    rw [hkey, htableSearch, ← hsame, hnone] at hsearch
    cases hsearch
  · -- the state is in the table twice
    have hperm := (h.placed.toSound.inserted
      (fsmCallbacks (storeState w.states s { st with stKey := key })) ⟨.stKey s, some s⟩
      hfits).2
    have hpairs := (hperm.pairwise_iff fun hab ↦ Ne.symm hab).1 hconsistent.distinct
    have hne := (List.pairwise_append.1 hpairs).2.2 _ hmem _ (List.mem_singleton_self _)
    exact hne rfl

theorem World.Registry.addKeeps_iff (h : w.Registry)
    (hrun : fsmAddState mallocs w key s = .ok (r, w')) :
    AddKeeps w s r w' ↔ w.Admits key s := by
  constructor
  · intro hkeeps
    by_contra hadmits
    unfold World.Admits at hadmits
    push Not at hadmits
    obtain ⟨hkey, hfound⟩ := hadmits
    obtain ⟨st, ret, t, hst, hinsert, hw', hret⟩ := fsmAddState_inv hrun
    -- the call has changed the key of the state, so it was not refused
    have hr : r ≠ .eexists := by
      intro hrefused
      have hsame := (hkeeps.2 hrefused).stKey
      rw [hw', readKey_stKey (storeState_self ..)] at hsame
      exact hkey hsame.symm
    by_cases hs : s ∈ w.registered
    · exact h.not_consistent hs hrun hr hkeeps.1
    · -- a state with the key is found, so it was
      apply hfound hs
      apply (h.findNode_store_eq_none_iff hs { st with stKey := key }).1
      rcases h.placed.toSound.htableInsert_inv hinsert with ⟨hexisting, _⟩ | ⟨hnone, _⟩
      · exact absurd (hret.2 hexisting) hr
      · exact hnone
  · intro hadmits
    refine ⟨(h.addState (hadmits.imp_right And.left) hrun).consistent, fun hrefused ↦ ?_⟩
    rw [hrefused] at hrun
    exact h.unchanged hadmits hrun

end Call

/-! ## Runs -/

theorem World.Registry.allKeep_iff {w : World A D} (h : w.Registry) (cs : List AddCall) :
    AllKeep w cs ↔ AllAdmitted w cs := by
  induction cs generalizing w with
  | nil => exact Iff.rfl
  | cons c cs ih =>
      rw [AllKeep, AllAdmitted]
      cases hrun : fsmAddState c.mallocs w c.key c.pstate with
      | error fault => exact Iff.rfl
      | ok result =>
          obtain ⟨r, w'⟩ := result
          dsimp only
          rw [h.addKeeps_iff hrun]
          exact and_congr_right fun hadmits ↦ ih (h.addState (hadmits.imp_right And.left) hrun)

theorem emptyTable_registry {w : World A D} {size factor : ℕ} (hpos : 0 < size)
    (hfits : size * sizeofHhead < sizeModulus) (htable : w.fsm.sttable = emptyTable size factor) :
    w.Registry := by
  have hnone : ∀ n, ¬ w.fsm.sttable.HasNode n := fun n ↦ htable ▸ not_hasNode_emptyTable
  have hnil : w.fsm.sttable.htTable.flatten = [] := List.eq_nil_iff_forall_not_mem.2 hnone
  refine ⟨htable ▸ emptyTable_placed hpos hfits, fun n hn ↦ absurd hn (hnone n), ?_⟩
  rw [hnil]
  exact List.Pairwise.nil

theorem fsmAddState_of_no_heads {w w' : World A D} (hempty : w.fsm.sttable.htTable = [])
    {mallocs : InsertMallocs} {key : UInt32} {s : StateId} {r : FsmRet} :
    fsmAddState mallocs w key s ≠ .ok (r, w') := by
  intro hrun
  obtain ⟨st, ret, t, _, hinsert, _⟩ := fsmAddState_inv hrun
  rw [HTable.htableInsert_of_no_heads hempty] at hinsert
  cases hinsert

/-- A sequence of calls on a machine that `fsm_init` returned keeps the table consistent, and its
refusals change nothing, exactly if every call is admitted. -/
theorem allKeep_iff_allAdmitted {mallocs : FsmMallocs} {size factor : ℕ} {nqueues : UInt32}
    {fsm : Fsm D} (hinit : fsmInit mallocs size factor nqueues = .ok (.ok, some fsm))
    (states : StateMem A) (cs : List AddCall) :
    AllKeep ⟨states, fsm, []⟩ cs ↔ AllAdmitted ⟨states, fsm, []⟩ cs := by
  obtain ⟨hfits, rfl⟩ := fsmInit_ok hinit
  rcases Nat.eq_zero_or_pos size with hzero | hpos
  · subst hzero
    cases cs with
    | nil => exact Iff.rfl
    | cons c cs =>
        rw [AllKeep, AllAdmitted]
        cases hrun : fsmAddState c.mallocs (⟨states, ⟨emptyTable 0 factor, none, nqueues,
            List.replicate nqueues.toNat []⟩, []⟩ : World A D) c.key c.pstate with
        | error fault => exact Iff.rfl
        | ok result => exact absurd hrun (fsmAddState_of_no_heads rfl)
  · exact (emptyTable_registry hpos hfits rfl).allKeep_iff cs

/-- A machine with four heads. -/
def fourHeads : Fsm ℕ := ⟨emptyTable 4 1, none, 0, []⟩

/-- Two states, as `state_init` may leave them. -/
def twoStates : StateMem ℕ := fun s ↦ if s < 2 then some ⟨emptyTable 1 1, 0, 0⟩ else none

/-- Two states are registered under two keys, and the first one once more under its own. -/
theorem twoStates_allKeep : AllKeep ⟨twoStates, fourHeads, []⟩
    [⟨⟨true, true⟩, 1, 0⟩, ⟨⟨true, true⟩, 2, 1⟩, ⟨⟨true, true⟩, 1, 0⟩] := by
  have hinit : fsmInit ⟨true, true, true, true, true⟩ 4 1 0 = .ok (.ok, some fourHeads) := rfl
  exact (allKeep_iff_allAdmitted hinit twoStates _).2
    ⟨.inr ⟨by decide, rfl⟩, .inr ⟨by decide, rfl⟩, .inl rfl, trivial⟩

/-- A state that is registered under one key and then under another one is in the table twice. -/
theorem twoKeys_not_allKeep : ¬ AllKeep ⟨twoStates, fourHeads, []⟩
    [⟨⟨true, true⟩, 1, 0⟩, ⟨⟨true, true⟩, 2, 0⟩] := by
  intro hkeep
  obtain ⟨_, ⟨hconsistent, _⟩, _⟩ := hkeep
  exact absurd hconsistent.distinct (by decide)

end Experimentation.StateMachine
