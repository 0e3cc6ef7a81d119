import Experimentation.HashTable.Iterator
import Experimentation.Semantics.Sweep
import Experimentation.StateMachine.Machine

/-!
# What `fsm_mark_reachable_states` does to the flags

The two nested loops over the iterators are one sweep: the states in the order of the table, and for
each of them that is flagged when its turn comes, the targets of its events.  Only flags change, so
the loops may be read with the tables as they were.
-/

namespace Experimentation.StateMachine

open Semantics HashTable

variable {A D : Type}

def flagState (mem : StateMem A) (t : StateId) : StateMem A := fun s ↦
  if s = t then (mem s).map StateObj.markAsReachable else mem s

/-- The flag of a state is set. -/
def IsFlagged (mem : StateMem A) (s : StateId) : Prop := (mem s).any StateObj.isReachable = true

instance (mem : StateMem A) (s : StateId) : Decidable (IsFlagged mem s) :=
  inferInstanceAs (Decidable (_ = true))

theorem isFlagged_iff {mem : StateMem A} {s : StateId} {st : StateObj A} (h : mem s = some st) :
    IsFlagged mem s ↔ st.isReachable = true := by
  rw [IsFlagged, h, Option.any_some]

/-- The memories differ in nothing but flags. -/
def SameButFlags (mem mem' : StateMem A) : Prop := ∀ s,
  (mem' s).map (fun st ↦ (st.evttable, st.stKey)) = (mem s).map fun st ↦ (st.evttable, st.stKey)

namespace SameButFlags

variable {mem mem' mem'' : StateMem A} {s : StateId} {st : StateObj A}

theorem refl (mem : StateMem A) : SameButFlags mem mem := fun _ ↦ rfl

theorem symm (h : SameButFlags mem mem') : SameButFlags mem' mem := fun s ↦ (h s).symm

theorem trans (h : SameButFlags mem mem') (h' : SameButFlags mem' mem'') :
    SameButFlags mem mem'' := fun s ↦ (h' s).trans (h s)

theorem flagState (mem : StateMem A) (t : StateId) :
    SameButFlags mem (StateMachine.flagState mem t) := fun s ↦ by
  unfold StateMachine.flagState
  split
  · rw [Option.map_map]
    rfl
  · rfl

theorem exists_eq (h : SameButFlags mem mem') (hst : mem s = some st) :
    ∃ st', mem' s = some st' ∧ st'.evttable = st.evttable ∧ st'.stKey = st.stKey := by
  have heq := h s
  rw [hst, Option.map_some, Option.map_eq_some_iff] at heq
  obtain ⟨st', hst', hpair⟩ := heq
  exact ⟨st', hst', congrArg Prod.fst hpair, congrArg Prod.snd hpair⟩

theorem none_iff (h : SameButFlags mem mem') : mem' s = none ↔ mem s = none := by
  have heq := h s
  rw [← Option.map_eq_none_iff (f := fun st : StateObj A ↦ (st.evttable, st.stKey)), heq,
    Option.map_eq_none_iff]

theorem readKey_eq (h : SameButFlags mem mem') (r : KeyRef) : readKey mem' r = readKey mem r := by
  cases r with
  | caller key => rfl
  | stKey s =>
      cases hst : mem s with
      | none => rw [readKey, readKey, hst, h.none_iff.2 hst]
      | some st =>
          obtain ⟨st', hst', _, hkey⟩ := h.exists_eq hst
          rw [readKey, readKey, hst, hst']
          exact hkey

end SameButFlags

theorem sameButFlags_foldl (mem : StateMem A) (ts : List StateId) :
    SameButFlags mem (ts.foldl flagState mem) := by
  induction ts generalizing mem with
  | nil => exact .refl mem
  | cons t ts ih => exact (SameButFlags.flagState mem t).trans (ih _)

theorem isFlagged_flagState {mem : StateMem A} {s t : StateId} (ht : mem t ≠ none) :
    IsFlagged (flagState mem t) s ↔ IsFlagged mem s ∨ s = t := by
  unfold IsFlagged flagState
  by_cases hst : s = t
  · subst hst
    obtain ⟨st, hmem⟩ := Option.ne_none_iff_exists'.1 ht
    rw [if_pos rfl, hmem]
    simp
  · rw [if_neg hst]
    simp [hst]

theorem storeState_markAsReachable {mem : StateMem A} {t : StateId} {st : StateObj A}
    (h : mem t = some st) : storeState mem t st.markAsReachable = flagState mem t := by
  funext s
  unfold flagState
  by_cases hs : s = t
  · rw [hs, storeState_self, if_pos rfl, h]
    rfl
  · rw [storeState_of_ne mem _ hs, if_neg hs]

/-! ## The sweep -/

/-- The state that the event of a node leads to. -/
def eventTarget (n : HNode UInt32 (Event A)) : Option StateId := n.hnData.bind Event.evtNewstate

theorem eventTarget_eq {n : HNode UInt32 (Event A)} {ev : Event A} (hdata : n.hnData = some ev) :
    eventTarget n = ev.evtNewstate := by
  rw [eventTarget, hdata, Option.bind_some]

/-- The targets of the events that the iterator yields. -/
def targetsOf (mem : StateMem A) (s : StateId) : List StateId :=
  match mem s with
  | none => []
  | some st => (yielded st.evttable.htTable).filterMap eventTarget

/-- One turn of the outer loop. -/
def sweepState (mem : StateMem A) (s : StateId) : StateMem A :=
  if IsFlagged mem s then (targetsOf mem s).foldl flagState mem else mem

/-- The states in the order of the outer loop. -/
def World.sweepOrder (w : World A D) : List StateId :=
  (yielded w.fsm.sttable.htTable).filterMap HNode.hnData

theorem SameButFlags.targetsOf_eq {mem mem' : StateMem A} (h : SameButFlags mem mem')
    (s : StateId) : targetsOf mem' s = targetsOf mem s := by
  cases hst : mem s with
  | none => rw [targetsOf, targetsOf, hst, h.none_iff.2 hst]
  | some st =>
      obtain ⟨st', hst', htable, _⟩ := h.exists_eq hst
      rw [targetsOf, targetsOf, hst, hst']
      dsimp only
      rw [htable]

theorem sameButFlags_sweepState (mem : StateMem A) (s : StateId) :
    SameButFlags mem (sweepState mem s) := by
  unfold sweepState
  split
  · exact sameButFlags_foldl mem _
  · exact .refl mem

theorem sameButFlags_sweep (mem : StateMem A) (order : List StateId) :
    SameButFlags mem (order.foldl sweepState mem) := by
  induction order generalizing mem with
  | nil => exact .refl mem
  | cons s order ih => exact (sameButFlags_sweepState mem s).trans (ih _)

def flagged (mem : StateMem A) : Set StateId := {s | IsFlagged mem s}

theorem flagged_foldl {mem : StateMem A} {ts : List StateId} (hts : ∀ t ∈ ts, mem t ≠ none)
    {s : StateId} : s ∈ flagged (ts.foldl flagState mem) ↔ s ∈ flagged mem ∨ s ∈ ts := by
  induction ts generalizing mem with
  | nil => simp
  | cons t ts ih =>
      have ht : mem t ≠ none := hts t List.mem_cons_self
      have hrest : ∀ t' ∈ ts, flagState mem t t' ≠ none := fun t' ht' hnone ↦
        hts t' (List.mem_cons_of_mem _ ht') ((SameButFlags.flagState mem t).none_iff.1 hnone)
      rw [List.foldl_cons, ih hrest, List.mem_cons]
      change IsFlagged (flagState mem t) s ∨ _ ↔ IsFlagged mem s ∨ _
      rw [isFlagged_flagState ht, or_assoc]

/-- The flags after one turn of the outer loop are the marks after a visit. -/
theorem flagged_sweepState {mem : StateMem A} {s : StateId}
    (hts : ∀ t ∈ targetsOf mem s, mem t ≠ none) :
    flagged (sweepState mem s) = Sweep.visit (targetsOf mem) (flagged mem) s := by
  ext t
  unfold sweepState
  split
  · rename_i hflag
    rw [flagged_foldl hts]
    exact ⟨fun h ↦ h.imp_right fun ht ↦ ⟨hflag, ht⟩, fun h ↦ h.imp_right And.right⟩
  · rename_i hflag
    exact ⟨Or.inl, fun h ↦ h.resolve_right fun ht ↦ hflag ht.1⟩

theorem targetsOf_sweepState (mem : StateMem A) (s : StateId) :
    targetsOf (sweepState mem s) = targetsOf mem :=
  funext fun t ↦ (sameButFlags_sweepState mem s).targetsOf_eq t

/-- The flags after a sweep are the marks of a sweep over the graph of the yielded targets. -/
theorem flagged_sweep {mem : StateMem A} {order : List StateId}
    (hts : ∀ s ∈ order, ∀ t ∈ targetsOf mem s, mem t ≠ none) :
    flagged (order.foldl sweepState mem) = Sweep.sweep (targetsOf mem) (flagged mem) order := by
  induction order generalizing mem with
  | nil => rfl
  | cons s order ih =>
      have hsame := sameButFlags_sweepState mem s
      rw [List.foldl_cons, ih, targetsOf_sweepState, flagged_sweepState (hts s List.mem_cons_self)]
      · rfl
      · intro s' hs' t ht hnone
        rw [targetsOf_sweepState] at ht
        exact hts s' (List.mem_cons_of_mem _ hs') t ht (hsame.none_iff.1 hnone)

/-! ## The loops are the sweep -/

/-- The node of an event leads to a state in memory. -/
def EventOk (mem : StateMem A) (n : HNode UInt32 (Event A)) : Prop :=
  ∃ t, eventTarget n = some t ∧ mem t ≠ none

/-- The node of a state holds a state in memory, all of whose events lead to states in memory. -/
def EntryOk (mem : StateMem A) (n : HNode KeyRef StateId) : Prop :=
  ∃ s st, n.hnData = some s ∧ mem s = some st ∧ st.evttable.Indexed ∧
    ∀ e ∈ st.evttable.htTable.flatten, EventOk mem e

theorem EventOk.of_same {mem mem' : StateMem A} (hsame : SameButFlags mem mem')
    {n : HNode UInt32 (Event A)} (h : EventOk mem n) : EventOk mem' n := by
  obtain ⟨t, htarget, ht⟩ := h
  exact ⟨t, htarget, fun hnone ↦ ht (hsame.none_iff.1 hnone)⟩

theorem EntryOk.of_same {mem mem' : StateMem A} (hsame : SameButFlags mem mem')
    {n : HNode KeyRef StateId} (h : EntryOk mem n) : EntryOk mem' n := by
  obtain ⟨s, st, hdata, hst, hindexed, hevents⟩ := h
  obtain ⟨st', hst', htable, _⟩ := hsame.exists_eq hst
  refine ⟨s, st', hdata, hst', htable ▸ hindexed, fun e he ↦ ?_⟩
  rw [htable] at he
  exact (hevents e he).of_same hsame

theorem markEvent_eq {w : World A D} {pstate : StateId} (hp : w.states pstate ≠ none)
    {n : HNode UInt32 (Event A)} (hn : EventOk w.states n) (pos : ℕ)
    (rest : List (HNode UInt32 (Event A))) :
    ∃ t, eventTarget n = some t ∧ w.states t ≠ none ∧
      markEvent pstate w ⟨pos, n :: rest⟩ = .ok { w with
        states := if IsFlagged w.states pstate then flagState w.states t else w.states } := by
  obtain ⟨t, htarget, ht⟩ := hn
  obtain ⟨pevt, hdata, hnewstate⟩ := Option.bind_eq_some_iff.1 htarget
  obtain ⟨st, hst⟩ := Option.ne_none_iff_exists'.1 hp
  obtain ⟨new, hnew⟩ := Option.ne_none_iff_exists'.1 ht
  refine ⟨t, htarget, ht, ?_⟩
  change (loadState w.states pstate >>= fun st ↦ if st.isReachable then _ else _) = _
  rw [loadState_eq hst, Exec.ok_bind]
  by_cases hflag : st.isReachable = true
  · rw [if_pos hflag, if_pos ((isFlagged_iff hst).2 hflag), hdata]
    dsimp only
    rw [hnewstate]
    dsimp only
    rw [loadState_eq hnew, Exec.ok_bind, storeState_markAsReachable hnew]
    rfl
  · rw [if_neg hflag, if_neg fun h ↦ hflag ((isFlagged_iff hst).1 h)]
    rfl

theorem foldlM_markEvent {w : World A D} {pstate : StateId} (hp : w.states pstate ≠ none)
    {ns : List (HNode UInt32 (Event A))} (hns : ∀ n ∈ ns, EventOk w.states n) :
    ns.foldlM (fun w n ↦ markEvent pstate w ⟨0, [n]⟩) w = .ok { w with
      states := if IsFlagged w.states pstate then
        (ns.filterMap eventTarget).foldl flagState w.states
        else w.states } := by
  induction ns generalizing w with
  | nil =>
      rw [List.filterMap_nil, List.foldl_nil, ite_self]
      rfl
  | cons n ns ih =>
      obtain ⟨t, htarget, ht, hstep⟩ := markEvent_eq hp (hns n List.mem_cons_self) 0 []
      rw [List.foldlM_cons, hstep, Exec.ok_bind, List.filterMap_cons_some htarget, List.foldl_cons]
      by_cases hflag : IsFlagged w.states pstate
      · have hsame := SameButFlags.flagState w.states t
        have hstill : IsFlagged (flagState w.states t) pstate :=
          (isFlagged_flagState ht).2 (.inl hflag)
        rw [if_pos hflag, if_pos hflag, ih (fun hnone ↦ hp (hsame.none_iff.1 hnone))
          fun e he ↦ (hns e (List.mem_cons_of_mem _ he)).of_same hsame]
        dsimp only
        rw [if_pos hstill]
      · rw [if_neg hflag, if_neg hflag]
        have hrest := ih hp fun e he ↦ hns e (List.mem_cons_of_mem _ he)
        rwa [if_neg hflag] at hrest

theorem markState_eq {w : World A D} {n : HNode KeyRef StateId} (hn : EntryOk w.states n) (pos : ℕ)
    (rest : List (HNode KeyRef StateId)) :
    ∃ s, n.hnData = some s ∧
      markState w ⟨pos, n :: rest⟩ = .ok { w with states := sweepState w.states s } := by
  obtain ⟨s, st, hdata, hst, hindexed, hevents⟩ := hn
  refine ⟨s, hdata, ?_⟩
  have hp : w.states s ≠ none := by
    rw [hst]
    exact Option.some_ne_none st
  have hinner : st.evttable.forEachElm (markEvent s) w =
      .ok { w with states := sweepState w.states s } := by
    rw [forEachElm_eq (f := fun w n ↦ markEvent s w ⟨0, [n]⟩) hindexed.length hindexed.pos
      fun _ _ _ _ ↦ rfl,
      foldlM_markEvent hp fun e he ↦ hevents e ((yielded_sublist _).subset he)]
    rw [sweepState, targetsOf, hst]
  have hget : htableIteratorGetData (⟨pos, n :: rest⟩ : HIterator KeyRef StateId) =
      .ok (some s) := congrArg Except.ok hdata
  rw [markState, hget, Exec.ok_bind]
  dsimp only
  rw [loadState_eq hst, Exec.ok_bind, hinner]

theorem fsmMarkReachableStates_eq {w : World A D} (hindexed : w.fsm.sttable.Indexed)
    (hentries : ∀ n ∈ w.fsm.sttable.htTable.flatten, EntryOk w.states n) :
    fsmMarkReachableStates w =
      .ok { w with states := w.sweepOrder.foldl sweepState w.states } := by
  have hfold : ∀ (ns : List (HNode KeyRef StateId)) (w : World A D),
      (∀ n ∈ ns, EntryOk w.states n) → ns.foldlM (fun w n ↦ markState w ⟨0, [n]⟩) w =
        .ok { w with states := (ns.filterMap HNode.hnData).foldl sweepState w.states } := by
    intro ns
    induction ns with
    | nil => exact fun w _ ↦ rfl
    | cons n ns ih =>
        intro w hns
        obtain ⟨s, hdata, hstep⟩ := markState_eq (hns n List.mem_cons_self) 0 []
        rw [List.foldlM_cons, hstep, Exec.ok_bind, List.filterMap_cons_some hdata, List.foldl_cons]
        exact ih _ fun e he ↦
          (hns e (List.mem_cons_of_mem _ he)).of_same (sameButFlags_sweepState w.states s)
  rw [fsmMarkReachableStates, forEachElm_eq (f := fun w n ↦ markState w ⟨0, [n]⟩) hindexed.length
    hindexed.pos fun _ _ _ _ ↦ rfl]
  exact hfold _ w fun n hn ↦ hentries n ((yielded_sublist _).subset hn)

end Experimentation.StateMachine
