import Experimentation.StateMachine.Output
import Experimentation.StateMachine.Registration

/-!
# Events without a target

`state_add_evt` stores whatever target it is given, and `fsm_process_event` asks whether there is
one.  The loops over the transitions do not ask.  The marking meets an event without a target when
the state that handles it is flagged by then, the export when the iterators yield it, and the
printing whenever its state is yielded.
-/

namespace Experimentation.StateMachine

open Semantics HashTable

variable {A D : Type}

/-- A call that sets, marks, runs, exports or prints. -/
inductive Walk (D : Type)
  | setState (stkey : UInt32)
  | mark
  | processEvent (evtkey : UInt32) (data : D)
  | exportToDot (fp : File)
  | printStates (fp : File)

def performWalk (w : World A D) (out : Output) : Walk D → Exec (World A D × Output)
  | .setState stkey => do
      let (_, w) ← fsmSetState w stkey
      return (w, out)
  | .mark => do
      let w ← fsmMarkReachableStates w
      return (w, out)
  | .processEvent evtkey data => do
      let (_, w) ← fsmProcessEvent leaveAlone w evtkey data
      return (w, out)
  | .exportToDot fp => do
      let out ← fsmExportToDot w fp out
      return (w, out)
  | .printStates fp => do
      let out ← fsmPrintStates w fp out
      return (w, out)

/-- The only bad pointer that the call may dereference is that of the current state, before there is
one. -/
def Walk.NullSafe (w : World A D) (out : Output) (c : Walk D) : Prop :=
  performWalk w out c = .error .badPointer →
    ∃ evtkey data, c = .processEvent evtkey data ∧ w.fsm.cstate = none

/-! ## When an event without a target is met -/

/-- No path of yielded transitions, from a marked state and through states in the order of the
table, leads to a state at whose turn the iterator yields an event without a target. -/
def World.MarksTargets (w : World A D) (marks : Set StateId) : Prop :=
  ∀ before s after, w.sweepOrder = before ++ s :: after → YieldsNull w.states s →
    ¬ Sweep.Ascends (targetsOf w.states) marks before s

/-- The description of the event ends within its array. -/
def Terminated (e : HNode UInt32 (Event A)) : Prop := ∀ ev, e.hnData = some ev → 0 ∈ ev.evtDesc

/-- The events in the order in which they are printed. -/
def World.printOrder (w : World A D) : List (HNode UInt32 (Event A)) :=
  w.sweepOrder.flatMap fun s ↦ (w.states s).elim [] fun st ↦ st.evttable.htTable.flatten

/-- Every event up to the first one whose description does not end has a target. -/
def PrintsTargets : List (HNode UInt32 (Event A)) → Prop
  | [] => True
  | e :: es => eventTarget e ≠ none ∧ (Terminated e → PrintsTargets es)

/-- The call meets no event without a target. -/
def Walk.MeetsTargets (w : World A D) : Walk D → Prop
  | .setState stkey => ∀ s,
      htableSearch (fsmCallbacks w.states) w.fsm.sttable (.caller stkey) = .ok (some s) →
      w.MarksTargets (insert s (flagged w.states))
  | .mark => w.MarksTargets (flagged w.states)
  | .processEvent _ _ => True
  | .exportToDot _ => ∀ s ∈ w.sweepOrder, ¬ YieldsNull w.states s
  | .printStates _ => PrintsTargets w.printOrder

/-- No call of the run dereferences an absent target. -/
def NullSafeRun : World A D → Output → List (Walk D) → Prop
  | _, _, [] => True
  | w, out, c :: cs => c.NullSafe w out ∧
      match performWalk w out c with
      | .ok (w, out) => NullSafeRun w out cs
      | .error _ => True

/-- No call of the run meets an event without a target. -/
def MeetsTargetsRun : World A D → Output → List (Walk D) → Prop
  | _, _, [] => True
  | w, out, c :: cs => c.MeetsTargets w ∧
      match performWalk w out c with
      | .ok (w, out) => MeetsTargetsRun w out cs
      | .error _ => True

/-! ## What the loops meet -/

section Marking

variable {w : World A D} {s : StateId}

theorem markEvent_of_unflagged {st : StateObj A} (hst : w.states s = some st)
    (hflag : ¬ IsFlagged w.states s) (n : HNode UInt32 (Event A)) :
    markEvent s w ⟨0, [n]⟩ = .ok w := by
  change (loadState w.states s >>= fun st ↦ if st.isReachable then _ else _) = _
  rw [loadState_eq hst, Exec.ok_bind, if_neg fun h ↦ hflag ((isFlagged_iff hst).2 h)]
  rfl

theorem markEvent_of_null (hflag : IsFlagged w.states s) {n : HNode UInt32 (Event A)}
    (htarget : eventTarget n = none) : markEvent s w ⟨0, [n]⟩ = .error .badPointer := by
  cases hst : w.states s with
  | none =>
      rw [IsFlagged, hst] at hflag
      contradiction
  | some st =>
      change (loadState w.states s >>= fun st ↦ if st.isReachable then _ else _) = _
      rw [loadState_eq hst, Exec.ok_bind, if_pos ((isFlagged_iff hst).1 hflag)]
      rw [eventTarget] at htarget
      cases hdata : n.hnData with
      | none => rfl
      | some ev =>
          rw [hdata, Option.bind_some] at htarget
          dsimp only
          rw [htarget]
          rfl

theorem foldlM_markEvent_of_unflagged {st : StateObj A} (hst : w.states s = some st)
    (hflag : ¬ IsFlagged w.states s) (ns : List (HNode UInt32 (Event A))) :
    ns.foldlM (fun w n ↦ markEvent s w ⟨0, [n]⟩) w = .ok w := by
  induction ns with
  | nil => rfl
  | cons n ns ih =>
      rw [List.foldlM_cons, markEvent_of_unflagged hst hflag, Exec.ok_bind]
      exact ih

theorem YieldsNull.of_same {mem mem' : StateMem A} (hsame : SameButFlags mem mem')
    (h : YieldsNull mem s) : YieldsNull mem' s := by
  obtain ⟨st, hst, hnull⟩ := h
  obtain ⟨st', hst', htable, _⟩ := hsame.exists_eq hst
  exact ⟨st', hst', htable.symm ▸ hnull⟩

theorem yieldsNull_congr {mem mem' : StateMem A} (hsame : SameButFlags mem mem') :
    YieldsNull mem' s ↔ YieldsNull mem s :=
  ⟨.of_same hsame.symm, .of_same hsame⟩

theorem EntryLoads.markState_null {n : HNode KeyRef StateId}
    (h : EntryLoads w.states n) (hdata : n.hnData = some s) (hnull : YieldsNull w.states s)
    (hflag : IsFlagged w.states s) : markState w ⟨0, [n]⟩ = .error .badPointer := by
  obtain ⟨s', st, rfl, hst, hindexed, htargets⟩ := h
  cases hdata
  obtain ⟨st', hst', hnull⟩ := hnull
  cases hst.symm.trans hst'
  have hloop : st.evttable.forEachElm (markEvent s) w = .error .badPointer := by
    rw [forEachElm_eq (f := fun w n ↦ markEvent s w ⟨0, [n]⟩) hindexed.length hindexed.pos
      fun _ _ _ _ ↦ rfl]
    apply Exec.foldlM_error
      (P := fun w₁ ↦ IsFlagged w₁.states s ∧ SameButFlags w.states w₁.states) hnull
    · exact fun w₁ e hw₁ _ htarget ↦ markEvent_of_null hw₁.1 htarget
    · intro w₁ e hw₁ he htarget
      obtain ⟨hflag₁, hsame⟩ := hw₁
      obtain ⟨t, ht⟩ := Option.ne_none_iff_exists'.1 htarget
      have hmem : w₁.states t ≠ none := fun hnone ↦
        htargets e ((yielded_sublist _).subset he) t ht (hsame.none_iff.1 hnone)
      have hp : w₁.states s ≠ none := fun hnone ↦ by
        rw [hsame.none_iff.1 hnone] at hst
        cases hst
      obtain ⟨t', _, ht', hstep⟩ := markEvent_eq hp ⟨t, ht, hmem⟩ 0 []
      refine ⟨_, hstep, ?_⟩
      dsimp only
      rw [if_pos hflag₁]
      exact ⟨(isFlagged_flagState ht').2 (.inl hflag₁), hsame.trans (.flagState w₁.states t')⟩
    · exact ⟨hflag, .refl _⟩
  change (loadState w.states s >>= fun st ↦ st.evttable.forEachElm (markEvent s) w) = _
  rw [loadState_eq hst, Exec.ok_bind, hloop]

theorem EntryLoads.markState_ok {n : HNode KeyRef StateId}
    (h : EntryLoads w.states n) (hdata : n.hnData = some s)
    (hpass : YieldsNull w.states s → ¬ IsFlagged w.states s) :
    markState w ⟨0, [n]⟩ = .ok { w with states := sweepState w.states s } := by
  obtain ⟨s', st, rfl, hst, hindexed, htargets⟩ := h
  cases hdata
  have hloop : st.evttable.forEachElm (markEvent s) w =
      .ok { w with states := sweepState w.states s } := by
    rw [forEachElm_eq (f := fun w n ↦ markEvent s w ⟨0, [n]⟩) hindexed.length hindexed.pos
      fun _ _ _ _ ↦ rfl]
    by_cases hflag : IsFlagged w.states s
    · have hevents : ∀ e ∈ yielded st.evttable.htTable, EventOk w.states e := by
        intro e he
        obtain ⟨t, ht⟩ := Option.ne_none_iff_exists'.1 fun hnone ↦
          hpass ⟨st, hst, e, he, hnone⟩ hflag
        exact ⟨t, ht, htargets e ((yielded_sublist _).subset he) t ht⟩
      have hp : w.states s ≠ none := hst ▸ Option.some_ne_none st
      rw [foldlM_markEvent hp hevents, sweepState, targetsOf, hst]
    · rw [foldlM_markEvent_of_unflagged hst hflag, sweepState, if_neg hflag]
  change (loadState w.states s >>= fun st ↦ st.evttable.forEachElm (markEvent s) w) = _
  rw [loadState_eq hst, Exec.ok_bind, hloop]

theorem forall_split_cons {α : Type} {P : List α → α → Prop} {a : α} {as : List α} :
    (∀ before x after, a :: as = before ++ x :: after → P before x) ↔
      P [] a ∧ ∀ before x after, as = before ++ x :: after → P (a :: before) x := by
  constructor
  · intro h
    refine ⟨h [] a as rfl, fun before x after heq ↦ h (a :: before) x after ?_⟩
    rw [heq, List.cons_append]
  · intro h before x after heq
    cases before with
    | nil =>
        cases heq
        exact h.1
    | cons b before =>
        cases heq
        exact h.2 before x after rfl

/-- At no turn of a sweep is a state marked that yields an event without a target. -/
def SweepsTargets (mem : StateMem A) (marks : Set StateId) (order : List StateId) : Prop :=
  ∀ before s after, order = before ++ s :: after → YieldsNull mem s →
    s ∉ Sweep.sweep (targetsOf mem) marks before

theorem foldlM_markState {ns : List (HNode KeyRef StateId)}
    (hns : ∀ n ∈ ns, EntryLoads w.states n) :
    (SweepsTargets w.states (flagged w.states) (ns.filterMap HNode.hnData) ∧
      ns.foldlM (fun w n ↦ markState w ⟨0, [n]⟩) w =
        .ok { w with states := (ns.filterMap HNode.hnData).foldl sweepState w.states }) ∨
    (¬ SweepsTargets w.states (flagged w.states) (ns.filterMap HNode.hnData) ∧
      ns.foldlM (fun w n ↦ markState w ⟨0, [n]⟩) w = .error .badPointer) := by
  induction ns generalizing w with
  | nil =>
      refine .inl ⟨fun before s after heq ↦ ?_, rfl⟩
      cases before with
      | nil => cases heq
      | cons b before => cases heq
  | cons n ns ih =>
      have hn := hns n List.mem_cons_self
      obtain ⟨s, st, heq, hst, _, htargets⟩ := hns n List.mem_cons_self
      have hdata : n.hnData = some s := heq ▸ rfl
      have hsame := sameButFlags_sweepState w.states s
      have hloads : ∀ t ∈ targetsOf w.states s, w.states t ≠ none := by
        intro t ht
        rw [targetsOf, hst] at ht
        obtain ⟨e, he, htarget⟩ := List.mem_filterMap.1 ht
        exact htargets e ((yielded_sublist _).subset he) t htarget
      have hsplit : SweepsTargets w.states (flagged w.states) (s :: ns.filterMap HNode.hnData) ↔
          (YieldsNull w.states s → ¬ IsFlagged w.states s) ∧
            SweepsTargets (sweepState w.states s) (flagged (sweepState w.states s))
              (ns.filterMap HNode.hnData) := by
        refine forall_split_cons.trans (and_congr_right fun _ ↦ ?_)
        rw [SweepsTargets, targetsOf_sweepState, flagged_sweepState hloads]
        refine forall₄_congr fun before s' after _ ↦ ?_
        rw [yieldsNull_congr hsame]
        rfl
      rw [List.filterMap_cons_some hdata, List.foldlM_cons, hsplit]
      by_cases hpass : YieldsNull w.states s → ¬ IsFlagged w.states s
      · rw [hn.markState_ok hdata hpass, Exec.ok_bind]
        have hrest := ih (w := { w with states := sweepState w.states s }) fun m hm ↦
          (hns m (List.mem_cons_of_mem n hm)).of_same hsame
        rcases hrest with ⟨hsafe, hrun⟩ | ⟨hnot, hrun⟩
        · exact .inl ⟨⟨hpass, hsafe⟩, hrun⟩
        · exact .inr ⟨fun h ↦ hnot h.2, hrun⟩
      · have hboth : YieldsNull w.states s ∧ IsFlagged w.states s := by
          by_contra hnot
          exact hpass fun hnull hflag ↦ hnot ⟨hnull, hflag⟩
        rw [hn.markState_null hdata hboth.1 hboth.2]
        exact .inr ⟨fun h ↦ hpass h.1, rfl⟩

/-- A sweep that starts from some marks meets no state without targets just when no path does. -/
theorem sweepsTargets_iff {marks : Set StateId} :
    SweepsTargets w.states marks w.sweepOrder ↔ w.MarksTargets marks := by
  refine forall₄_congr fun before s after _ ↦ forall_congr' fun _ ↦ not_congr ?_
  exact Sweep.mem_sweep_iff

theorem marksTargets_of_closed {marks : Set StateId}
    (hclosed : ∀ s ∈ marks, ∀ t ∈ targetsOf w.states s, t ∈ marks)
    (hnull : ∀ s ∈ marks, ¬ YieldsNull w.states s) : w.MarksTargets marks := by
  intro before s after _ hyields hpath
  have hmark := Sweep.mem_sweep_iff.2 hpath
  rw [Sweep.sweep_of_closed hclosed] at hmark
  exact hnull s hmark hyields

/-- A single marked state whose only transition leads to itself meets no event without a target. -/
theorem marksTargets_of_loop {marks : Set StateId} (hmarks : ∀ t, t ∈ marks ↔ t = s)
    {st : StateObj A} {e : HNode UInt32 (Event A)} (hst : w.states s = some st)
    (hyielded : yielded st.evttable.htTable = [e]) (htarget : eventTarget e = some s) :
    w.MarksTargets marks := by
  obtain rfl : marks = {s} := Set.ext hmarks
  refine marksTargets_of_closed ?_ ?_
  · rintro _ rfl t ht
    rw [targetsOf, hst] at ht
    dsimp only at ht
    rw [hyielded, List.filterMap_cons_some htarget] at ht
    exact List.mem_singleton.1 ht
  · rintro _ rfl ⟨st', hst', e', he, hnone⟩
    cases hst.symm.trans hst'
    rw [hyielded] at he
    rw [List.mem_singleton.1 he, htarget] at hnone
    cases hnone

theorem Accessible.mark_cases (h : Accessible w) (hentries : w.EntriesLoad) :
    (w.MarksTargets (flagged w.states) ∧ ∃ mem, SameButFlags w.states mem ∧
      fsmMarkReachableStates w = .ok { w with states := mem }) ∨
    (¬ w.MarksTargets (flagged w.states) ∧ fsmMarkReachableStates w = .error .badPointer) := by
  have hloop : fsmMarkReachableStates w = (yielded w.fsm.sttable.htTable).foldlM
      (fun w n ↦ markState w ⟨0, [n]⟩) w :=
    forEachElm_eq h.sttable.length h.sttable.pos (fun _ _ _ _ ↦ rfl) w
  rw [hloop, ← sweepsTargets_iff]
  rcases foldlM_markState fun n hn ↦ h.entryLoads hentries ((yielded_sublist _).subset hn) with
    ⟨hsafe, hrun⟩ | ⟨hnot, hrun⟩
  · exact .inl ⟨hsafe, _, sameButFlags_sweep w.states _, hrun⟩
  · exact .inr ⟨hnot, hrun⟩

end Marking

section Printing

variable {mem : StateMem A}

theorem printsTargets_append {es es' : List (HNode UInt32 (Event A))} :
    PrintsTargets (es ++ es') ↔
      PrintsTargets es ∧ ((∀ e ∈ es, Terminated e) → PrintsTargets es') := by
  induction es with
  | nil => simp [PrintsTargets]
  | cons e es ih =>
      rw [List.cons_append, PrintsTargets, PrintsTargets, ih, and_assoc, List.forall_mem_cons]
      refine and_congr_right fun _ ↦ ?_
      constructor
      · exact fun h ↦ ⟨fun he ↦ (h he).1, fun hall ↦ (h hall.1).2 hall.2⟩
      · exact fun h he ↦ ⟨h.1 he, fun hall ↦ h.2 ⟨he, hall⟩⟩

/-- What printing some events comes to: they are all printed, or there is a description that does
not end, or there is an event without a target before that. -/
inductive Prints (es : List (HNode UInt32 (Event A))) : Exec Output → Prop
  | all (out : Output) (htargets : PrintsTargets es) (hends : ∀ e ∈ es, Terminated e) :
      Prints es (.ok out)
  | unterminated (htargets : PrintsTargets es) (hends : ¬ ∀ e ∈ es, Terminated e) :
      Prints es (.error .outOfBounds)
  | null (htargets : ¬ PrintsTargets es) : Prints es (.error .badPointer)

/-- Printing more events after some. -/
theorem Prints.bind {es es' : List (HNode UInt32 (Event A))} {x : Exec Output}
    {f : Output → Exec Output} (h : Prints es x) (hf : ∀ out, Prints es' (f out)) :
    Prints (es ++ es') (x >>= f) := by
  cases h with
  | all out htargets hends =>
      have hrest := hf out
      rw [Exec.ok_bind]
      generalize f out = y at hrest
      cases hrest with
      | all out' htargets' hends' =>
          refine .all out' (printsTargets_append.2 ⟨htargets, fun _ ↦ htargets'⟩) ?_
          exact List.forall_mem_append.2 ⟨hends, hends'⟩
      | unterminated htargets' hends' =>
          refine .unterminated (printsTargets_append.2 ⟨htargets, fun _ ↦ htargets'⟩) ?_
          exact fun h ↦ hends' (List.forall_mem_append.1 h).2
      | null htargets' => exact .null fun h ↦ htargets' ((printsTargets_append.1 h).2 hends)
  | unterminated htargets hends =>
      refine .unterminated (printsTargets_append.2 ⟨htargets, fun h ↦ absurd h hends⟩) ?_
      exact fun h ↦ hends fun e he ↦ h e (List.mem_append_left _ he)
  | null htargets => exact .null fun h ↦ htargets (printsTargets_append.1 h).1

/-- Printing nothing. -/
theorem Prints.nil (out : Output) : Prints ([] : List (HNode UInt32 (Event A))) (.ok out) :=
  .all out trivial fun _ he ↦ absurd he List.not_mem_nil

theorem statePrintf_prints {e : HNode UInt32 (Event A)}
    (hload : ∀ t, eventTarget e = some t → mem t ≠ none) (out : Output) :
    Prints [e] (statePrintf mem e.hnKey e.hnData out) := by
  cases hdata : e.hnData with
  | none =>
      refine .null fun h ↦ h.1 ?_
      rw [eventTarget, hdata]
      rfl
  | some ev =>
      have heq : eventTarget e = ev.evtNewstate := eventTarget_eq hdata
      cases htarget : ev.evtNewstate with
      | none =>
          simp only [statePrintf, htarget]
          exact .null fun h ↦ h.1 (heq.trans htarget)
      | some t =>
          obtain ⟨new, hnew⟩ := Option.ne_none_iff_exists'.1 (hload t (heq.trans htarget))
          have htargets : PrintsTargets [e] := by
            refine ⟨?_, fun _ ↦ trivial⟩
            rw [heq, htarget]
            exact Option.some_ne_none t
          have hends : (∀ e' ∈ [e], Terminated e') ↔ 0 ∈ ev.evtDesc := by
            rw [List.forall_mem_singleton, Terminated, hdata]
            simp
          simp only [statePrintf, htarget, loadState_eq hnew, Exec.ok_bind]
          by_cases hzero : 0 ∈ ev.evtDesc
          · rw [cString, if_pos hzero]
            exact .all _ htargets (hends.2 hzero)
          · rw [cString, if_neg hzero]
            exact .unterminated htargets fun h ↦ hzero (hends.1 h)

theorem foldlM_prints {es : List (HNode UInt32 (Event A))}
    (hload : ∀ e ∈ es, ∀ t, eventTarget e = some t → mem t ≠ none) (out : Output) :
    Prints es (es.foldlM (fun out e ↦ statePrintf mem e.hnKey e.hnData out) out) := by
  induction es generalizing out with
  | nil => exact .nil out
  | cons e es ih =>
      rw [List.foldlM_cons]
      have hfirst := statePrintf_prints (hload e List.mem_cons_self) out
      exact hfirst.bind fun out' ↦ ih (fun e' he' ↦ hload e' (List.mem_cons_of_mem e he')) out'

theorem printHeads_prints {t : HTable UInt32 (Event A)}
    (hload : ∀ e ∈ t.htTable.flatten, ∀ s, eventTarget e = some s → mem s ≠ none) {turns i : ℕ}
    (hturns : i + turns = t.htTable.length) (out : Output) :
    Prints (t.htTable.drop i).flatten (printHeads t (statePrintf mem) turns i out) := by
  induction turns generalizing i out with
  | zero =>
      rw [List.drop_of_length_le (by omega)]
      exact .nil out
  | succ turns ih =>
      have hlt : i < t.htTable.length := by omega
      have hchain : ∀ e ∈ t.htTable[i], ∀ s, eventTarget e = some s → mem s ≠ none := fun e he ↦
        hload e (List.mem_flatten.2 ⟨_, List.getElem_mem hlt, he⟩)
      rw [printHeads, headAt_eq (List.getElem?_eq_getElem hlt), Exec.ok_bind,
        List.drop_eq_getElem_cons hlt, List.flatten_cons]
      exact (foldlM_prints hchain out).bind fun out' ↦ ih (by omega) _

theorem EntryLoads.printState_prints {n : HNode KeyRef StateId} (h : EntryLoads mem n)
    {s : StateId} (hdata : n.hnData = some s) (fp : File) (out : Output) :
    Prints ((mem s).elim [] fun st ↦ st.evttable.htTable.flatten)
      (printState mem fp out ⟨0, [n]⟩) := by
  obtain ⟨s', st, rfl, hst, hindexed, hload⟩ := h
  cases hdata
  have hprints := printHeads_prints (i := 0) hload (by rw [Nat.zero_add, hindexed.length])
    (out.write (stateLine st) fp)
  rw [List.drop_zero] at hprints
  change Prints _ (loadState mem s >>= fun st ↦ loadState mem s >>= fun st' ↦ _)
  rw [loadState_eq hst, Exec.ok_bind, hst, Option.elim_some]
  exact hprints

theorem foldlM_printState {ns : List (HNode KeyRef StateId)} (hns : ∀ n ∈ ns, EntryLoads mem n)
    (fp : File) (out : Output) :
    Prints ((ns.filterMap HNode.hnData).flatMap fun s ↦
        (mem s).elim [] fun st ↦ st.evttable.htTable.flatten)
      (ns.foldlM (fun out n ↦ printState mem fp out ⟨0, [n]⟩) out) := by
  induction ns generalizing out with
  | nil => exact .nil out
  | cons n ns ih =>
      obtain ⟨s, _, heq, _⟩ := hns n List.mem_cons_self
      have hdata : n.hnData = some s := heq ▸ rfl
      rw [List.filterMap_cons_some hdata, List.flatMap_cons, List.foldlM_cons]
      exact ((hns n List.mem_cons_self).printState_prints hdata fp out).bind fun out' ↦
        ih (fun m hm ↦ hns m (List.mem_cons_of_mem n hm)) out'

theorem Accessible.fsmPrintStates_prints {w : World A D} (h : Accessible w)
    (hentries : w.EntriesLoad) (fp : File) (out : Output) :
    Prints w.printOrder (fsmPrintStates w fp out) := by
  rw [fsmPrintStates, forEachElm_eq (f := fun out n ↦ printState w.states fp out ⟨0, [n]⟩)
    h.sttable.length h.sttable.pos fun _ _ _ _ ↦ rfl]
  exact foldlM_printState (fun n hn ↦ h.entryLoads hentries ((yielded_sublist _).subset hn)) fp out

end Printing

/-! ## Runs -/

section Runs

variable {w : World A D}

theorem World.EntriesLoad.ne_none (hentries : w.EntriesLoad) {key : KeyRef} {s : StateId}
    (hsearch : htableSearch (fsmCallbacks w.states) w.fsm.sttable key = .ok (some s)) :
    w.states s ≠ none := by
  obtain ⟨n, hn, _, hdata⟩ := hasNode_of_htableSearch hsearch
  obtain ⟨s', rfl, hs'⟩ := hentries n hn
  cases hdata
  exact hs'

theorem marksTargets_flagState {s : StateId} (hs : w.states s ≠ none) :
    World.MarksTargets { w with states := flagState w.states s } (flagged (flagState w.states s)) ↔
      w.MarksTargets (insert s (flagged w.states)) := by
  have hsame : SameButFlags w.states (flagState w.states s) := .flagState w.states s
  have htargets : targetsOf (flagState w.states s) = targetsOf w.states :=
    funext fun t ↦ hsame.targetsOf_eq t
  have hflags : flagged (flagState w.states s) = insert s (flagged w.states) := by
    ext t
    rw [Set.mem_insert_iff, or_comm]
    exact isFlagged_flagState hs
  unfold World.MarksTargets
  rw [hflags]
  dsimp only
  rw [htargets]
  refine forall₄_congr fun before t after _ ↦ ?_
  rw [yieldsNull_congr hsame]

theorem Accessible.setState_cases (h : Accessible w) (hentries : w.EntriesLoad) (stkey : UInt32) :
    ((∀ s, htableSearch (fsmCallbacks w.states) w.fsm.sttable (.caller stkey) = .ok (some s) →
        w.MarksTargets (insert s (flagged w.states))) ∧
      ∃ r w', fsmSetState w stkey = .ok (r, w')) ∨
    ((∃ s, htableSearch (fsmCallbacks w.states) w.fsm.sttable (.caller stkey) = .ok (some s) ∧
        ¬ w.MarksTargets (insert s (flagged w.states))) ∧
      fsmSetState w stkey = .error .badPointer) := by
  obtain ⟨found, hsearch⟩ := h.sttable.exists_htableSearch (fsmCallbacks w.states) (.caller stkey)
  rw [fsmSetState, hsearch, Exec.ok_bind]
  cases found with
  | none => exact .inl ⟨fun s hs ↦ (by cases hs), _, _, rfl⟩
  | some s =>
      have hs := hentries.ne_none hsearch
      obtain ⟨st, hst⟩ := Option.ne_none_iff_exists'.1 hs
      have hsame : SameButFlags w.states (flagState w.states s) := .flagState w.states s
      have hkeep : ∀ t, w.states t ≠ none → flagState w.states s t ≠ none := fun t ht hnone ↦
        ht (hsame.none_iff.1 hnone)
      have haccess : Accessible { w with states := flagState w.states s } :=
        h.of_same hsame rfl fun t ht ↦ hkeep t (h.cstate t ht)
      have hload : World.EntriesLoad { w with states := flagState w.states s } :=
        hentries.keep rfl hkeep
      dsimp only
      rw [loadState_eq hst, Exec.ok_bind, storeState_markAsReachable hst]
      rcases haccess.mark_cases hload with ⟨hmeets, mem, _, hrun⟩ | ⟨hnot, hrun⟩
      · refine .inl ⟨fun s' hs' ↦ ?_, ?_⟩
        · cases hs'
          exact (marksTargets_flagState hs).1 hmeets
        · rw [hrun]
          exact ⟨_, _, rfl⟩
      · refine .inr ⟨⟨s, rfl, fun hmeets ↦ hnot ((marksTargets_flagState hs).2 hmeets)⟩, ?_⟩
        rw [hrun]
        rfl

theorem Accessible.processEvent_ok (h : Accessible w) (hcstate : w.fsm.cstate ≠ none)
    (evtkey : UInt32) (data : D) :
    ∃ r w', fsmProcessEvent leaveAlone w evtkey data = .ok (r, w') := by
  obtain ⟨s, hs⟩ := Option.ne_none_iff_exists'.1 hcstate
  obtain ⟨st, hst⟩ := Option.ne_none_iff_exists'.1 (h.cstate s hs)
  have hload := World.currentState_eq hs hst
  obtain ⟨found, hsearch⟩ :=
    (h.evttable s st hst).exists_htableSearch stateCallbacks evtkey
  rw [fsmProcessEvent, hload, Exec.ok_bind, hsearch, Exec.ok_bind]
  cases found with
  | none => exact ⟨_, _, rfl⟩
  | some ev =>
      dsimp only
      rw [callAction_leaveAlone, Exec.ok_bind]
      cases htarget : ev.evtNewstate with
      | none => exact ⟨_, _, rfl⟩
      | some t =>
          have ht := h.target_ne_none hst hsearch htarget
          obtain ⟨new, hnew⟩ := Option.ne_none_iff_exists'.1 ht
          obtain ⟨registered, hfound⟩ :=
            h.sttable.exists_htableSearch (fsmCallbacks w.states) (.stKey t)
          dsimp only
          rw [loadState_eq hnew, Exec.ok_bind, hfound, Exec.ok_bind]
          cases registered with
          | none => exact ⟨_, _, rfl⟩
          | some _ => exact ⟨_, _, rfl⟩

theorem Walk.nullSafe_iff_of_ne {out : Output} {c : Walk D} {P : Prop}
    (hrun : performWalk w out c ≠ .error .badPointer) (hp : P) : c.NullSafe w out ↔ P :=
  iff_of_true (fun hfault ↦ absurd hfault hrun) hp

theorem Walk.nullSafe_iff_of_eq {out : Output} {c : Walk D} {P : Prop}
    (hrun : performWalk w out c = .error .badPointer)
    (hc : ∀ evtkey data, c ≠ .processEvent evtkey data) (hp : ¬ P) : c.NullSafe w out ↔ P := by
  refine iff_of_false (fun hsafe ↦ ?_) hp
  obtain ⟨evtkey, data, heq, _⟩ := hsafe hrun
  exact hc evtkey data heq

theorem Accessible.nullSafe_iff (h : Accessible w) (hentries : w.EntriesLoad) (out : Output)
    (c : Walk D) : c.NullSafe w out ↔ c.MeetsTargets w := by
  cases c with
  | setState stkey =>
      rcases h.setState_cases hentries stkey with ⟨hmeets, r, w', hrun⟩ | ⟨⟨s, hs, hnot⟩, hrun⟩
      · refine Walk.nullSafe_iff_of_ne (fun hfault ↦ ?_) hmeets
        rw [performWalk, hrun] at hfault
        cases hfault
      · refine Walk.nullSafe_iff_of_eq ?_ (fun _ _ heq ↦ by cases heq) fun h ↦ hnot (h s hs)
        rw [performWalk, hrun]
        rfl
  | mark =>
      rcases h.mark_cases hentries with ⟨hmeets, mem, _, hrun⟩ | ⟨hnot, hrun⟩
      · refine Walk.nullSafe_iff_of_ne (fun hfault ↦ ?_) hmeets
        rw [performWalk, hrun] at hfault
        cases hfault
      · refine Walk.nullSafe_iff_of_eq ?_ (fun _ _ heq ↦ by cases heq) hnot
        rw [performWalk, hrun]
        rfl
  | processEvent evtkey data =>
      refine iff_of_true (fun hfault ↦ ⟨evtkey, data, rfl, ?_⟩) trivial
      by_contra hcstate
      obtain ⟨r, w', hrun⟩ := h.processEvent_ok hcstate evtkey data
      rw [performWalk, hrun] at hfault
      cases hfault
  | exportToDot fp =>
      by_cases htargets : ∀ s ∈ w.sweepOrder, ¬ YieldsNull w.states s
      · refine Walk.nullSafe_iff_of_ne (fun hfault ↦ ?_) htargets
        rw [performWalk, h.fsmExportToDot_eq hentries fp out htargets] at hfault
        cases hfault
      · have hnull : ∃ s ∈ w.sweepOrder, YieldsNull w.states s := by
          push Not at htargets
          exact htargets
        refine Walk.nullSafe_iff_of_eq ?_ (fun _ _ heq ↦ by cases heq) htargets
        rw [performWalk, h.fsmExportToDot_null hentries fp out hnull]
        rfl
  | printStates fp =>
      have hprints := h.fsmPrintStates_prints hentries fp out
      generalize hrun : fsmPrintStates w fp out = x at hprints
      cases hprints with
      | all out' htargets _ =>
          refine Walk.nullSafe_iff_of_ne (fun hfault ↦ ?_) htargets
          rw [performWalk, hrun] at hfault
          cases hfault
      | unterminated htargets _ =>
          refine Walk.nullSafe_iff_of_ne (fun hfault ↦ ?_) htargets
          rw [performWalk, hrun] at hfault
          cases hfault
      | null htargets =>
          refine Walk.nullSafe_iff_of_eq ?_ (fun _ _ heq ↦ by cases heq) htargets
          rw [performWalk, hrun]
          rfl

theorem Accessible.performWalk (h : Accessible w) (hentries : w.EntriesLoad) {out out' : Output}
    {c : Walk D} {w' : World A D} (hrun : performWalk w out c = .ok (w', out')) :
    Accessible w' ∧ w'.EntriesLoad := by
  cases c with
  | setState stkey =>
      obtain ⟨⟨r, w₁⟩, hcall, hrun⟩ := Exec.bind_eq_ok.1 hrun
      cases hrun
      have hperform : perform w (.setState stkey) = .ok (.fsm r, w') := by
        rw [perform, hcall]
        rfl
      have heffect := effect_of_perform hperform
      exact ⟨h.effect (c := .setState stkey) trivial heffect, hentries.effect h heffect⟩
  | mark =>
      obtain ⟨w₁, hcall, hrun⟩ := Exec.bind_eq_ok.1 hrun
      cases hrun
      obtain ⟨hsame, hfsm, _⟩ := fsmMarkReachableStates_sameUpToFlags hcall
      have hkeep : ∀ s, w.states s ≠ none → w'.states s ≠ none := fun s hs hnone ↦
        hs (hsame.none_iff.1 hnone)
      have htable : w'.fsm.sttable = w.fsm.sttable := congrArg Fsm.sttable hfsm
      refine ⟨h.of_same hsame htable fun s hs ↦ hkeep s (h.cstate s ?_), hentries.keep htable hkeep⟩
      rw [← hfsm]
      exact hs
  | processEvent evtkey data =>
      obtain ⟨⟨r, w₁⟩, hcall, hrun⟩ := Exec.bind_eq_ok.1 hrun
      cases hrun
      have hperform : perform w (.processEvent evtkey data) = .ok (.fsm r, w') := by
        rw [perform, hcall]
        rfl
      have heffect := effect_of_perform hperform
      exact ⟨h.effect (c := .processEvent evtkey data) trivial heffect, hentries.effect h heffect⟩
  | exportToDot fp =>
      obtain ⟨out₁, _, hrun⟩ := Exec.bind_eq_ok.1 hrun
      cases hrun
      exact ⟨h, hentries⟩
  | printStates fp =>
      obtain ⟨out₁, _, hrun⟩ := Exec.bind_eq_ok.1 hrun
      cases hrun
      exact ⟨h, hentries⟩

theorem Accessible.nullSafeRun_iff_meets (h : Accessible w) (hentries : w.EntriesLoad)
    (out : Output) (cs : List (Walk D)) : NullSafeRun w out cs ↔ MeetsTargetsRun w out cs := by
  induction cs generalizing w out with
  | nil => exact Iff.rfl
  | cons c cs ih =>
      rw [NullSafeRun, MeetsTargetsRun, h.nullSafe_iff hentries out c]
      refine and_congr_right fun _ ↦ ?_
      cases hrun : StateMachine.performWalk w out c with
      | error fault => exact Iff.rfl
      | ok result =>
          obtain ⟨w', out'⟩ := result
          obtain ⟨h', hentries'⟩ := h.performWalk hentries hrun
          exact ih h' hentries' out'

/-- A run of calls on a machine that was built by calls dereferences no absent target just when none
of them meets an event without one. -/
theorem nullSafeRun_iff (h : Built w) (out : Output) (cs : List (Walk D)) :
    NullSafeRun w out cs ↔ MeetsTargetsRun w out cs :=
  h.accessible.nullSafeRun_iff_meets h.entriesLoad out cs

end Runs

/-- One state with the key 1, which handles the event 7 with the given target. -/
def loopCalls (target : Option StateId) : List (Call ℕ ℕ) :=
  [.stateInit ⟨some 0, true, true, true⟩ 0 0 4 1, .addState ⟨true, true⟩ 1 0,
    .stateAddEvt ⟨true, true, ⟨true, true⟩⟩ 0 7 [] none target]

/-- The machine after the calls of `loopCalls`. -/
def loopWorld (target : Option StateId) : World ℕ ℕ :=
  match performAll (start ℕ fourHeads) (loopCalls target) with
  | .ok (_, w) => w
  | .error _ => start ℕ fourHeads

theorem loopWorld_built {target : Option StateId} (htarget : target = none ∨ target = some 0) :
    Built (loopWorld target) := by
  have hinit : fsmInit ⟨true, true, true, true, true⟩ 4 1 0 = .ok (.ok, some fourHeads) := rfl
  have hsize : 0 < 4 := by decide
  have hstart : Built (start ℕ fourHeads) := .init hsize hinit
  have hstate := hstart.call (c := .stateInit ⟨some 0, true, true, true⟩ 0 0 4 1) hsize rfl
  have hadded := hstate.call (c := .addState ⟨true, true⟩ 1 0) trivial rfl
  rcases htarget with rfl | rfl
  · exact hadded.call (c := .stateAddEvt ⟨true, true, ⟨true, true⟩⟩ 0 7 [] none none)
      (fun t ht ↦ by cases ht) rfl
  · exact hadded.call (c := .stateAddEvt ⟨true, true, ⟨true, true⟩⟩ 0 7 [] none (some 0))
      (fun t ht ↦ by cases ht; exact Option.some_ne_none _) rfl

/-- One more state, with the key 2, which handles the event 7 with the given target. -/
def pairCalls (target : Option StateId) : List (Call ℕ ℕ) :=
  [.stateInit ⟨some 1, true, true, true⟩ 0 0 4 1, .addState ⟨true, true⟩ 2 1,
    .stateAddEvt ⟨true, true, ⟨true, true⟩⟩ 1 7 [] none target]

/-- The machine with a loop at its first state, after the calls of `pairCalls`. -/
def pairWorld (target : Option StateId) : World ℕ ℕ :=
  match performAll (loopWorld (some 0)) (pairCalls target) with
  | .ok (_, w) => w
  | .error _ => loopWorld (some 0)

theorem pairWorld_built {target : Option StateId} (htarget : target = none ∨ target = some 0) :
    Built (pairWorld target) := by
  have hsize : 0 < 4 := by decide
  have hstate := (loopWorld_built (.inr rfl)).call
    (c := .stateInit ⟨some 1, true, true, true⟩ 0 0 4 1) hsize rfl
  have hadded := hstate.call (c := .addState ⟨true, true⟩ 2 1) trivial rfl
  rcases htarget with rfl | rfl
  · exact hadded.call (c := .stateAddEvt ⟨true, true, ⟨true, true⟩⟩ 1 7 [] none none)
      (fun t ht ↦ by cases ht) rfl
  · exact hadded.call (c := .stateAddEvt ⟨true, true, ⟨true, true⟩⟩ 1 7 [] none (some 0))
      (fun t ht ↦ by cases ht; exact Option.some_ne_none _) rfl

/-- As long as no transition leads to the second state, setting, running and marking the machine
from the first one meets no event without a target. -/
theorem pairWorld_nullSafeRun :
    YieldsNull (pairWorld none).states 1 ∧
      NullSafeRun (pairWorld none) (fun _ ↦ []) [.setState 1, .processEvent 7 5, .mark] := by
  refine ⟨⟨_, rfl, _, List.mem_singleton_self _, rfl⟩,
    (nullSafeRun_iff (pairWorld_built (.inl rfl)) _ _).2 ⟨?_, trivial, ?_, trivial⟩⟩
  · intro s hs
    cases hs
    refine marksTargets_of_loop (s := 0) (fun s ↦ ?_) rfl rfl rfl
    rcases s with _ | _ | s
    · exact iff_of_true (.inl rfl) rfl
    · exact iff_of_false (by rintro (h | h) <;> cases h) (by rintro ⟨⟩)
    · exact iff_of_false (by rintro (h | h) <;> cases h) (by rintro ⟨⟩)
  · refine marksTargets_of_loop (s := 0) (fun s ↦ ?_) rfl rfl rfl
    rcases s with _ | _ | s
    · exact iff_of_true rfl rfl
    · exact iff_of_false (by rintro ⟨⟩) (by rintro ⟨⟩)
    · exact iff_of_false (by rintro ⟨⟩) (by rintro ⟨⟩)

/-- Without a target, they all dereference a null pointer once the state is set, and the export and
the printing even before that. -/
theorem loopWorld_not_nullSafeRun :
    fsmSetState (loopWorld none) 1 = .error .badPointer ∧
      fsmExportToDot (loopWorld none) .stdout (fun _ ↦ []) = .error .badPointer ∧
      fsmPrintStates (loopWorld none) .stdout (fun _ ↦ []) = .error .badPointer ∧
      ¬ NullSafeRun (loopWorld none) (fun _ ↦ []) [.setState 1] := by
  refine ⟨rfl, rfl, rfl, fun hrun ↦ ?_⟩
  obtain ⟨_, _, heq, _⟩ := hrun.1 rfl
  cases heq

end Experimentation.StateMachine
