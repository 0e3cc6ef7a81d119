import Experimentation.Semantics.Streams
import Experimentation.StateMachine.Built
import Experimentation.StateMachine.Marking

/-!
# What a state machine prints

`fsm_export_to_dot` writes the transitions of all states, and `fsm_print_states` the states with
their events.  Both are given a file, but not everything that they print goes there: the edges of
the graph and the lines of the events go to the standard output.
-/

namespace Experimentation.StateMachine

open Semantics HashTable

variable {A D K V : Type}

/-- The loop of `htable_print` over the heads from the one at `i` on.  `turns` is the number of
heads that are left. -/
def printHeads (t : HTable K V) (htPrintf : K → Option V → Output → Exec Output) :
    (turns i : ℕ) → Output → Exec Output
  | 0, _, out => return out
  | turns + 1, i, out => do
      let chain ← headAt t.htTable i
      let out ← chain.foldlM (fun out n ↦ htPrintf n.hnKey n.hnData out) out
      let out := if chain ≠ [] then out.write (ascii "\n") .stdout else out
      printHeads t htPrintf turns (i + 1) out

/-- `htable_print`.  The file that it is given is not used. -/
def htablePrint (htPrintf : K → Option V → Output → Exec Output) (t : HTable K V) (_fp : File)
    (out : Output) : Exec Output :=
  printHeads t htPrintf t.htSize 0 out

/-- `state_printf`.  The key of the target is read before anything is printed. -/
def statePrintf (mem : StateMem A) (key : UInt32) (pdata : Option (Event A)) (out : Output) :
    Exec Output :=
  match pdata with
  | none => throw .badPointer
  | some pevt =>
      match pevt.evtNewstate with
      | none => throw .badPointer
      | some pnewstate => do
          let new ← loadState mem pnewstate
          let desc ← cString pevt.evtDesc
          return out.write (ascii "evtkey: " ++ decimal key ++ ascii "\tdesc: " ++ desc ++
            ascii "\tnewstate: " ++ decimal new.stKey) .stdout

def statePrintEvts (mem : StateMem A) (pstate : StateId) (fp : File) (out : Output) :
    Exec Output := do
  let st ← loadState mem pstate
  htablePrint (statePrintf mem) st.evttable fp out

/-- The line of a state. -/
def stateLine (st : StateObj A) : Text :=
  ascii "state [key = " ++ decimal st.stKey ++ ascii ", reachable = " ++
    ascii (if st.isReachable then "T" else "F") ++ ascii "]\n"

/-- The body of the loop of `fsm_print_states`: the state at the iterator. -/
def printState (mem : StateMem A) (fp : File) (out : Output) (sit : HIterator KeyRef StateId) :
    Exec Output := do
  match ← htableIteratorGetData sit with
  | none => throw .badPointer
  | some pstate =>
      let st ← loadState mem pstate
      statePrintEvts mem pstate fp (out.write (stateLine st) fp)

def fsmPrintStates (w : World A D) (fp : File) (out : Output) : Exec Output :=
  w.fsm.sttable.forEachElm (printState w.states fp) out

/-! ## Exporting the graph -/

/-- The line of an edge. -/
def edgeLine (stkey newstkey evtkey : UInt32) : Text :=
  ascii "S" ++ decimal stkey ++ ascii " -> S" ++ decimal newstkey ++ ascii " [label=\"E" ++
    decimal evtkey ++ ascii "\"]\n"

/-- The body of the inner loop of `fsm_export_to_dot`: the event at the iterator `eit` of the state
at the iterator `sit`. -/
def exportEvent (mem : StateMem A) (sit : HIterator KeyRef StateId) (out : Output)
    (eit : HIterator UInt32 (Event A)) : Exec Output := do
  match ← htableIteratorGetData eit with
  | none => throw .badPointer
  | some pevt =>
      let pkey ← htableIteratorGetKey sit
      match pevt.evtNewstate with
      | none => throw .badPointer
      | some pnewstate =>
          let new ← loadState mem pnewstate
          let evtkey ← htableIteratorGetKey eit
          return out.write (edgeLine (readKey mem pkey) new.stKey evtkey) .stdout

/-- The body of the outer loop of `fsm_export_to_dot`: the state at the iterator. -/
def exportState (mem : StateMem A) (out : Output) (sit : HIterator KeyRef StateId) :
    Exec Output := do
  match ← htableIteratorGetData sit with
  | none => throw .badPointer
  | some pstate =>
      let st ← loadState mem pstate
      st.evttable.forEachElm (exportEvent mem sit) out

/-- The first line that `fsm_export_to_dot` writes. -/
def dotHeader : Text := ascii "digraph \x7b\n"

/-- The last line that `fsm_export_to_dot` writes. -/
def dotFooter : Text := ascii "\x7d\n"

def fsmExportToDot (w : World A D) (fp : File) (out : Output) : Exec Output := do
  let out := out.write dotHeader fp
  let out ← w.fsm.sttable.forEachElm (exportState w.states) out
  return out.write dotFooter fp

/-- The entry is a state in memory, whose events lead to states in memory or nowhere. -/
def EntryLoads (mem : StateMem A) (n : HNode KeyRef StateId) : Prop :=
  ∃ s st, n = ⟨.stKey s, some s⟩ ∧ mem s = some st ∧ st.evttable.Indexed ∧
    ∀ e ∈ st.evttable.htTable.flatten, ∀ t, eventTarget e = some t → mem t ≠ none

theorem EntryLoads.of_same {mem mem' : StateMem A} (hsame : SameButFlags mem mem')
    {n : HNode KeyRef StateId} (h : EntryLoads mem n) : EntryLoads mem' n := by
  obtain ⟨s, st, heq, hst, hindexed, hevents⟩ := h
  obtain ⟨st', hst', htable, _⟩ := hsame.exists_eq hst
  refine ⟨s, st', heq, hst', htable ▸ hindexed, fun e he t ht hnone ↦ ?_⟩
  rw [htable] at he
  exact hevents e he t ht (hsame.none_iff.1 hnone)

theorem Accessible.entryLoads {w : World A D} (h : Accessible w) (hentries : w.EntriesLoad)
    {n : HNode KeyRef StateId} (hn : w.fsm.sttable.HasNode n) : EntryLoads w.states n := by
  obtain ⟨s, heq, hs⟩ := hentries n hn
  obtain ⟨st, hst⟩ := Option.ne_none_iff_exists'.1 hs
  exact ⟨s, st, heq, hst, (h.evttable s st hst).toIndexed, fun e he t ht ↦
    h.targets s st hst e he t ht⟩

/-- The iterator over the events of the state yields one without a target. -/
def YieldsNull (mem : StateMem A) (s : StateId) : Prop :=
  ∃ st, mem s = some st ∧ ∃ e ∈ yielded st.evttable.htTable, eventTarget e = none

/-! ## The edges of the graph -/

/-- A transition from a state on an event to another state. -/
structure Edge where
  source : StateId
  event : UInt32
  target : StateId
deriving DecidableEq, Repr

/-- The line of a transition, with the keys that the states have. -/
def Edge.text (mem : StateMem A) (e : Edge) : Text :=
  edgeLine (readKey mem (.stKey e.source)) (readKey mem (.stKey e.target)) e.event

/-- The transitions of a state on the events of some nodes. -/
def edgesOf (s : StateId) (es : List (HNode UInt32 (Event A))) : List Edge :=
  es.filterMap fun e ↦ (eventTarget e).map fun t ↦ ⟨s, e.hnKey, t⟩

/-- The transitions that the two iterators yield. -/
def World.exported (w : World A D) : List Edge :=
  w.sweepOrder.flatMap fun s ↦ (w.states s).elim [] fun st ↦ edgesOf s (yielded st.evttable.htTable)

section Export

variable {mem : StateMem A} {n : HNode KeyRef StateId} {s : StateId}

theorem exportEvent_null {e : HNode UInt32 (Event A)} (htarget : eventTarget e = none)
    (out : Output) : exportEvent mem ⟨0, [n]⟩ out ⟨0, [e]⟩ = .error .badPointer := by
  rw [eventTarget] at htarget
  cases hdata : e.hnData with
  | none => simp only [exportEvent, htableIteratorGetData, hdata, Exec.pure_eq_ok, Exec.ok_bind]; rfl
  | some ev =>
      rw [hdata, Option.bind_some] at htarget
      simp only [exportEvent, htableIteratorGetData, htableIteratorGetKey, hdata, htarget,
        Exec.pure_eq_ok, Exec.ok_bind]
      rfl

theorem exportEvent_eq (hkey : n.hnKey = .stKey s) {e : HNode UInt32 (Event A)} {t : StateId}
    (htarget : eventTarget e = some t) (ht : mem t ≠ none) (out : Output) :
    exportEvent mem ⟨0, [n]⟩ out ⟨0, [e]⟩ =
      .ok (out.write (Edge.text mem ⟨s, e.hnKey, t⟩) .stdout) := by
  obtain ⟨ev, hdata, hnewstate⟩ := Option.bind_eq_some_iff.1 htarget
  obtain ⟨new, hnew⟩ := Option.ne_none_iff_exists'.1 ht
  simp only [exportEvent, htableIteratorGetData, htableIteratorGetKey, hdata, hnewstate,
    Exec.pure_eq_ok, Exec.ok_bind]
  rw [loadState_eq hnew, Exec.ok_bind, Edge.text, readKey_stKey hnew, hkey]

theorem foldlM_exportEvent (hkey : n.hnKey = .stKey s) {es : List (HNode UInt32 (Event A))}
    (hes : ∀ e ∈ es, EventOk mem e) (out : Output) :
    es.foldlM (fun out e ↦ exportEvent mem ⟨0, [n]⟩ out ⟨0, [e]⟩) out =
      .ok (out.write ((edgesOf s es).flatMap (Edge.text mem)) .stdout) := by
  induction es generalizing out with
  | nil =>
      rw [edgesOf, List.filterMap_nil, List.flatMap_nil, Output.write_nil]
      rfl
  | cons e es ih =>
      obtain ⟨t, htarget, ht⟩ := hes e List.mem_cons_self
      have hedge : edgesOf s (e :: es) = ⟨s, e.hnKey, t⟩ :: edgesOf s es := by
        rw [edgesOf, List.filterMap_cons_some]
        · rfl
        · rw [htarget, Option.map_some]
      rw [List.foldlM_cons, exportEvent_eq hkey htarget ht, Exec.ok_bind,
        ih fun e' he' ↦ hes e' (List.mem_cons_of_mem e he'), Output.write_write, hedge,
        List.flatMap_cons]

theorem EntryLoads.exportState_null (h : EntryLoads mem n) (hdata : n.hnData = some s)
    (hnull : YieldsNull mem s) (out : Output) :
    exportState mem out ⟨0, [n]⟩ = .error .badPointer := by
  obtain ⟨s', st, rfl, hst, hindexed, htargets⟩ := h
  cases hdata
  obtain ⟨st', hst', hnull⟩ := hnull
  cases hst.symm.trans hst'
  change (loadState mem s >>= fun st ↦ st.evttable.forEachElm _ out) = _
  rw [loadState_eq hst, Exec.ok_bind, forEachElm_eq
    (f := fun out e ↦ exportEvent mem ⟨0, [⟨.stKey s, some s⟩]⟩ out ⟨0, [e]⟩) hindexed.length
    hindexed.pos fun _ _ _ _ ↦ rfl]
  refine Exec.foldlM_error (P := fun _ ↦ True) hnull (fun out e _ _ he ↦ exportEvent_null he out)
    (fun out e _ he htarget ↦ ?_) trivial
  obtain ⟨t, ht⟩ := Option.ne_none_iff_exists'.1 htarget
  have hmem := htargets e ((yielded_sublist _).subset he) t ht
  exact ⟨_, exportEvent_eq rfl ht hmem out, trivial⟩

/-- The body of the outer loop writes the edges of a state whose yielded events have targets. -/
theorem EntryLoads.exportState_eq (h : EntryLoads mem n) (hdata : n.hnData = some s)
    (htargets : ¬ YieldsNull mem s) (out : Output) :
    exportState mem out ⟨0, [n]⟩ = .ok (out.write (((mem s).elim [] fun st ↦
      edgesOf s (yielded st.evttable.htTable)).flatMap (Edge.text mem)) .stdout) := by
  obtain ⟨s', st, rfl, hst, hindexed, hloads⟩ := h
  cases hdata
  have hevents : ∀ e ∈ yielded st.evttable.htTable, EventOk mem e := by
    intro e he
    obtain ⟨t, ht⟩ := Option.ne_none_iff_exists'.1 fun hnone ↦ htargets ⟨st, hst, e, he, hnone⟩
    exact ⟨t, ht, hloads e ((yielded_sublist _).subset he) t ht⟩
  change (loadState mem s >>= fun st ↦ st.evttable.forEachElm _ out) = _
  rw [loadState_eq hst, Exec.ok_bind, forEachElm_eq
    (f := fun out e ↦ exportEvent mem ⟨0, [⟨.stKey s, some s⟩]⟩ out ⟨0, [e]⟩) hindexed.length
    hindexed.pos fun _ _ _ _ ↦ rfl, foldlM_exportEvent rfl hevents, hst, Option.elim_some]

theorem foldlM_exportState {ns : List (HNode KeyRef StateId)} (hns : ∀ n ∈ ns, EntryLoads mem n)
    (htargets : ∀ s ∈ ns.filterMap HNode.hnData, ¬ YieldsNull mem s) (out : Output) :
    ns.foldlM (fun out n ↦ exportState mem out ⟨0, [n]⟩) out =
      .ok (out.write (((ns.filterMap HNode.hnData).flatMap fun s ↦ (mem s).elim [] fun st ↦
        edgesOf s (yielded st.evttable.htTable)).flatMap (Edge.text mem)) .stdout) := by
  induction ns generalizing out with
  | nil =>
      rw [List.filterMap_nil, List.flatMap_nil, List.flatMap_nil, Output.write_nil]
      rfl
  | cons n ns ih =>
      obtain ⟨s, _, heq, _⟩ := hns n List.mem_cons_self
      have hdata : n.hnData = some s := heq ▸ rfl
      rw [List.filterMap_cons_some hdata] at htargets ⊢
      have hstep := (hns n List.mem_cons_self).exportState_eq hdata
        (htargets s List.mem_cons_self) out
      rw [List.foldlM_cons, hstep, Exec.ok_bind,
        ih (fun m hm ↦ hns m (List.mem_cons_of_mem n hm))
          (fun s' hs' ↦ htargets s' (List.mem_cons_of_mem s hs')),
        Output.write_write, List.flatMap_cons, List.flatMap_append]

end Export

section Machine

variable {w : World A D} (h : Accessible w) (hentries : w.EntriesLoad) (fp : File) (out : Output)
include h hentries

theorem Accessible.fsmExportToDot_eq (htargets : ∀ s ∈ w.sweepOrder, ¬ YieldsNull w.states s) :
    fsmExportToDot w fp out = .ok (((out.write dotHeader fp).write
      (w.exported.flatMap (Edge.text w.states)) .stdout).write dotFooter fp) := by
  rw [fsmExportToDot, forEachElm_eq (f := fun out n ↦ exportState w.states out ⟨0, [n]⟩)
    h.sttable.length h.sttable.pos fun _ _ _ _ ↦ rfl, foldlM_exportState _ htargets]
  · rfl
  · exact fun n hn ↦ h.entryLoads hentries ((yielded_sublist _).subset hn)

/-- `fsm_export_to_dot` dereferences the target of every event that the iterators yield. -/
theorem Accessible.fsmExportToDot_null (hnull : ∃ s ∈ w.sweepOrder, YieldsNull w.states s) :
    fsmExportToDot w fp out = .error .badPointer := by
  obtain ⟨s, hs, hnull⟩ := hnull
  obtain ⟨n, hn, hdata⟩ := List.mem_filterMap.1 hs
  have hloop : (yielded w.fsm.sttable.htTable).foldlM
      (fun out n ↦ exportState w.states out ⟨0, [n]⟩) (out.write dotHeader fp) =
        .error .badPointer := by
    refine Exec.foldlM_error (P := fun _ ↦ True)
      (B := fun n ↦ ∃ s, n.hnData = some s ∧ YieldsNull w.states s) ⟨n, hn, s, hdata, hnull⟩
      (fun out m _ hm hbad ↦ ?_) (fun out m _ hm hgood ↦ ?_) trivial
    · obtain ⟨s', hdata', hnull'⟩ := hbad
      have hload := h.entryLoads hentries ((yielded_sublist _).subset hm)
      exact hload.exportState_null hdata' hnull' out
    · have hload := h.entryLoads hentries ((yielded_sublist _).subset hm)
      obtain ⟨s', _, heq, _⟩ := h.entryLoads hentries ((yielded_sublist _).subset hm)
      have hdata' : m.hnData = some s' := heq ▸ rfl
      exact ⟨_, hload.exportState_eq hdata' (fun hnull' ↦ hgood ⟨s', hdata', hnull'⟩) out, trivial⟩
  rw [fsmExportToDot, forEachElm_eq (f := fun out n ↦ exportState w.states out ⟨0, [n]⟩)
    h.sttable.length h.sttable.pos fun _ _ _ _ ↦ rfl, hloop]
  rfl

end Machine

end Experimentation.StateMachine
