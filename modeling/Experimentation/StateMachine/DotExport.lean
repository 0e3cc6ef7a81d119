import Experimentation.Semantics.Lines
import Experimentation.StateMachine.NullTargets
import Experimentation.StateMachine.Stored

/-!
# The exported graph

`fsm_export_to_dot` writes the frame of the graph to the file that it is given, and the edges to the
standard output.  So the file has the graph just when there is no edge, or when it is the standard
output and no edge is missing there or written twice.  The two iterators may lose some edges, and
the iterator over the states yields a state as often as it is registered.
-/

open scoped List

namespace Experimentation.StateMachine

open Semantics HashTable

variable {A D : Type}

/-- A registered state handles the event, and the event leads to the target. -/
def World.HasTransition (w : World A D) (e : Edge) : Prop :=
  e.source ∈ w.registered ∧ ∃ st n, w.states e.source = some st ∧ st.evttable.HasNode n ∧
    n.hnKey = e.event ∧ eventTarget n = some e.target

/-- The text is the graph of the transitions: exactly one line for each of them, in some order. -/
def World.IsGraph (w : World A D) (text : Text) : Prop :=
  ∃ edges : List Edge, edges.Nodup ∧ (∀ e, e ∈ edges ↔ w.HasTransition e) ∧
    text = dotHeader ++ edges.flatMap (Edge.text w.states) ++ dotFooter

/-- What `fsm_export_to_dot` writes to the file is the graph. -/
def World.ExportsGraph (w : World A D) (fp : File) (out : Output) : Prop :=
  ∃ out' text, fsmExportToDot w fp out = .ok out' ∧ out' fp = out fp ++ text ∧ w.IsGraph text

/-- No event of a registered state lacks a target. -/
def World.TargetsPresent (w : World A D) : Prop :=
  ∀ s ∈ w.registered, ∀ st, w.states s = some st → ∀ e ∈ st.evttable.htTable.flatten,
    eventTarget e ≠ none

/-- The edges of a state. -/
def edgesFrom (mem : StateMem A) (s : StateId) : List Edge :=
  (mem s).elim [] fun st ↦ edgesOf s st.evttable.htTable.flatten

/-- The transitions of the registered states, each state once. -/
def World.transitions (w : World A D) : List Edge := w.registered.dedup.flatMap (edgesFrom w.states)

/-- What the line of an edge shows: the key of its source, its event and the key of its target. -/
def Edge.keys (mem : StateMem A) (e : Edge) : UInt32 × UInt32 × UInt32 :=
  (readKey mem (.stKey e.source), e.event, readKey mem (.stKey e.target))

/-- For any two keys and any event, as many edges are yielded as there are transitions. -/
def World.EdgesBalance (w : World A D) : Prop :=
  ∀ keys, (w.exported.map (Edge.keys w.states)).count keys =
    (w.transitions.map (Edge.keys w.states)).count keys

/-- A registered state that handles an event is yielded once, and so are its events. -/
def World.EachEdgeOnce (w : World A D) : Prop :=
  ∀ s ∈ w.registered, ∀ st, w.states s = some st → st.evttable.htTable.flatten ≠ [] →
    w.sweepOrder.count s = 1 ∧ st.evttable.lastChain.length ≤ 1

/-- No two registered states that handle events have equal keys. -/
def World.SourcesDiffer (w : World A D) : Prop :=
  ∀ e e', w.HasTransition e → w.HasTransition e' →
    readKey w.states (.stKey e.source) = readKey w.states (.stKey e'.source) → e.source = e'.source

/-! ## The transitions -/

section Transitions

variable {w : World A D} {s : StateId} {e : Edge}

theorem Built.inPlace (h : Built w) : w.InPlace := by
  induction h with
  | init hpos hinit => exact .start hinit
  | call _ _ hrun ih => exact ih.effect (effect_of_perform hrun)

theorem edgesOf_nodup {es : List (HNode UInt32 (Event A))}
    (h : es.Pairwise fun a b ↦ stateCallbacks.cmpf a.hnKey b.hnKey ≠ 0) :
    ((edgesOf s es).map Edge.event).Nodup := by
  rw [edgesOf, List.map_filterMap]
  apply List.Pairwise.filterMap _ _ h
  intro a b hne x hx y hy heq
  rw [Option.map_map, Option.map_eq_some_iff] at hx hy
  obtain ⟨t, _, rfl⟩ := hx
  obtain ⟨t', _, rfl⟩ := hy
  exact hne (uintCmpf_eq_zero_iff.2 heq)

theorem source_eq_of_mem {es : List (HNode UInt32 (Event A))} (he : e ∈ edgesOf s es) :
    e.source = s := by
  obtain ⟨n, _, hedge⟩ := List.mem_filterMap.1 he
  obtain ⟨t, _, rfl⟩ := Option.map_eq_some_iff.1 hedge
  rfl

theorem mem_edgesFrom : e ∈ edgesFrom w.states s ↔ e.source = s ∧ ∃ st n, w.states s = some st ∧
    st.evttable.HasNode n ∧ n.hnKey = e.event ∧ eventTarget n = some e.target := by
  unfold edgesFrom
  cases hst : w.states s with
  | none => simp
  | some st =>
      rw [Option.elim_some]
      constructor
      · intro he
        refine ⟨source_eq_of_mem he, ?_⟩
        obtain ⟨n, hn, hedge⟩ := List.mem_filterMap.1 he
        obtain ⟨t, ht, rfl⟩ := Option.map_eq_some_iff.1 hedge
        exact ⟨st, n, rfl, hn, rfl, ht⟩
      · intro he
        obtain ⟨hsource, st', n, hst', hn, hkey, htarget⟩ := he
        cases hst'
        refine List.mem_filterMap.2 ⟨n, hn, ?_⟩
        rw [htarget, Option.map_some, hkey, ← hsource]

theorem mem_transitions : e ∈ w.transitions ↔ w.HasTransition e := by
  rw [World.transitions, List.mem_flatMap]
  simp only [List.mem_dedup, mem_edgesFrom, World.HasTransition]
  constructor
  · intro he
    obtain ⟨s, hs, rfl, hnode⟩ := he
    exact ⟨hs, hnode⟩
  · exact fun he ↦ ⟨e.source, he.1, rfl, he.2⟩

theorem World.InPlace.edgesFrom_nodup (h : w.InPlace) (s : StateId) :
    ((edgesFrom w.states s).map Edge.event).Nodup := by
  unfold edgesFrom
  cases hst : w.states s with
  | none => exact List.nodup_nil
  | some st =>
      rw [Option.elim_some]
      rcases h.evttable s st hst with hkeyed | hempty
      · exact edgesOf_nodup hkeyed.distinct
      · rw [hempty]
        exact List.nodup_nil

theorem World.InPlace.transitions_nodup (h : w.InPlace) : w.transitions.Nodup := by
  refine List.nodup_flatMap.2 ⟨fun s _ ↦ (h.edgesFrom_nodup s).of_map, ?_⟩
  refine w.registered.nodup_dedup.imp fun hne e he he' ↦ ?_
  exact hne ((mem_edgesFrom.1 he).1.symm.trans (mem_edgesFrom.1 he').1)

/-- Where the sources have distinct keys, the line of a transition shows which one it is. -/
theorem World.InPlace.eq_of_keys (h : w.InPlace) (hdiffer : w.SourcesDiffer) {e' : Edge}
    (he : w.HasTransition e) (he' : w.HasTransition e')
    (hkeys : e.keys w.states = e'.keys w.states) : e = e' := by
  simp only [Edge.keys, Prod.mk.injEq] at hkeys
  have hsource := hdiffer e e' he he' hkeys.1
  apply List.inj_on_of_nodup_map (h.edgesFrom_nodup e.source) _ _ hkeys.2.1
  · exact mem_edgesFrom.2 ⟨rfl, he.2⟩
  · exact mem_edgesFrom.2 ⟨hsource.symm, hsource ▸ he'.2⟩

end Transitions

section Yielded

variable {w : World A D} {s : StateId} {e : Edge}

/-- The edges of a state that the iterator over its events yields. -/
def yieldedFrom (mem : StateMem A) (s : StateId) : List Edge :=
  (mem s).elim [] fun st ↦ edgesOf s (yielded st.evttable.htTable)

theorem yieldedFrom_sublist (mem : StateMem A) (s : StateId) :
    (yieldedFrom mem s).Sublist (edgesFrom mem s) := by
  unfold yieldedFrom edgesFrom
  cases mem s with
  | none => exact List.Sublist.refl _
  | some st => exact (yielded_sublist st.evttable.htTable).filterMap _

theorem exported_subset (w : World A D) : w.exported ⊆ w.transitions := by
  intro e he
  obtain ⟨s, hs, he⟩ := List.mem_flatMap.1 he
  exact List.mem_flatMap.2 ⟨s, List.mem_dedup.2 (World.sweepOrder_subset hs),
    (yieldedFrom_sublist w.states s).subset he⟩

theorem count_flatMap_source {f : StateId → List Edge} (hf : ∀ s, ∀ e ∈ f s, e.source = s)
    (ss : List StateId) (e : Edge) :
    (ss.flatMap f).count e = ss.count e.source * (f e.source).count e := by
  induction ss with
  | nil => simp
  | cons s ss ih =>
      rw [List.flatMap_cons, List.count_append, ih]
      by_cases hs : s = e.source
      · rw [hs, List.count_cons_self, Nat.add_mul, Nat.one_mul, Nat.add_comm]
      · rw [List.count_cons_of_ne hs, List.count_eq_zero.2 fun he ↦ hs (hf s e he).symm,
          Nat.zero_add]

theorem count_exported (w : World A D) (e : Edge) :
    w.exported.count e = w.sweepOrder.count e.source * (yieldedFrom w.states e.source).count e := by
  apply count_flatMap_source
  intro s e he
  exact (mem_edgesFrom.1 ((yieldedFrom_sublist w.states s).subset he)).1

theorem World.InPlace.count_transitions (h : w.InPlace) (he : w.HasTransition e) :
    w.transitions.count e = 1 := List.count_eq_one_of_mem h.transitions_nodup (mem_transitions.2 he)

theorem length_edgesOf {es : List (HNode UInt32 (Event A))}
    (htargets : ∀ e ∈ es, eventTarget e ≠ none) : (edgesOf s es).length = es.length := by
  induction es with
  | nil => rfl
  | cons e es ih =>
      obtain ⟨t, ht⟩ := Option.ne_none_iff_exists'.1 (htargets e List.mem_cons_self)
      have hrest := ih fun e' he' ↦ htargets e' (List.mem_cons_of_mem e he')
      rw [edgesOf, List.filterMap_cons_some (by rw [ht, Option.map_some]), List.length_cons,
        List.length_cons, ← hrest]
      rfl

/-- The iterator yields all edges of a state just when its last chain has one node at most. -/
theorem edgesOf_yielded_eq_iff {t : HTable UInt32 (Event A)} (h : t.Indexed)
    (htargets : ∀ e ∈ t.htTable.flatten, eventTarget e ≠ none) :
    edgesOf s (yielded t.htTable) = edgesOf s t.htTable.flatten ↔ t.lastChain.length ≤ 1 := by
  have hsub := yielded_sublist t.htTable
  rw [h.lastChain_eq, ← length_yielded_iff h.htTable_ne_nil]
  constructor
  · intro heq
    have hlength := congrArg List.length heq
    rwa [length_edgesOf htargets, length_edgesOf fun e he ↦ htargets e (hsub.subset he)] at hlength
  · intro hlength
    rw [hsub.eq_of_length hlength]

theorem Built.balance_of_once (h : Built w) (htargets : w.TargetsPresent) (honce : w.EachEdgeOnce) :
    w.EdgesBalance := by
  have hperm : w.exported ~ w.transitions := by
    rw [List.perm_iff_count]
    intro e
    by_cases he : w.HasTransition e
    · have hs := he.1
      obtain ⟨st, n, hst, hn, _⟩ := he.2
      obtain ⟨hcount, hlast⟩ := honce e.source hs st hst (List.ne_nil_of_mem hn)
      have hyielded : yieldedFrom w.states e.source = edgesFrom w.states e.source := by
        rw [yieldedFrom, edgesFrom, hst, Option.elim_some, Option.elim_some]
        exact (edgesOf_yielded_eq_iff (h.accessible.evttable _ st hst).toIndexed
          (htargets _ hs st hst)).2 hlast
      have hone : (edgesFrom w.states e.source).count e = 1 :=
        List.count_eq_one_of_mem (h.inPlace.edgesFrom_nodup e.source).of_map
          (mem_edgesFrom.2 ⟨rfl, he.2⟩)
      rw [h.inPlace.count_transitions he, count_exported, hcount, hyielded, hone]
    · rw [List.count_eq_zero.2 fun hmem ↦ he (mem_transitions.1 (exported_subset w hmem)),
        List.count_eq_zero.2 fun hmem ↦ he (mem_transitions.1 hmem)]
  exact fun keys ↦ (hperm.map _).count_eq keys

/-- Where the sources have distinct keys, the lines are not as many as they should be otherwise. -/
theorem Built.once_of_balance (h : Built w) (htargets : w.TargetsPresent)
    (hdiffer : w.SourcesDiffer) (hbalance : w.EdgesBalance) : w.EachEdgeOnce := by
  have hkeys {e : Edge} (he : w.HasTransition e) {es : List Edge} (hes : es ⊆ w.transitions) :
      (es.map (Edge.keys w.states)).count (e.keys w.states) = es.count e := by
    rw [List.count_eq_countP, List.countP_map, List.count_eq_countP]
    apply List.countP_congr
    intro e' he'
    simp only [Function.comp_apply, beq_iff_eq]
    exact ⟨h.inPlace.eq_of_keys hdiffer (mem_transitions.1 (hes he')) he, fun heq ↦ heq ▸ rfl⟩
  have hone {e : Edge} (he : w.HasTransition e) :
      w.sweepOrder.count e.source = 1 ∧ e ∈ yieldedFrom w.states e.source := by
    have hcount := hbalance (e.keys w.states)
    rw [hkeys he (exported_subset w), hkeys he (List.Subset.refl _),
      h.inPlace.count_transitions he, count_exported, mul_eq_one] at hcount
    exact ⟨hcount.1, List.count_pos_iff.1 (hcount.2 ▸ Nat.one_pos)⟩
  intro s hs st hst hne
  have htransition {e : Edge} (he : e ∈ edgesFrom w.states s) : w.HasTransition e := by
    obtain ⟨rfl, hnode⟩ := mem_edgesFrom.1 he
    exact ⟨hs, hnode⟩
  have hfrom : edgesFrom w.states s = edgesOf s st.evttable.htTable.flatten := by
    rw [edgesFrom, hst, Option.elim_some]
  have hsub : edgesFrom w.states s ⊆ yieldedFrom w.states s := by
    intro e he
    obtain ⟨rfl, _⟩ := mem_edgesFrom.1 he
    exact (hone (htransition he)).2
  constructor
  · have hlength := length_edgesOf (s := s) (htargets s hs st hst)
    obtain ⟨e, he⟩ := List.exists_mem_of_length_pos
      (hlength ▸ List.length_pos_iff.2 hne : 0 < (edgesOf s st.evttable.htTable.flatten).length)
    have hsource := source_eq_of_mem he
    exact hsource ▸ (hone (htransition (hfrom ▸ he))).1
  · have hnodup := (h.inPlace.edgesFrom_nodup s).of_map
    have heq := (yieldedFrom_sublist w.states s).eq_of_length_le (hnodup.subperm hsub).length_le
    rw [hfrom, yieldedFrom, hst, Option.elim_some] at heq
    exact (edgesOf_yielded_eq_iff (h.accessible.evttable s st hst).toIndexed
      (htargets s hs st hst)).1 heq

end Yielded

/-! ## What is written -/

section Written

/-- The line that shows the keys and the event, without the line feed. -/
def edgeWords (keys : UInt32 × UInt32 × UInt32) : Text :=
  ascii "S" ++ decimal keys.1 ++ ascii " -> S" ++ decimal keys.2.2 ++ ascii " [label=\"E" ++
    decimal keys.2.1 ++ ascii "\"]"

theorem Edge.text_eq (mem : StateMem A) (e : Edge) :
    e.text mem = edgeWords (e.keys mem) ++ [newline] := by
  simp only [Edge.text, edgeLine, edgeWords, Edge.keys, List.append_assoc]
  rfl

theorem not_mem_decimal {n : UInt32} {c : UInt8} (hc : c.toNat < 48) : c ∉ decimal n := by
  intro h
  have hbounds := mem_decimal h
  omega

theorem newline_not_mem_edgeWords (keys : UInt32 × UInt32 × UInt32) :
    newline ∉ edgeWords keys := by
  have hdecimal (n : UInt32) : newline ∉ decimal n := not_mem_decimal (by decide)
  simp only [edgeWords, List.mem_append, hdecimal, or_false, not_or]
  decide

theorem edgeWords_injective : Function.Injective edgeWords := by
  intro keys keys' heq
  have hwords (keys : UInt32 × UInt32 × UInt32) : edgeWords keys = 83 :: (decimal keys.1 ++ 32 ::
      (ascii "-> S" ++ (decimal keys.2.2 ++ 32 :: (ascii "[label=\"E" ++
        (decimal keys.2.1 ++ 34 :: [93]))))) := by
    simp only [edgeWords, List.append_assoc]
    rfl
  have hblank (n : UInt32) : (32 : UInt8) ∉ decimal n := not_mem_decimal (by decide)
  have hquote (n : UInt32) : (34 : UInt8) ∉ decimal n := not_mem_decimal (by decide)
  rw [hwords, hwords, List.cons.injEq, append_cons_inj (hblank _) (hblank _),
    List.append_cancel_left_eq, append_cons_inj (hblank _) (hblank _),
    List.append_cancel_left_eq, append_cons_inj (hquote _) (hquote _)] at heq
  obtain ⟨_, hsource, htarget, hevent, _⟩ := heq
  exact Prod.ext (decimal_injective hsource)
    (Prod.ext (decimal_injective hevent) (decimal_injective htarget))

theorem flatMap_text_eq_iff {mem : StateMem A} {es es' : List Edge} :
    es.flatMap (Edge.text mem) = es'.flatMap (Edge.text mem) ↔
      es.map (Edge.keys mem) = es'.map (Edge.keys mem) := by
  have hunlines (es : List Edge) : es.flatMap (Edge.text mem) =
      unlines ((es.map (Edge.keys mem)).map edgeWords) := by
    rw [unlines, List.flatMap_map, List.flatMap_map]
    exact List.flatMap_congr fun e _ ↦ e.text_eq mem
  have hlines (es : List Edge) : lines (es.flatMap (Edge.text mem)) =
      (es.map (Edge.keys mem)).map edgeWords := by
    rw [hunlines, lines_unlines]
    intro l hl
    obtain ⟨keys, _, rfl⟩ := List.mem_map.1 hl
    exact newline_not_mem_edgeWords keys
  constructor
  · intro heq
    have hwords := congrArg lines heq
    rw [hlines, hlines] at hwords
    exact List.map_injective_iff.2 edgeWords_injective hwords
  · intro heq
    rw [hunlines, hunlines, heq]

variable {w : World A D}

/-- The frame with some edges is the graph just when the edges show what the transitions do. -/
theorem World.InPlace.isGraph_iff (h : w.InPlace) (es : List Edge) :
    w.IsGraph (dotHeader ++ es.flatMap (Edge.text w.states) ++ dotFooter) ↔
      es.map (Edge.keys w.states) ~ w.transitions.map (Edge.keys w.states) := by
  constructor
  · intro hgraph
    obtain ⟨edges, hnodup, hmem, heq⟩ := hgraph
    rw [flatMap_text_eq_iff.1 (List.append_cancel_left (List.append_cancel_right heq))]
    apply List.Perm.map
    rw [List.perm_ext_iff_of_nodup hnodup h.transitions_nodup]
    exact fun e ↦ (hmem e).trans mem_transitions.symm
  · intro hperm
    obtain ⟨edges, hedges, hkeys⟩ := exists_map_perm hperm.symm
    refine ⟨edges, hedges.nodup_iff.2 h.transitions_nodup, fun e ↦ ?_, ?_⟩
    · exact hedges.mem_iff.trans mem_transitions
    · rw [flatMap_text_eq_iff.2 hkeys]

/-- The edges that are written to the file. -/
def World.written (w : World A D) (fp : File) : List Edge := if fp = .stdout then w.exported else []

theorem write_graph (w : World A D) (fp : File) (out : Output) :
    (((out.write dotHeader fp).write (w.exported.flatMap (Edge.text w.states)) .stdout).write
        dotFooter fp) fp =
      out fp ++ (dotHeader ++ (w.written fp).flatMap (Edge.text w.states) ++ dotFooter) := by
  by_cases hfp : fp = .stdout
  · subst hfp
    rw [Output.write_write, Output.write_write, Output.write_self, World.written, if_pos rfl,
      List.append_assoc]
  · rw [Output.write_self, Output.write_of_ne _ _ hfp, Output.write_self, World.written, if_neg hfp,
      List.flatMap_nil, List.append_nil, List.append_assoc]

/-- The file has the graph just when the machine has no edge, or the file is the standard output and
gets as many lines for each as there are transitions. -/
theorem Built.exportsGraph_iff_balance (h : Built w) (htargets : w.TargetsPresent) (fp : File)
    (out : Output) :
    w.ExportsGraph fp out ↔ (∀ e, ¬ w.HasTransition e) ∨ fp = .stdout ∧ w.EdgesBalance := by
  have hyields : ∀ s ∈ w.sweepOrder, ¬ YieldsNull w.states s := by
    intro s hs hnull
    obtain ⟨st, hst, e, he, htarget⟩ := hnull
    exact htargets s (World.sweepOrder_subset hs) st hst e ((yielded_sublist _).subset he) htarget
  have hexports : w.ExportsGraph fp out ↔ (w.written fp).map (Edge.keys w.states) ~
      w.transitions.map (Edge.keys w.states) := by
    rw [← h.inPlace.isGraph_iff, World.ExportsGraph,
      h.accessible.fsmExportToDot_eq h.entriesLoad fp out hyields]
    constructor
    · intro hexport
      obtain ⟨out', text, hrun, hfile, hgraph⟩ := hexport
      cases hrun
      rw [write_graph, List.append_cancel_left_eq] at hfile
      exact hfile ▸ hgraph
    · exact fun hgraph ↦ ⟨_, _, rfl, write_graph w fp out, hgraph⟩
  have hnone : (∀ e, ¬ w.HasTransition e) ↔ w.transitions = [] := by
    simp only [← mem_transitions, List.eq_nil_iff_forall_not_mem]
  rw [hexports, hnone]
  by_cases hfp : fp = .stdout
  · rw [World.written, if_pos hfp, List.perm_iff_count]
    refine ⟨fun hbalance ↦ .inr ⟨hfp, hbalance⟩, fun hcond ↦ ?_⟩
    rcases hcond with hempty | ⟨_, hbalance⟩
    · have hexported : w.exported = [] := List.eq_nil_of_subset_nil (hempty ▸ exported_subset w)
      rw [hexported, hempty]
      exact fun _ ↦ rfl
    · exact hbalance
  · rw [World.written, if_neg hfp, List.map_nil, List.nil_perm, List.map_eq_nil_iff]
    exact ⟨.inl, fun hcond ↦ hcond.resolve_right fun hstdout ↦ hfp hstdout.1⟩

/-- What `fsm_export_to_dot` writes to the file that it is given is the graph of a machine whose
events all have targets, just when there is no transition, or the file is the standard output and
each line is yielded as often as there are transitions that it shows.  It is so if every state that
handles an event is yielded once with all its events, and only then unless two such states have
equal keys. -/
theorem exportsGraph_iff (h : Built w) (htargets : w.TargetsPresent) (fp : File) (out : Output) :
    (w.ExportsGraph fp out ↔ (∀ e, ¬ w.HasTransition e) ∨ fp = .stdout ∧ w.EdgesBalance) ∧
      (w.EachEdgeOnce → w.EdgesBalance) ∧
      (w.SourcesDiffer → w.EdgesBalance → w.EachEdgeOnce) :=
  ⟨h.exportsGraph_iff_balance htargets fp out, h.balance_of_once htargets,
    h.once_of_balance htargets⟩

end Written

theorem loopWorld_targetsPresent : (loopWorld (some 0)).TargetsPresent := by
  have hregistered : (loopWorld (some 0)).registered = [0] := rfl
  intro s hs st hst e he htarget
  rw [hregistered, List.mem_singleton] at hs
  subst hs
  cases hst
  cases List.mem_singleton.1 he
  cases htarget

theorem pairWorld_targetsPresent : (pairWorld (some 0)).TargetsPresent := by
  have hregistered : (pairWorld (some 0)).registered = [0, 1] := rfl
  intro s hs st hst e he htarget
  rw [hregistered, List.mem_cons, List.mem_singleton] at hs
  rcases hs with rfl | rfl
  · cases hst
    cases List.mem_singleton.1 he
    cases htarget
  · cases hst
    cases List.mem_singleton.1 he
    cases htarget

/-- The graph of two states, each with a transition to the first one, is written to the standard
output. -/
theorem pairWorld_exportsGraph :
    (∃ out', fsmExportToDot (pairWorld (some 0)) .stdout (fun _ ↦ []) = .ok out' ∧
      out' .stdout =
        ascii "digraph \x7b\nS1 -> S1 [label=\"E7\"]\nS2 -> S1 [label=\"E7\"]\n\x7d\n") ∧
    (pairWorld (some 0)).ExportsGraph .stdout (fun _ ↦ []) := by
  obtain ⟨hiff, honce, _⟩ :=
    exportsGraph_iff (pairWorld_built (.inr rfl)) pairWorld_targetsPresent .stdout fun _ ↦ []
  have hregistered : (pairWorld (some 0)).registered = [0, 1] := rfl
  refine ⟨⟨_, rfl, by decide⟩, hiff.2 (.inr ⟨rfl, honce fun s hs st hst _ ↦ ?_⟩)⟩
  rw [hregistered, List.mem_cons, List.mem_singleton] at hs
  rcases hs with rfl | rfl
  · cases hst
    decide
  · cases hst
    decide

/-- Into another file, only the frame of the graph is written. -/
theorem loopWorld_not_exportsGraph :
    (∃ out', fsmExportToDot (loopWorld (some 0)) (.other 0) (fun _ ↦ []) = .ok out' ∧
      out' (.other 0) = ascii "digraph \x7b\n\x7d\n" ∧
      out' .stdout = ascii "S1 -> S1 [label=\"E7\"]\n") ∧
    (loopWorld (some 0)).HasTransition ⟨0, 7, 0⟩ ∧
    ¬ (loopWorld (some 0)).ExportsGraph (.other 0) (fun _ ↦ []) := by
  have htransition : (loopWorld (some 0)).HasTransition ⟨0, 7, 0⟩ :=
    mem_transitions.1 (by decide)
  refine ⟨⟨_, rfl, by decide, by decide⟩, htransition, fun hexports ↦ ?_⟩
  rcases ((loopWorld_built (.inr rfl)).exportsGraph_iff_balance loopWorld_targetsPresent _ _).1
    hexports with hnone | ⟨hfp, _⟩
  · exact hnone _ htransition
  · cases hfp

end Experimentation.StateMachine
