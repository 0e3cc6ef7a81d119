import Mathlib.Data.List.Chain
import Mathlib.Data.Set.Basic

/-!
# One sweep of a marking algorithm

Marking the nodes of a graph that can be reached from marked ones, by visiting each node once in a
fixed order and marking the successors of those that are marked when their turn comes.  One sweep
finds a node just when it is marked already or a path leads to it whose other nodes come in the
order of the sweep.
-/

namespace Experimentation.Sweep

variable {V : Type*} (succ : V → List V)

/-- The marks after a node is visited. -/
def visit (marks : Set V) (v : V) : Set V := {t | t ∈ marks ∨ v ∈ marks ∧ t ∈ succ v}

/-- The marks after all nodes of a list are visited in turn. -/
def sweep (marks : Set V) (order : List V) : Set V := order.foldl (visit succ) marks

/-- A path from a marked node to `t` whose nodes before `t` come in the order of the list. -/
def Ascends (marks : Set V) (order : List V) (t : V) : Prop :=
  ∃ vs : List V, vs.Sublist order ∧ (vs ++ [t]).IsChain (fun a b ↦ b ∈ succ a) ∧
    ∀ v ∈ (vs ++ [t]).head?, v ∈ marks

variable {succ} {marks : Set V} {order : List V} {t v : V}

theorem Ascends.mono (h : Ascends succ marks order t) (v : V) :
    Ascends succ marks (order ++ [v]) t := by
  obtain ⟨vs, hsub, hchain, hhead⟩ := h
  exact ⟨vs, hsub.trans (List.sublist_append_left order [v]), hchain, hhead⟩

/-- Only the marks of the nodes of the list and of the end of the path matter. -/
theorem Ascends.congr {marks' : Set V} (h : Ascends succ marks order t)
    (hsame : ∀ v, v ∈ order ∨ v = t → v ∈ marks → v ∈ marks') : Ascends succ marks' order t := by
  obtain ⟨vs, hsub, hchain, hhead⟩ := h
  refine ⟨vs, hsub, hchain, fun v hv ↦ hsame v ?_ (hhead v hv)⟩
  have hmem := List.mem_of_mem_head? hv
  rcases List.mem_append.1 hmem with hvs | ht
  · exact .inl (hsub.subset hvs)
  · exact .inr (List.mem_singleton.1 ht)

theorem Ascends.snoc (h : Ascends succ marks order v) (ht : t ∈ succ v) :
    Ascends succ marks (order ++ [v]) t := by
  obtain ⟨vs, hsub, hchain, hhead⟩ := h
  refine ⟨vs ++ [v], hsub.append (List.Sublist.refl _), ?_, ?_⟩
  · rw [List.append_assoc, List.singleton_append, List.isChain_append_cons_cons]
    exact ⟨hchain, ht, List.isChain_singleton t⟩
  · rw [List.head?_append_of_ne_nil _ (by simp)]
    exact hhead

/-- A path through a list with one more node either avoids that node or ends with an edge from
it. -/
theorem Ascends.of_snoc (h : Ascends succ marks (order ++ [v]) t) :
    Ascends succ marks order t ∨ Ascends succ marks order v ∧ t ∈ succ v := by
  obtain ⟨vs, hsub, hchain, hhead⟩ := h
  obtain ⟨us, ws, rfl, hus, hws⟩ := List.sublist_append_iff.1 hsub
  rcases List.sublist_singleton.1 hws with rfl | rfl
  · rw [List.append_nil] at hchain hhead
    exact .inl ⟨us, hus, hchain, hhead⟩
  · rw [List.append_assoc, List.singleton_append, List.isChain_append_cons_cons] at hchain
    rw [List.head?_append_of_ne_nil _ (by simp)] at hhead
    exact .inr ⟨⟨us, hus, hchain.1, hhead⟩, hchain.2.1⟩

/-- What one sweep marks.  The induction takes the nodes of the sweep from its end. -/
theorem mem_sweep_iff : t ∈ sweep succ marks order ↔ Ascends succ marks order t := by
  induction order using List.reverseRecOn generalizing t with
  | nil =>
      constructor
      · intro hmark
        refine ⟨[], List.Sublist.refl _, List.isChain_singleton t, fun v hv ↦ ?_⟩
        cases hv
        exact hmark
      · intro hpath
        obtain ⟨vs, hsub, _, hhead⟩ := hpath
        rw [List.sublist_nil.1 hsub] at hhead
        exact hhead t rfl
  | append_singleton order v ih =>
      have hstep : t ∈ sweep succ marks (order ++ [v]) ↔
          t ∈ sweep succ marks order ∨ v ∈ sweep succ marks order ∧ t ∈ succ v := by
        unfold sweep
        rw [List.foldl_append]
        rfl
      rw [hstep, ih, ih]
      constructor
      · intro hmark
        rcases hmark with hpath | ⟨hpath, hedge⟩
        · exact hpath.mono v
        · exact hpath.snoc hedge
      · exact Ascends.of_snoc

theorem sweep_of_closed (hclosed : ∀ v ∈ marks, ∀ t ∈ succ v, t ∈ marks) :
    sweep succ marks order = marks := by
  induction order with
  | nil => rfl
  | cons v order ih =>
      have hvisit : visit succ marks v = marks := by
        ext t
        exact or_iff_left_iff_imp.2 fun h ↦ hclosed v h.1 t h.2
      rw [sweep, List.foldl_cons, hvisit]
      exact ih

end Experimentation.Sweep
