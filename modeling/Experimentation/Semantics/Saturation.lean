import Mathlib.Data.Set.Card
import Mathlib.Logic.Relation
import Experimentation.Semantics.Sweep

/-!
# Sweeps until nothing is left to mark

One sweep may miss a node, but it marks all successors of the nodes that were marked before it.  As
long as a node that can be reached is still unmarked, each sweep therefore marks another node of the
order, and after as many sweeps as the order has nodes everything that can be reached is marked.
-/

namespace Experimentation.Sweep

open Relation

variable {V : Type*} (succ : V → List V)

/-- The marks after a number of sweeps. -/
def sweeps (marks : Set V) (order : List V) : ℕ → Set V
  | 0 => marks
  | k + 1 => sweep succ (sweeps marks order k) order

/-- A node that the sweeps visit has the successor. -/
def Follows (order : List V) (v t : V) : Prop := v ∈ order ∧ t ∈ succ v

/-- The nodes that can be reached from marked ones through nodes that the sweeps visit. -/
def closure (marks : Set V) (order : List V) : Set V :=
  {t | ∃ s ∈ marks, ReflTransGen (Follows succ order) s t}

variable {succ} {marks : Set V} {order : List V} {t v : V} {k : ℕ}

theorem subset_sweep : marks ⊆ sweep succ marks order := fun t ht ↦
  mem_sweep_iff.2 ⟨[], List.nil_sublist order, List.isChain_singleton t, by simpa using ht⟩

theorem mem_sweep_of_follows (hv : v ∈ marks) (ht : Follows succ order v t) :
    t ∈ sweep succ marks order := by
  apply mem_sweep_iff.2
  exact ⟨[v], List.singleton_sublist.2 ht.1, by simpa using ht.2, by simpa using hv⟩

theorem sweep_subset {s : Set V} (hmarks : marks ⊆ s)
    (hclosed : ∀ v t, v ∈ s → Follows succ order v t → t ∈ s) : sweep succ marks order ⊆ s := by
  induction order generalizing marks with
  | nil => exact hmarks
  | cons w order ih =>
      apply ih
      · intro t ht
        rcases ht with hold | ⟨hw, hsucc⟩
        · exact hmarks hold
        · exact hclosed w t (hmarks hw) ⟨List.mem_cons_self, hsucc⟩
      · exact fun v t hv ht ↦ hclosed v t hv ⟨List.mem_cons_of_mem w ht.1, ht.2⟩

/-! ## The closure -/

theorem subset_closure : marks ⊆ closure succ marks order := fun t ht ↦ ⟨t, ht, .refl⟩

theorem closure_closed (hv : v ∈ closure succ marks order) (ht : Follows succ order v t) :
    t ∈ closure succ marks order := by
  obtain ⟨s, hs, hpath⟩ := hv
  exact ⟨s, hs, hpath.tail ht⟩

/-- The closure is the least set with the marks that the visited nodes do not lead out of. -/
theorem closure_subset {s : Set V} (hmarks : marks ⊆ s)
    (hclosed : ∀ v t, v ∈ s → Follows succ order v t → t ∈ s) : closure succ marks order ⊆ s := by
  intro t ht
  obtain ⟨r, hr, hpath⟩ := ht
  induction hpath with
  | refl => exact hmarks hr
  | tail _ hstep ih => exact hclosed _ _ ih hstep

/-! ## Sweeps -/

theorem sweeps_subset_closure (k : ℕ) : sweeps succ marks order k ⊆ closure succ marks order := by
  induction k with
  | zero => exact subset_closure
  | succ k ih => exact sweep_subset ih fun _ _ ↦ closure_closed

theorem subset_sweeps (k : ℕ) : marks ⊆ sweeps succ marks order k := by
  induction k with
  | zero => exact subset_rfl
  | succ k ih => exact ih.trans subset_sweep

/-- The visited nodes that are marked. -/
def markedNodes (order : List V) (marks : Set V) : Set V := {v | v ∈ order ∧ v ∈ marks}

theorem markedNodes_finite : (markedNodes order marks).Finite :=
  (List.finite_toSet order).subset fun _ ↦ And.left

theorem ncard_nodes_le (order : List V) : {v | v ∈ order}.ncard ≤ order.length := by
  classical
  rw [← List.coe_toFinset, Set.ncard_coe_finset]
  exact List.toFinset_card_le order

theorem ncard_markedNodes_le : (markedNodes order marks).ncard ≤ order.length :=
  (Set.ncard_le_ncard (fun _ ↦ And.left) (List.finite_toSet order)).trans (ncard_nodes_le order)

/-- As many visited nodes are marked as there are sweeps that did not finish, and one more. -/
theorem lt_ncard_of_not_closed (h : ¬ closure succ marks order ⊆ sweeps succ marks order k) :
    k < (markedNodes order (sweeps succ marks order k)).ncard := by
  -- what is not closed yet has a visited node with an unmarked successor
  have hedge : ∀ k, ¬ closure succ marks order ⊆ sweeps succ marks order k →
      ∃ v t, v ∈ sweeps succ marks order k ∧ Follows succ order v t ∧
        t ∉ sweeps succ marks order k := by
    intro k hk
    by_contra hnone
    push Not at hnone
    exact hk (closure_subset (subset_sweeps k) hnone)
  induction k with
  | zero =>
      obtain ⟨v, t, hv, hfollows, _⟩ := hedge 0 h
      exact (Set.ncard_pos markedNodes_finite).2 ⟨v, hfollows.1, hv⟩
  | succ k ih =>
      obtain ⟨v, t, hv, hfollows, ht⟩ := hedge (k + 1) h
      have hk := ih fun hsub ↦ h (hsub.trans subset_sweep)
      have hnew : v ∉ sweeps succ marks order k := fun hold ↦
        ht (mem_sweep_of_follows hold hfollows)
      refine lt_of_le_of_lt hk (Set.ncard_lt_ncard ?_ markedNodes_finite)
      refine ⟨fun u hu ↦ ⟨hu.1, subset_sweep hu.2⟩, fun hsub ↦ ?_⟩
      exact hnew (hsub ⟨hfollows.1, hv⟩).2

/-- After one sweep less than there are visited nodes, those that can be reached are marked. -/
theorem mem_sweeps_of_mem_order (hk : order.length ≤ k + 1) (hv : v ∈ order)
    (hclosure : v ∈ closure succ marks order) : v ∈ sweeps succ marks order k := by
  by_contra hunmarked
  have hlt := lt_ncard_of_not_closed fun hsub ↦ hunmarked (hsub hclosure)
  have hss : markedNodes order (sweeps succ marks order k) ⊂ {v | v ∈ order} :=
    ⟨fun _ ↦ And.left, fun hsub ↦ hunmarked (hsub hv).2⟩
  have hcard := Set.ncard_lt_ncard hss (List.finite_toSet order)
  have hle := ncard_nodes_le order
  omega

/-- After as many sweeps as there are visited nodes, all that can be reached is marked. -/
theorem sweeps_eq_closure (hk : order.length ≤ k) :
    sweeps succ marks order k = closure succ marks order := by
  apply (sweeps_subset_closure k).antisymm
  by_contra h
  have hlt := lt_ncard_of_not_closed h
  exact absurd (hk.trans_lt hlt) (not_lt.2 ncard_markedNodes_le)

end Experimentation.Sweep
