import Mathlib.Algebra.BigOperators.Group.Finset.Basic
import Mathlib.Algebra.BigOperators.Fin
import Mathlib.Data.Fintype.Card

/-!
# Censuses of threads

Counting invariants of a program with many threads speak of how many of them are in certain places.
One step moves one thread, so that a census changes by at most one, and by how much is decided by
the place that the thread leaves and the place that it enters.
-/

namespace Experimentation.Semantics

variable {ι α : Type} [Fintype ι]

/-- The number of threads that are in one of the places. -/
def census (p : α → Bool) (place : ι → α) : ℕ :=
  (Finset.univ.filter fun i ↦ p (place i)).card

theorem census_eq_sum (p : α → Bool) (place : ι → α) :
    census p place = ∑ i, (p (place i)).toNat := by
  rw [census, Finset.card_filter]
  apply Finset.sum_congr rfl
  intro i _
  cases p (place i) <;> rfl

theorem census_update [DecidableEq ι] (p : α → Bool) (place : ι → α) (i : ι) (a : α) :
    census p (Function.update place i a) + (p (place i)).toNat =
      census p place + (p a).toNat := by
  have hrest : ∑ j ∈ Finset.univ.erase i, (p (Function.update place i a j)).toNat =
      ∑ j ∈ Finset.univ.erase i, (p (place j)).toNat := by
    apply Finset.sum_congr rfl
    intro j hj
    rw [Function.update_of_ne (Finset.ne_of_mem_erase hj)]
  rw [census_eq_sum, census_eq_sum, ← Finset.add_sum_erase _ _ (Finset.mem_univ i),
    ← Finset.add_sum_erase _ (fun j ↦ (p (place j)).toNat) (Finset.mem_univ i), hrest,
    Function.update_self]
  omega

theorem census_eq_zero {p : α → Bool} {place : ι → α} (h : ∀ i, p (place i) = false) :
    census p place = 0 := by
  rw [census, Finset.card_eq_zero, Finset.filter_eq_empty_iff]
  intro i _
  rw [h i]
  exact Bool.false_ne_true

theorem census_pos {p : α → Bool} {place : ι → α} {i : ι} (h : p (place i) = true) :
    0 < census p place :=
  Finset.card_pos.2 ⟨i, Finset.mem_filter.2 ⟨Finset.mem_univ i, h⟩⟩

theorem sum_update_add [DecidableEq ι] (f : α → ℕ) (place : ι → α) (i : ι) (a : α) :
    ∑ j, f (Function.update place i a j) + f (place i) = ∑ j, f (place j) + f a := by
  have hrest : ∑ j ∈ Finset.univ.erase i, f (Function.update place i a j) =
      ∑ j ∈ Finset.univ.erase i, f (place j) := by
    apply Finset.sum_congr rfl
    intro j hj
    rw [Function.update_of_ne (Finset.ne_of_mem_erase hj)]
  rw [← Finset.add_sum_erase _ _ (Finset.mem_univ i), hrest, Function.update_self,
    ← Finset.add_sum_erase _ (fun j ↦ f (place j)) (Finset.mem_univ i)]
  omega

theorem eq_of_census_le_one {p : α → Bool} {place : ι → α} (h : census p place ≤ 1) {i j : ι}
    (hi : p (place i) = true) (hj : p (place j) = true) : i = j :=
  Finset.card_le_one.1 h i (Finset.mem_filter.2 ⟨Finset.mem_univ i, hi⟩) j
    (Finset.mem_filter.2 ⟨Finset.mem_univ j, hj⟩)

end Experimentation.Semantics
