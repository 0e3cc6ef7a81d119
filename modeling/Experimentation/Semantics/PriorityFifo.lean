import Experimentation.Semantics.Buckets

/-!
# First in, first out, by priority

Elements wait in the order in which they came, and the next one is the oldest of those with the
highest priority.  A distribution of the waiting elements over one bucket for each priority keeps
the next element at the front of the last bucket that is not empty, and elements that come in the
meantime do not change that.
-/

namespace Experimentation.PriorityFifo

open Buckets

variable {α : Type*} {prio : α → ℕ} {p rest : List α} {x : α} {size i : ℕ}

/-- `x` is the oldest of the elements of `p` with the highest priority, and `rest` is `p` without
it. -/
def IsNext (prio : α → ℕ) (p : List α) (x : α) (rest : List α) : Prop :=
  ∃ older younger, p = older ++ x :: younger ∧ rest = older ++ younger ∧
    (∀ y ∈ older, prio y < prio x) ∧ ∀ y ∈ younger, prio y ≤ prio x

theorem IsNext.perm (h : IsNext prio p x rest) : p.Perm (x :: rest) := by
  obtain ⟨older, younger, rfl, rfl, _⟩ := h
  exact List.perm_middle

/-- The next element is at the front of the last bucket that is not empty, and is taken off that
front, also after others were added. -/
theorem isNext_of_chain (hlt : ∀ y ∈ p, prio y < size)
    (hhigher : ∀ j, i < j → j < size → chain prio p j = [])
    (hchain : chain prio p i = x :: rest) :
    ∃ rest', IsNext prio p x rest' ∧
      ∀ q, (layout prio size (p ++ q)).modify i List.tail = layout prio size (rest' ++ q) := by
  obtain ⟨older, younger, rfl, holder, hx, hyounger⟩ := List.filter_eq_cons_iff.1 hchain
  have hxi : prio x = i := by simpa using hx
  have hle : ∀ y ∈ older ++ x :: younger, prio y ≤ i := by
    intro y hy
    by_contra hgt
    have hmem : y ∈ chain prio (older ++ x :: younger) (prio y) := mem_chain.2 ⟨hy, rfl⟩
    rw [hhigher (prio y) (by omega) (hlt y hy)] at hmem
    cases hmem
  have hne : ∀ y ∈ older, prio y ≠ i := fun y hy ↦ by simpa using holder y hy
  refine ⟨older ++ younger, ⟨older, younger, rfl, rfl, fun y hy ↦ ?_, fun y hy ↦ ?_⟩, fun q ↦ ?_⟩
  · have hyi := hle y (List.mem_append_left _ hy)
    have hyne := hne y hy
    omega
  · have hyi := hle y (List.mem_append_right _ (List.mem_cons_of_mem _ hy))
    omega
  · have hnone : chain prio older i = [] := by
      apply List.filter_eq_nil_iff.2
      intro y hy
      simpa using hne y hy
    apply modify_layout
    · rw [chain_append, chain_append, chain_append, chain_append, hnone]
      simp [chain, hxi]
    · intro c hc
      rw [chain_append, chain_append, chain_append, chain_append]
      simp [chain, hxi, Ne.symm hc]

theorem eq_nil_of_chains (hlt : ∀ y ∈ p, prio y < size)
    (hempty : ∀ j < size, chain prio p j = []) : p = [] := by
  apply List.eq_nil_iff_forall_not_mem.2
  intro y hy
  have hmem : y ∈ chain prio p (prio y) := mem_chain.2 ⟨hy, rfl⟩
  rw [hempty (prio y) (hlt y hy)] at hmem
  cases hmem

end Experimentation.PriorityFifo
