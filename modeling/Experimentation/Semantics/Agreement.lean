import Experimentation.Semantics.Exec

/-!
# Evaluations that agree

Two models of one program agree when, step by step, both yield related values or both are undefined
for the same reason.  Agreement is carried through sequencing and branching, so that it is proved
for whole functions from the agreement of their elementary steps.
-/

namespace Experimentation.Semantics

/-- Both evaluations yield related values, or both are undefined for the same reason. -/
inductive Agree {α β : Type} (R : α → β → Prop) : Exec α → Exec β → Prop
  | ok {a : α} {b : β} (h : R a b) : Agree R (.ok a) (.ok b)
  | error (fault : Fault) : Agree R (.error fault) (.error fault)

namespace Agree

variable {α β γ δ : Type} {R : α → β → Prop} {S : γ → δ → Prop} {x : Exec α} {y : Exec β}

/-- One step after the other. -/
theorem bind {f : α → Exec γ} {g : β → Exec δ} (h : Agree R x y)
    (hrest : ∀ a b, R a b → Agree S (f a) (g b)) : Agree S (x >>= f) (y >>= g) := by
  cases h with
  | ok hab => exact hrest _ _ hab
  | error fault => exact .error fault

theorem ite {c : Prop} [Decidable c] {x' : Exec α} {y' : Exec β} (h : c → Agree R x y)
    (h' : ¬ c → Agree R x' y') : Agree R (if c then x else x') (if c then y else y') := by
  by_cases hc : c
  · rw [if_pos hc, if_pos hc]
    exact h hc
  · rw [if_neg hc, if_neg hc]
    exact h' hc

theorem ok_of_left {a : α} (h : Agree R (.ok a) y) : ∃ b, y = .ok b ∧ R a b := by
  cases h with
  | ok hab => exact ⟨_, rfl, hab⟩

theorem error_of_left {fault : Fault} (h : Agree R (.error fault) y) : y = .error fault := by
  cases h with
  | error => rfl

end Agree

end Experimentation.Semantics
