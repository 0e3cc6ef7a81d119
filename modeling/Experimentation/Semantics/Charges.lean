import Experimentation.Semantics.Exec

/-!
# What a run is charged

A step that reports what it costs beside what it answers, and runs of such steps.  The potential
method bounds the cost of a run: if every step is paid for by what it yields, at a fixed price, and
by what the potential falls, then so is the run.
-/

namespace Experimentation.Semantics

variable {σ ι ρ α : Type}

/-! ## Loops whose turns are counted -/

/-- The body of a loop that counts its turns. -/
def counted (body : σ → α → Exec σ) (s : σ × ℕ) (a : α) : Exec (σ × ℕ) := do
  let s' ← body s.1 a
  return (s', s.2 + 1)

theorem foldlM_counted (body : σ → α → Exec σ) (as : List α) (s : σ) (k : ℕ) :
    as.foldlM (counted body) (s, k) = as.foldlM body s >>= fun s' ↦ .ok (s', k + as.length) := by
  induction as generalizing s k with
  | nil => rfl
  | cons a as ih =>
      rw [List.foldlM_cons, List.foldlM_cons, counted]
      cases body s a with
      | error fault => rfl
      | ok s₁ =>
          change List.foldlM (counted body) (s₁, k + 1) as = _
          rw [ih, List.length_cons, Nat.add_right_comm, Nat.add_assoc]
          rfl

/-! ## Runs -/

/-- The steps of a run in turn, with their answers and the sum of their costs. -/
def chargedRun (step : σ → ι → Exec ((ρ × σ) × ℕ)) : σ → List ι → Exec ((List ρ × σ) × ℕ)
  | s, [] => return (([], s), 0)
  | s, i :: is => do
      let ((r, s), cost) ← step s i
      let ((rs, s), costs) ← chargedRun step s is
      return ((r :: rs, s), cost + costs)

/-- The potential method.  The invariant may speak of the steps that are still to come. -/
theorem chargedRun_le {step : σ → ι → Exec ((ρ × σ) × ℕ)} {inv : σ → List ι → Prop} {Φ : σ → ℕ}
    {yields : ι → ρ → ℕ} {price : ℕ}
    (hstep : ∀ s i is, inv s (i :: is) → ∃ r s' cost, step s i = .ok ((r, s'), cost) ∧ inv s' is ∧
      cost + Φ s' ≤ Φ s + price * yields i r)
    {s : σ} {is : List ι} (hs : inv s is) :
    ∃ rs s' cost, chargedRun step s is = .ok ((rs, s'), cost) ∧ inv s' [] ∧
      cost + Φ s' ≤ Φ s + price * (List.zipWith yields is rs).sum := by
  induction is generalizing s with
  | nil => exact ⟨[], s, 0, rfl, hs, by simp⟩
  | cons i is ih =>
      obtain ⟨r, s₁, cost, hrun, hinv, hpay⟩ := hstep s i is hs
      obtain ⟨rs, s', costs, hruns, hinv', hpays⟩ := ih hinv
      refine ⟨r :: rs, s', cost + costs, ?_, hinv', ?_⟩
      · rw [chargedRun, hrun, Exec.ok_bind]
        change (chargedRun step s₁ is >>= fun r ↦ _) = _
        rw [hruns]
        rfl
      · rw [List.zipWith_cons_cons, List.sum_cons, Nat.mul_add]
        calc
          cost + costs + Φ s' = cost + (costs + Φ s') := Nat.add_assoc ..
          _ ≤ cost + (Φ s₁ + price * (List.zipWith yields is rs).sum) :=
            Nat.add_le_add_left hpays _
          _ = cost + Φ s₁ + price * (List.zipWith yields is rs).sum := (Nat.add_assoc ..).symm
          _ ≤ Φ s + price * yields i r + price * (List.zipWith yields is rs).sum :=
            Nat.add_le_add_right hpay _
          _ = Φ s + (price * yields i r + price * (List.zipWith yields is rs).sum) :=
            Nat.add_assoc ..

end Experimentation.Semantics
