import Mathlib.Algebra.Order.Group.Nat
import Mathlib.Tactic.Common

/-!
# Interleavings of threads

A system of threads is given by the states it may start in and by what each thread does when it is
scheduled.  A schedule is any sequence of threads; the state in between is whatever the threads that
ran before have left behind.  Nothing is assumed about fairness.
-/

namespace Experimentation.Semantics

/-- What a thread does when it is scheduled. -/
inductive Outcome (σ : Type)
  /-- It takes a step. -/
  | next (s : σ)
  /-- It waits, or it has ended. -/
  | blocked
  /-- It evaluates something to which the language gives no meaning. -/
  | undefined

/-- A system of threads. -/
structure System (σ α : Type) where
  init : σ → Prop
  step : α → σ → Outcome σ

namespace System

variable {σ α : Type} {S : System σ α} {s t : σ}

/-- The states that some schedule reaches. -/
inductive Reach (S : System σ α) : σ → Prop
  | init {s : σ} (h : S.init s) : Reach S s
  | step {s t : σ} (a : α) (hs : Reach S s) (h : S.step a s = .next t) : Reach S t

/-- What every step preserves holds in every reachable state. -/
theorem Reach.invariant {Inv : σ → Prop} (h : Reach S s) (hinit : ∀ s, S.init s → Inv s)
    (hstep : ∀ a s t, Inv s → S.step a s = .next t → Inv t) : Inv s := by
  induction h with
  | init h => exact hinit _ h
  | step a _ h ih => exact hstep a _ _ ih h

/-- A schedule of `n` steps leads from one state to another. -/
inductive Steps (S : System σ α) (s : σ) : ℕ → σ → Prop
  | start : Steps S s 0 s
  | step {n : ℕ} {t u : σ} (a : α) (hs : Steps S s n t) (h : S.step a t = .next u) :
      Steps S s (n + 1) u

/-- If every step has less work left than there was before, no schedule is longer than the work. -/
theorem Steps.length_le {Inv : σ → Prop} {work : σ → ℕ} {n : ℕ} (h : Steps S s n t) (hs : Inv s)
    (hstep : ∀ a s t, Inv s → S.step a s = .next t → Inv t ∧ work t < work s) : n ≤ work s := by
  have hall : Inv t ∧ n + work t ≤ work s := by
    induction h with
    | start => exact ⟨hs, (Nat.zero_add _).le⟩
    | step a _ hnext ih =>
        obtain ⟨hinv, hless⟩ := hstep a _ _ ih.1 hnext
        exact ⟨hinv, by have hsum := ih.2; omega⟩
  exact (Nat.le_add_right n _).trans hall.2

/-! ## Schedules -/

/-- The state that the schedule ends in, if each of its steps can be taken. -/
def replay (S : System σ α) : σ → List α → Option σ
  | s, [] => some s
  | s, a :: as =>
      match S.step a s with
      | .next t => replay S t as
      | .blocked => none
      | .undefined => none

theorem Reach.replay (hs : S.Reach s) (as : List α) (h : S.replay s as = some t) : S.Reach t := by
  induction as generalizing s with
  | nil =>
      cases h
      exact hs
  | cons a as ih =>
      rw [System.replay] at h
      cases hstep : S.step a s with
      | blocked =>
          rw [hstep] at h
          cases h
      | undefined =>
          rw [hstep] at h
          cases h
      | next u =>
          rw [hstep] at h
          exact ih (hs.step a hstep) h

/-- The property holds in each state that the schedule passes. -/
def EveryState (S : System σ α) (Q : σ → Prop) : σ → List α → Prop
  | s, [] => Q s
  | s, a :: as => Q s ∧
      match S.step a s with
      | .next t => EveryState S Q t as
      | .blocked => True
      | .undefined => True

/-- The property holds of each step that the schedule takes. -/
def EveryStep (S : System σ α) (P : α → σ → Prop) : σ → List α → Prop
  | _, [] => True
  | s, a :: as =>
      match S.step a s with
      | .next t => P a s ∧ EveryStep S P t as
      | .blocked => True
      | .undefined => True

theorem EveryState.head {Q : σ → Prop} {as : List α} (h : S.EveryState Q s as) : Q s := by
  cases as with
  | nil => exact h
  | cons a as => exact h.1

/-- No step of the schedule is undefined. -/
def Defined (S : System σ α) : σ → List α → Prop
  | _, [] => True
  | s, a :: as =>
      match S.step a s with
      | .next t => Defined S t as
      | .blocked => True
      | .undefined => False

/-- Steps that are defined wherever an invariant holds, along a schedule that keeps it. -/
theorem EveryStep.defined {P : α → σ → Prop} {as : List α} (h : S.EveryStep P s as)
    (Inv : σ → Prop) (hs : Inv s)
    (hkeeps : ∀ a s t, Inv s → S.step a s = .next t → P a s → Inv t)
    (hdefined : ∀ a s, Inv s → S.step a s ≠ .undefined) : S.Defined s as := by
  induction as generalizing s with
  | nil => trivial
  | cons a as ih =>
      rw [EveryStep] at h
      rw [Defined]
      cases hstep : S.step a s with
      | blocked => trivial
      | undefined => exact hdefined a s hs hstep
      | next t =>
          rw [hstep] at h
          exact ih h.2 (hkeeps a s t hs hstep h.1)

/-- If steps of one kind keep an invariant, and every other step breaks the property that it
implies, then the property holds all along just those schedules whose steps are of that kind. -/
theorem everyState_iff_everyStep {Inv Q : σ → Prop} {P : α → σ → Prop} (hQ : ∀ s, Inv s → Q s)
    (hkeeps : ∀ a s t, Inv s → S.step a s = .next t → P a s → Inv t)
    (hbreaks : ∀ a s t, Inv s → S.step a s = .next t → ¬ P a s → ¬ Q t) (hs : Inv s)
    (as : List α) : S.EveryState Q s as ↔ S.EveryStep P s as := by
  induction as generalizing s with
  | nil => exact iff_of_true (hQ s hs) trivial
  | cons a as ih =>
      rw [EveryState, EveryStep, and_iff_right (hQ s hs)]
      cases hstep : S.step a s with
      | blocked => exact Iff.rfl
      | undefined => exact Iff.rfl
      | next t =>
          dsimp only
          constructor
          · intro hall
            have hkind : P a s := by
              by_contra hother
              exact hbreaks a s t hs hstep hother hall.head
            exact ⟨hkind, (ih (hkeeps a s t hs hstep hkind)).1 hall⟩
          · intro hall
            exact (ih (hkeeps a s t hs hstep hall.1)).2 hall.2

end System

end Experimentation.Semantics
