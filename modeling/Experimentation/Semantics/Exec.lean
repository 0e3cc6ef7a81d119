import Mathlib.Algebra.GroupWithZero.Nat
import Mathlib.Algebra.Order.Group.Nat
import Mathlib.Data.Nat.Basic
import Mathlib.Tactic.Common

/-!
# Evaluations of C code that may leave the defined language

An evaluation either yields a value or reaches an operation to which C gives no meaning.  The
programs below never test for the second case, so a `Fault` is not an error code: it marks the
point from which nothing can be said about the run.  Sizes are unsigned 64-bit quantities kept as
natural numbers, and every operation that may wrap says so; `int` has 32 bits.
-/

namespace Experimentation.Semantics

/-- The reasons why an evaluation is undefined, and the budget of an unbounded loop running out. -/
inductive Fault
  /-- `1 << k` is not representable in `int`. -/
  | shift
  /-- An object is accessed outside the memory that was allocated for it. -/
  | outOfBounds
  /-- A null or uninitialised pointer is dereferenced. -/
  | badPointer
  /-- A loop was given fewer turns than it takes. -/
  | outOfFuel
deriving DecidableEq, Repr

/-- An evaluation of C code. -/
abbrev Exec (α : Type) := Except Fault α

namespace Exec

variable {α β : Type}

@[simp]
theorem ok_bind (a : α) (f : α → Exec β) : (Except.ok a >>= f : Exec β) = f a := rfl

@[simp]
theorem error_bind (fault : Fault) (f : α → Exec β) :
    (Except.error fault >>= f : Exec β) = .error fault := rfl

@[simp]
theorem pure_eq_ok (a : α) : (pure a : Exec α) = .ok a := rfl

theorem bind_eq_ok {x : Exec α} {f : α → Exec β} {b : β} :
    (x >>= f) = .ok b ↔ ∃ a, x = .ok a ∧ f a = .ok b := by
  cases x with
  | error fault => simp
  | ok a => simp

theorem forall_ok_eq_iff {a : α} {b : β} {P : α → β → Prop} :
    (∀ x y, (Except.ok (a, b) : Exec (α × β)) = .ok (x, y) → P x y) ↔ P a b := by
  constructor
  · exact fun h ↦ h a b rfl
  · intro h x y heq
    cases heq
    exact h

theorem forall_error_eq (fault : Fault) (P : α → β → Prop) :
    ∀ x y, (Except.error fault : Exec (α × β)) = .ok (x, y) → P x y :=
  fun _ _ heq ↦ by cases heq

end Exec

/-- The number of values of a `size_t`. -/
def sizeModulus : ℕ := 2 ^ 64

/-- The value of an unsigned 64-bit computation. -/
def wrapSize (n : ℕ) : ℕ := n % sizeModulus

/-- Unsigned 64-bit subtraction, which adds the modulus back when it borrows. -/
def subSize (a b : ℕ) : ℕ := if b ≤ a then a - b else a + sizeModulus - b

theorem wrapSize_of_lt {n : ℕ} (h : n < sizeModulus) : wrapSize n = n := Nat.mod_eq_of_lt h

theorem subSize_of_le {a b : ℕ} (h : b ≤ a) : subSize a b = a - b := if_pos h

/-- `1 << k`, evaluated in `int`. -/
def shiftOne (k : ℕ) : Exec ℕ :=
  if k < 31 then .ok (2 ^ k) else .error .shift

theorem shiftOne_of_le {k : ℕ} (h : k ≤ 30) : shiftOne k = .ok (2 ^ k) :=
  if_pos (Nat.lt_succ_of_le h)

/-! ## Loops that add up -/

section Loops

variable {α : Type}

/-- Adding up what a function that is defined everywhere on a list returns. -/
theorem Exec.foldlM_add {f : α → Exec ℕ} {g : α → ℕ} {as : List α} (h : ∀ a ∈ as, f a = .ok (g a))
    (start : ℕ) : as.foldlM (fun sum a ↦ do
      let k ← f a
      return sum + k) start = .ok (start + (as.map g).sum) := by
  induction as generalizing start with
  | nil => rfl
  | cons a as ih =>
      rw [List.foldlM_cons, h a List.mem_cons_self, List.map_cons, List.sum_cons, ← Nat.add_assoc]
      exact ih (fun a' ha' ↦ h a' (List.mem_cons_of_mem _ ha')) _

theorem Exec.foldlM_count (as : List α) (start : ℕ) :
    as.foldlM (fun count _ ↦ (return count + 1 : Exec ℕ)) start = .ok (start + as.length) := by
  induction as generalizing start with
  | nil => rfl
  | cons a as ih =>
      rw [List.foldlM_cons, List.length_cons, Nat.add_comm as.length, ← Nat.add_assoc]
      exact ih _

theorem foldl_wrapSize (as : List α) (m : ℕ) :
    as.foldl (fun total _ ↦ wrapSize (total + 1)) (wrapSize m) = wrapSize (m + as.length) := by
  induction as generalizing m with
  | nil => rfl
  | cons a as ih =>
      have hnext : wrapSize (wrapSize m + 1) = wrapSize (m + 1) := Nat.mod_add_mod _ _ _
      rw [List.foldl_cons, hnext, ih, List.length_cons, Nat.add_right_comm, Nat.add_assoc]

theorem Exec.foldlM_error {σ : Type} {f : σ → α → Exec σ} {B : α → Prop} {P : σ → Prop}
    {fault : Fault} {as : List α} (hbad : ∃ a ∈ as, B a)
    (hstop : ∀ s a, P s → a ∈ as → B a → f s a = .error fault)
    (hpass : ∀ s a, P s → a ∈ as → ¬ B a → ∃ s', f s a = .ok s' ∧ P s') {s : σ} (hs : P s) :
    as.foldlM f s = .error fault := by
  induction as generalizing s with
  | nil =>
      obtain ⟨a, ha, _⟩ := hbad
      cases ha
  | cons a as ih =>
      rw [List.foldlM_cons]
      by_cases ha : B a
      · rw [hstop s a hs List.mem_cons_self ha]
        rfl
      · obtain ⟨s', hstep, hs'⟩ := hpass s a hs List.mem_cons_self ha
        rw [hstep, Exec.ok_bind]
        apply ih
        · obtain ⟨b, hb, hb'⟩ := hbad
          rcases List.mem_cons.1 hb with rfl | hb
          · exact absurd hb' ha
          · exact ⟨b, hb, hb'⟩
        · exact fun s b hs hb ↦ hstop s b hs (List.mem_cons_of_mem a hb)
        · exact fun s b hs hb ↦ hpass s b hs (List.mem_cons_of_mem a hb)
        · exact hs'

end Loops

end Experimentation.Semantics
