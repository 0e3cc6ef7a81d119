import Experimentation.Semantics.Exec
import Mathlib.Algebra.Group.Int.Defs

/-!
# Counting allocated blocks

Evaluations that count the blocks that are allocated: `malloc` adds one if it succeeds, and `free`
takes one off.  Such an evaluation does what a plain one does and gains some blocks, a number that
may depend on what is returned.  Gains are found by going through an evaluation step by step.
-/

namespace Experimentation.Semantics

/-- Evaluations that count the blocks that are allocated. -/
abbrev Metered (α : Type) := StateT ℤ Exec α

namespace Metered

/-- `malloc`, which succeeds or not. -/
def malloc (answer : Bool) : Metered Bool := fun held ↦
  .ok (answer, if answer then held + 1 else held)

/-- `free` of a block. -/
def free : Metered Unit := fun held ↦ .ok ((), held - 1)

/-- `free` of a pointer that may be `NULL`. -/
def freePtr {α : Type} (p : Option α) : Metered Unit := fun held ↦
  .ok ((), held - p.toList.length)

end Metered

variable {α β : Type}

/-- The evaluation does what the plain one does, and gains as many blocks as are given. -/
def Gains (f : Metered α) (g : Exec α) (gain : α → ℤ) : Prop :=
  ∀ held, f held = g >>= fun a ↦ .ok (a, held + gain a)

namespace Gains

variable {f : Metered α} {g : Exec α} {gain : α → ℤ}

theorem congr (h : Gains f g gain) {gain' : α → ℤ} (heq : ∀ a, g = .ok a → gain a = gain' a) :
    Gains f g gain' := by
  intro held
  rw [h held]
  cases g with
  | error fault => rfl
  | ok a => rw [Exec.ok_bind, Exec.ok_bind, heq a rfl]

/-- What is returned at once gains nothing. -/
theorem pure {a : α} (h : gain a = 0) : Gains (Pure.pure a) (.ok a) gain := by
  intro held
  rw [Exec.ok_bind, h, Int.add_zero]
  rfl

theorem lift (g : Exec α) : Gains (liftM g) g fun _ ↦ 0 := by
  intro held
  simp only [Int.add_zero]
  rfl

/-- One step after the other. -/
theorem bind {F : α → Metered β} {G : α → Exec β} {total : β → ℤ} (h : Gains f g gain)
    (hrest : ∀ a, g = .ok a → Gains (F a) (G a) fun b ↦ total b - gain a) :
    Gains (f >>= F) (g >>= G) total := by
  intro held
  change (f held >>= fun r ↦ F r.1 r.2) = _
  rw [h held]
  cases g with
  | error fault => rfl
  | ok a =>
      rw [Exec.ok_bind, Exec.ok_bind, Exec.ok_bind, hrest a rfl]
      apply congrArg (G a >>= ·)
      funext b
      simp only [add_add_sub_cancel]

theorem lift_bind {G : α → Exec β} {F : α → Metered β} {total : β → ℤ}
    (hrest : ∀ a, g = .ok a → Gains (F a) (G a) total) :
    Gains (liftM g >>= F) (g >>= G) total :=
  (lift g).bind fun a ha ↦ by simpa using hrest a ha

theorem malloc_bind {answer : Bool} {F : Bool → Metered α}
    (h : Gains (F answer) g fun a ↦ gain a - if answer then 1 else 0) :
    Gains (Metered.malloc answer >>= F) g gain := by
  intro held
  change F answer (if answer then held + 1 else held) = _
  rw [h]
  apply congrArg (g >>= ·)
  funext a
  split
  · simp only [add_add_sub_cancel]
  · simp only [Int.sub_zero]

theorem free_bind {F : Unit → Metered α} (h : Gains (F ()) g fun a ↦ gain a + 1) :
    Gains (Metered.free >>= F) g gain := by
  intro held
  change F () (held - 1) = _
  rw [h]
  apply congrArg (g >>= ·)
  funext a
  simp only [sub_add_add_cancel]

theorem freePtr_bind {γ : Type} {p : Option γ} {F : Unit → Metered α}
    (h : Gains (F ()) g fun a ↦ gain a + p.toList.length) :
    Gains (Metered.freePtr p >>= F) g gain := by
  intro held
  change F () (held - p.toList.length) = _
  rw [h]
  apply congrArg (g >>= ·)
  funext a
  simp only [sub_add_add_cancel]

/-- Steps that each gain what a size grows by. -/
theorem foldlM {σ ι : Type} {body : σ → ι → Metered σ} {plain : σ → ι → Exec σ} (size : σ → ℤ)
    (h : ∀ s i, Gains (body s i) (plain s i) fun s' ↦ size s' - size s) (is : List ι) (s : σ) :
    Gains (is.foldlM body s) (is.foldlM plain s) fun s' ↦ size s' - size s := by
  induction is generalizing s with
  | nil => exact pure (Int.sub_self _)
  | cons i is ih =>
      rw [List.foldlM_cons, List.foldlM_cons]
      apply (h s i).bind
      intro s₁ _
      apply (ih s₁).congr
      intro s' _
      rw [sub_sub_sub_cancel_right]

theorem held_eq (h : Gains f g gain) {held held' : ℤ} {a : α} (hrun : f held = .ok (a, held')) :
    g = .ok a ∧ held' = held + gain a := by
  rw [h held] at hrun
  obtain ⟨a', ha', heq⟩ := Exec.bind_eq_ok.1 hrun
  cases heq
  exact ⟨ha', rfl⟩

theorem run_eq (h : Gains f g gain) {a : α} (hrun : g = .ok a) (held : ℤ) :
    f held = .ok (a, held + gain a) := by
  rw [h held, hrun]
  rfl

end Gains

end Experimentation.Semantics
