import Mathlib.Tactic.Common

/-!
# Locks

A lock is held by nobody or by one thread.  To acquire it waits until nobody holds it; to release it
is for the thread that holds it.  A mutex remembers who that is, a semaphore with one permit does
not, and is released by whoever posts it.
-/

namespace Experimentation.Semantics

/-- A lock of the threads in `ι`, the values of which are in `L`. -/
structure Lock (ι L : Type) where
  /-- Nobody holds it. -/
  idle : L
  /-- A thread holds it. -/
  heldBy : ι → L
  /-- The value after a thread has acquired it, unless the thread has to wait. -/
  acquire : ι → L → Option L
  /-- The value after a thread has released it, unless the thread may not do so. -/
  release : ι → L → Option L
  acquire_idle : ∀ i, acquire i idle = some (heldBy i)
  acquire_heldBy : ∀ i j, acquire i (heldBy j) = none
  release_heldBy : ∀ i, release i (heldBy i) = some idle

variable {ι : Type}

/-- A mutex, with the thread that owns it. -/
def mutex (ι : Type) [DecidableEq ι] : Lock ι (Option ι) where
  idle := none
  heldBy := some
  acquire i owner := if owner = none then some (some i) else none
  release i owner := if owner = some i then some none else none
  acquire_idle _ := rfl
  acquire_heldBy _ _ := rfl
  release_heldBy _ := if_pos rfl

/-- A semaphore with one permit, with its value. -/
def semaphore (ι : Type) : Lock ι ℕ where
  idle := 1
  heldBy _ := 0
  acquire _ value := if 0 < value then some (value - 1) else none
  release _ value := some (value + 1)
  acquire_idle _ := rfl
  acquire_heldBy _ _ := rfl
  release_heldBy _ := rfl

/-! ## Who holds a lock -/

variable {L : Type} {lock : Lock ι L} {value : L} {holds : ι → Prop}

/-- The value of a lock says which of the threads is in its critical section, if any. -/
inductive Lock.Guards (lock : Lock ι L) : L → (ι → Prop) → Prop
  | idle {holds : ι → Prop} (hnone : ∀ i, ¬ holds i) : lock.Guards lock.idle holds
  | held {holds : ι → Prop} (i : ι) (honly : ∀ j, holds j ↔ j = i) :
      lock.Guards (lock.heldBy i) holds

namespace Lock.Guards

theorem unique (h : lock.Guards value holds) {i j : ι} (hi : holds i) (hj : holds j) : i = j := by
  cases h with
  | idle hnone => exact absurd hi (hnone i)
  | held k honly => exact ((honly i).1 hi).trans ((honly j).1 hj).symm

/-- A thread that holds the lock can release it. -/
theorem release (h : lock.Guards value holds) {i : ι} (hi : holds i) {holds' : ι → Prop}
    (hself : ¬ holds' i) (hother : ∀ j, j ≠ i → (holds' j ↔ holds j)) :
    lock.release i value = some lock.idle ∧ lock.Guards lock.idle holds' := by
  cases h with
  | idle hnone => exact absurd hi (hnone i)
  | held k honly =>
      obtain rfl := (honly i).1 hi
      refine ⟨lock.release_heldBy i, .idle fun j hj ↦ ?_⟩
      by_cases hji : j = i
      · exact hself (hji ▸ hj)
      · exact hji ((honly j).1 ((hother j hji).1 hj))

theorem acquire (h : lock.Guards value holds) {i : ι} {value' : L}
    (hacquire : lock.acquire i value = some value') {holds' : ι → Prop} (hself : holds' i)
    (hother : ∀ j, j ≠ i → (holds' j ↔ holds j)) : lock.Guards value' holds' := by
  cases h with
  | idle hnone =>
      rw [lock.acquire_idle, Option.some.injEq] at hacquire
      rw [← hacquire]
      refine .held i fun j ↦ ⟨fun hj ↦ ?_, fun hj ↦ hj ▸ hself⟩
      by_contra hji
      exact hnone j ((hother j hji).1 hj)
  | held k honly =>
      rw [lock.acquire_heldBy] at hacquire
      cases hacquire

theorem exists_acquire (h : lock.Guards value holds) (hnone : ∀ i, ¬ holds i) (i : ι) :
    ∃ value', lock.acquire i value = some value' := by
  cases h with
  | idle _ => exact ⟨_, lock.acquire_idle i⟩
  | held k honly => exact absurd ((honly k).2 rfl) (hnone k)

/-- The same threads hold it. -/
theorem congr (h : lock.Guards value holds) {holds' : ι → Prop} (hsame : ∀ i, holds' i ↔ holds i) :
    lock.Guards value holds' := by
  have heq : holds' = holds := funext fun i ↦ propext (hsame i)
  rw [heq]
  exact h

end Lock.Guards

end Experimentation.Semantics
