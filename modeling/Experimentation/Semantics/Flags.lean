import Mathlib.Algebra.Order.Group.Nat
import Mathlib.Data.Nat.Basic
import Mathlib.Tactic.Common

/-!
# Flag bytes

An `unsigned char` whose bits are independent flags, each named by a mask.  Setting or clearing a
flag is visible through its own mask and through no mask that shares no bit with it.
-/

namespace Experimentation.Semantics

/-- A byte of flags. -/
abbrev FlagByte := BitVec 8

namespace FlagByte

/-- `(flags & mask) != 0`. -/
def test (mask flags : FlagByte) : Bool := flags &&& mask != 0

/-- `flags |= mask`. -/
def set (mask flags : FlagByte) : FlagByte := flags ||| mask

/-- `flags &= ~mask`. -/
def clear (mask flags : FlagByte) : FlagByte := flags &&& ~~~mask

variable {mask other : FlagByte}

theorem test_set_self (h : mask ≠ 0) (flags : FlagByte) : test mask (set mask flags) = true := by
  have hand : (flags ||| mask) &&& mask = mask := by
    ext i hi
    simp only [BitVec.getElem_and, BitVec.getElem_or]
    cases flags[i] <;> cases mask[i] <;> rfl
  simpa [test, set, hand] using h

theorem test_clear_self (mask flags : FlagByte) : test mask (clear mask flags) = false := by
  have hand : (flags &&& ~~~mask) &&& mask = 0 := by
    rw [BitVec.and_assoc, BitVec.and_comm (~~~mask), BitVec.and_not_self]
    exact BitVec.and_zero
  simp [test, clear, hand]

theorem test_set_other (h : other &&& mask = 0) (flags : FlagByte) :
    test mask (set other flags) = test mask flags := by
  have hand : (flags ||| other) &&& mask = flags &&& mask := by
    rw [BitVec.and_or_distrib_right, h]
    exact BitVec.or_zero
  simp [test, set, hand]

theorem test_clear_other (h : other &&& mask = 0) (flags : FlagByte) :
    test mask (clear other flags) = test mask flags := by
  have hand : (flags &&& ~~~other) &&& mask = flags &&& mask := by
    ext i hi
    have hbit : (other &&& mask)[i] = false := by rw [h]; exact BitVec.getElem_zero hi
    simp only [BitVec.getElem_and, BitVec.getElem_not] at hbit ⊢
    cases hother : other[i] <;> simp_all
  simp [test, clear, hand]

theorem set_of_test {k : ℕ} {flags : FlagByte} (h : test (BitVec.twoPow 8 k) flags = true) :
    set (BitVec.twoPow 8 k) flags = flags := by
  have hbit : flags.getLsbD k = true := by
    by_contra hclear
    rw [test, BitVec.and_twoPow, if_neg hclear] at h
    exact absurd h (by decide)
  ext i hi
  rw [set, BitVec.getElem_or, BitVec.getElem_twoPow]
  by_cases hik : i = k
  · subst hik
    rw [← BitVec.getLsbD_eq_getElem, hbit, Bool.true_or]
  · rw [decide_eq_false hik, Bool.or_false]

end FlagByte

end Experimentation.Semantics
