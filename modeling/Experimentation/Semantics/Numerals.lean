import Mathlib.Data.Nat.Digits.Lemmas
import Experimentation.Semantics.Lines

/-!
# Numerals

The conversions of `printf` for unsigned integers, to the base ten and to the base sixteen, with the
padding that a minimal width asks for, and reading them back.
-/

namespace Experimentation.Semantics

/-- The character of a digit. -/
def digit (caps : Bool) (d : ℕ) : UInt8 :=
  if d < 10 then UInt8.ofNat (48 + d) else UInt8.ofNat ((if caps then 55 else 87) + d)

/-- The digit of a character. -/
def digitValue (c : UInt8) : Option ℕ :=
  if 48 ≤ c ∧ c ≤ 57 then some (c.toNat - 48)
  else if 65 ≤ c ∧ c ≤ 70 then some (c.toNat - 55)
  else if 97 ≤ c ∧ c ≤ 102 then some (c.toNat - 87)
  else none

theorem digitValue_digit (caps : Bool) {d : ℕ} (hd : d < 16) :
    digitValue (digit caps d) = some d := by
  have hall : ∀ caps, ∀ d < 16, digitValue (digit caps d) = some d := by decide
  exact hall caps d hd

/-- The numeral of an unsigned integer. -/
def numeral (caps : Bool) (base n : ℕ) : Text :=
  (if n = 0 then [0] else Nat.digits base n).reverse.map (digit caps)

/-- The integer of a numeral. -/
def readNumeral (base : ℕ) (t : Text) : Option ℕ :=
  (t.mapM digitValue).map fun ds ↦ Nat.ofDigits base ds.reverse

/-- A text that is filled up on its left to a minimal width. -/
def padLeft (c : UInt8) (width : ℕ) (t : Text) : Text := List.replicate (width - t.length) c ++ t

theorem length_padLeft {c : UInt8} {width : ℕ} {t : Text} (h : t.length ≤ width) :
    (padLeft c width t).length = width := by
  rw [padLeft, List.length_append, List.length_replicate, Nat.sub_add_cancel h]

section Numerals

variable {caps : Bool} {base n : ℕ}

theorem lt_of_mem_digits (hbase : 1 < base) {d : ℕ}
    (hd : d ∈ if n = 0 then [0] else Nat.digits base n) : d < base := by
  split_ifs at hd with hzero
  · rw [List.mem_singleton.1 hd]
    exact Nat.zero_lt_of_lt hbase
  · exact Nat.digits_lt_base hbase hd

theorem ofDigits_digits_of_zero : Nat.ofDigits base (if n = 0 then [0] else Nat.digits base n) = n := by
  split_ifs with hzero
  · rw [hzero]
    simp
  · exact Nat.ofDigits_digits base n

/-- A numeral has at most as many digits as the width says if the integer is small enough. -/
theorem length_numeral_le_iff (hbase : 1 < base) {width : ℕ} (hwidth : 0 < width) :
    (numeral caps base n).length ≤ width ↔ n < base ^ width := by
  rw [numeral, List.length_map, List.length_reverse]
  split_ifs with hzero
  · rw [hzero]
    exact iff_of_true hwidth (Nat.pow_pos (Nat.zero_lt_of_lt hbase))
  · exact Nat.digits_length_le_iff hbase n

theorem numeral_ne_nil : numeral caps base n ≠ [] := by
  rw [numeral, ne_eq, List.map_eq_nil_iff, List.reverse_eq_nil_iff]
  split_ifs with hzero
  · exact not_false
  · exact Nat.digits_ne_nil_iff_ne_zero.2 hzero

/-- Every character of a numeral is a digit, also if it has been filled up with zeros. -/
theorem digitValue_ne_none (hbase : 1 < base) (hle : base ≤ 16) {width : ℕ} {c : UInt8}
    (hc : c ∈ padLeft (digit caps 0) width (numeral caps base n)) : digitValue c ≠ none := by
  have hdigit : ∀ d < 16, digitValue (digit caps d) ≠ none := fun d hd ↦ by
    simp [digitValue_digit caps hd]
  rcases List.mem_append.1 hc with hpad | hnum
  · rw [List.eq_of_mem_replicate hpad]
    exact hdigit 0 (by decide)
  · obtain ⟨d, hd, rfl⟩ := List.mem_map.1 hnum
    exact hdigit d ((lt_of_mem_digits hbase (List.mem_reverse.1 hd)).trans_le hle)

theorem readNumeral_padLeft (hbase : 1 < base) (hle : base ≤ 16) (width : ℕ) :
    readNumeral base (padLeft (digit caps 0) width (numeral caps base n)) = some n := by
  let ds := if n = 0 then [0] else Nat.digits base n
  let zeros := List.replicate (width - (numeral caps base n).length) 0
  have htext : padLeft (digit caps 0) width (numeral caps base n) =
      (zeros ++ ds.reverse).map (digit caps) := by
    rw [List.map_append, List.map_replicate]
    rfl
  have hsmall : ∀ d ∈ zeros ++ ds.reverse, d < 16 := by
    intro d hd
    rcases List.mem_append.1 hd with hzero | hd
    · rw [List.eq_of_mem_replicate hzero]
      decide
    · exact (lt_of_mem_digits hbase (List.mem_reverse.1 hd)).trans_le hle
  calc
    _ = some (Nat.ofDigits base (zeros ++ ds.reverse).reverse) := by
      rw [readNumeral, htext, mapM_map_eq_some fun d hd ↦ digitValue_digit caps (hsmall d hd),
        Option.map_some]
    _ = some (Nat.ofDigits base (ds ++ zeros)) := by
      rw [List.reverse_append, List.reverse_reverse, List.reverse_replicate]
    _ = some (Nat.ofDigits base ds) := by
      rw [Nat.ofDigits_append, Nat.ofDigits_replicate_zero, mul_zero, add_zero]
    _ = some n := congrArg some ofDigits_digits_of_zero

end Numerals

end Experimentation.Semantics
