import Mathlib.Data.Nat.Digits.Defs
import Mathlib.Tactic.Ring

/-!
# Integers in memory

A little-endian machine stores an unsigned integer as bytes, the least significant one first.  A
part of these bytes is the representation of a digit of the integer to the base of the part's
length, which is what a program reads that accesses an integer through a pointer to a shorter type.
Signed integers are in two's complement.
-/

namespace Experimentation.Semantics.LittleEndian

/-- The `w` bytes of `n`, whatever does not fit in them cut off. -/
def encode : (w n : ℕ) → List UInt8
  | 0, _ => []
  | w + 1, n => UInt8.ofNat n :: encode w (n / 256)

/-- The unsigned integer that some bytes represent. -/
def decode (bytes : List UInt8) : ℕ := Nat.ofDigits 256 (bytes.map UInt8.toNat)

/-- The signed integer that some bytes represent. -/
def decodeSigned (bytes : List UInt8) : ℤ := (decode bytes : ℤ).bmod (256 ^ bytes.length)

@[simp]
theorem encode_length (w n : ℕ) : (encode w n).length = w := by
  induction w generalizing n with
  | zero => rfl
  | succ w ih => rw [encode, List.length_cons, ih]

theorem decode_encode (w n : ℕ) : decode (encode w n) = n % 256 ^ w := by
  induction w generalizing n with
  | zero =>
      rw [pow_zero, Nat.mod_one]
      rfl
  | succ w ih =>
      have hrest : Nat.ofDigits 256 ((encode w (n / 256)).map UInt8.toNat) = n / 256 % 256 ^ w :=
        ih (n / 256)
      calc
        decode (encode (w + 1) n) = (UInt8.ofNat n).toNat + 256 * (n / 256 % 256 ^ w) := by
          rw [decode, encode, List.map_cons, Nat.ofDigits_cons, hrest]
        _ = n % 256 + 256 * (n / 256 % 256 ^ w) := by rw [UInt8.toNat_ofNat']
        _ = n % 256 ^ (w + 1) := by rw [pow_succ', Nat.mod_mul]

theorem take_encode (w k n : ℕ) : (encode (w + k) n).take w = encode w n := by
  induction w generalizing n with
  | zero => rfl
  | succ w ih => rw [Nat.add_right_comm, encode, List.take_succ_cons, ih, encode]

theorem drop_encode (w k n : ℕ) : (encode (w + k) n).drop w = encode k (n / 256 ^ w) := by
  induction w generalizing n with
  | zero => rw [Nat.zero_add, pow_zero, Nat.div_one, List.drop_zero]
  | succ w ih =>
      rw [Nat.add_right_comm, encode, List.drop_succ_cons, ih, Nat.div_div_eq_div_mul, ← pow_succ']

theorem decodeSigned_encode (w n : ℕ) :
    decodeSigned (encode w n) = (n : ℤ).bmod (256 ^ w) := by
  rw [decodeSigned, encode_length, decode_encode, Int.natCast_mod]
  exact Int.emod_bmod _ _

end Experimentation.Semantics.LittleEndian
