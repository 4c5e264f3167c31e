import Mathlib.Algebra.Group.Nat.Defs
import TypeCodex.Nibble

/-!
# Hexadecimal digits

The digits of a number are its remainders by sixteen, and their number is the least one
that holds it.

## Main statements

* `Nibble.digits_succ` — the leading digit by division.
* `Nibble.digitCount_le_iff` — how many digits a number needs.
-/

namespace TypeCodex.Nibble

theorem digits_succ (k v : Nat) :
    digits (k + 1) v = UInt8.ofNat (v / 16 ^ k % 16) :: digits k v := by
  have h16 : 16 ^ k = 2 ^ (4 * k) := by rw [Nat.pow_mul]
  rw [digits, Nat.shiftRight_eq_div_pow, h16]

/-- The digit count is the least number of digits that holds a value. -/
theorem digitCount_le_iff (v k : Nat) : digitCount v ≤ k ↔ v < 16 ^ k := by
  have h16 : 16 ^ k = 2 ^ (4 * k) := by rw [Nat.pow_mul]
  unfold digitCount
  split
  · next h => exact iff_of_true (Nat.zero_le k) (h ▸ Nat.pow_pos (by decide))
  · next h =>
    rw [h16, ← Nat.log2_lt h]
    omega

/-- A word has at most eight digits. -/
theorem digitCount_le_eight (v : UInt32) : digitCount v.toNat ≤ 8 :=
  (digitCount_le_iff _ _).2 v.toNat_lt

end TypeCodex.Nibble
