import Mathlib.Algebra.GroupWithZero.Nat
import Mathlib.Tactic.Common
import Mathlib.Data.Nat.Bitwise

/-!
# Words put together by shifts

Parts that are joined by `|` and `<<` are the digits of a number as long as each fits below the
next (`or_shiftLeft`). A part that is a negative `int` is not one of them: made into 64 bits it
has ones above (`extend`), and these cover what is joined there (`extend_or`).
-/

namespace Words

/-- The 64-bit word that an `int` of these 32 bits is converted to. -/
def extend (x : ℕ) : ℕ := if x < 2 ^ 31 then x else x + (2 ^ 64 - 2 ^ 32)

variable {a b k n : ℕ}

/-- **Joined parts are digits.** -/
theorem or_shiftLeft (ha : a < 2 ^ k) : a ||| b <<< k = a + b * 2 ^ k := by
  rw [Nat.or_comm, ← Nat.shiftLeft_add_eq_or_of_lt ha, Nat.shiftLeft_eq, Nat.add_comm]

/-- Four bytes. -/
theorem or_bytes {c d : ℕ} (ha : a < 2 ^ 8) (hb : b < 2 ^ 8) (hc : c < 2 ^ 8) :
    a ||| b <<< 8 ||| c <<< 16 ||| d <<< 24 = a + b * 2 ^ 8 + c * 2 ^ 16 + d * 2 ^ 24 := by
  have htwo : a ||| b <<< 8 = a + b * 2 ^ 8 := or_shiftLeft ha
  have hthree : a ||| b <<< 8 ||| c <<< 16 = a + b * 2 ^ 8 + c * 2 ^ 16 := by
    rw [htwo]
    exact or_shiftLeft (by omega)
  rw [hthree]
  exact or_shiftLeft (by omega)

/-- Nothing shows through ones. -/
theorem ones_or (hb : b < 2 ^ n) : (2 ^ n - 1) ||| b = 2 ^ n - 1 := by
  apply Nat.eq_of_testBit_eq
  intro i
  rw [Nat.testBit_or, Nat.testBit_two_pow_sub_one]
  by_cases hi : i < n
  · rw [decide_eq_true hi, Bool.true_or]
  · rw [decide_eq_false hi, Bool.false_or,
      Nat.testBit_eq_false_of_lt (hb.trans_le (Nat.pow_le_pow_right (by decide) (by omega)))]

theorem extend_of_lt (h : a < 2 ^ 31) : extend a = a := if_pos h

theorem extend_of_ge (h : 2 ^ 31 ≤ a) : extend a = a + (2 ^ 32 - 1) * 2 ^ 32 := if_neg (by omega)

/-- **An `int` in the low half**: it is the low digit, or it hides the high one. -/
theorem extend_or (ha : a < 2 ^ 32) (hb : b < 2 ^ 32) :
    extend a ||| b <<< 32 = a + (if a < 2 ^ 31 then b else 2 ^ 32 - 1) * 2 ^ 32 := by
  by_cases h : a < 2 ^ 31
  · rw [extend_of_lt h, if_pos h, or_shiftLeft ha]
  · rw [extend_of_ge (by omega), if_neg h, ← or_shiftLeft ha, Nat.or_assoc, ← Nat.shiftLeft_or_distrib,
      ones_or hb]

/-- Only a negative `int` changes. -/
theorem extend_eq_self : extend a = a ↔ a < 2 ^ 31 := by
  unfold extend
  split_ifs with h
  · exact iff_of_true rfl h
  · exact iff_of_false (by omega) h

end Words
