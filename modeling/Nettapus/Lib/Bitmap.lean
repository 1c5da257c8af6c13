import Mathlib.Algebra.GroupWithZero.Nat
import Mathlib.Logic.Function.Basic
import Mathlib.Tactic.Common

/-!
# Packed bitmaps

A bitmap packed into 64-bit words: bit `i` is bit `i % 64` of word `i / 64`. `mark`
and `clear` are the read-modify-write of one word; `test_mark` and `test_clear` say
that they change one bit and no other.
-/

namespace Bitmap

/-- The words of a packed bitmap. -/
abbrev Words := ℕ → BitVec 64

/-- Bit `i`. -/
def test (w : Words) (i : ℕ) : Bool := (w (i / 64)).getLsbD (i % 64)

/-- Sets bit `i`: `w[i / 64] |= (uint64_t)1 << (i % 64)`. -/
def mark (w : Words) (i : ℕ) : Words :=
  Function.update w (i / 64) (w (i / 64) ||| (1#64 <<< (i % 64)))

/-- Clears bit `i`: `w[i / 64] &= 0xFFFFFFFFFFFFFFFF ^ ((uint64_t)1 << (i % 64))`. -/
def clear (w : Words) (i : ℕ) : Words :=
  Function.update w (i / 64) (w (i / 64) &&& (0xFFFFFFFFFFFFFFFF#64 ^^^ (1#64 <<< (i % 64))))

variable {w : Words} {i j : ℕ}

theorem getLsbD_one_shiftLeft {a b : ℕ} (hb : b < 64) :
    (1#64 <<< a).getLsbD b = decide (a = b) := by
  rw [BitVec.getLsbD_shiftLeft, BitVec.getLsbD_one]
  by_cases h : a = b
  · simp [h, hb]
  · have : ¬ (¬ b < a ∧ b - a = 0) := by omega
    simp only [hb, decide_true, Bool.true_and, h, decide_false]
    by_cases h2 : b < a
    · simp [h2]
    · simp [h2]; omega

theorem getLsbD_ones {b : ℕ} (hb : b < 64) : (0xFFFFFFFFFFFFFFFF#64).getLsbD b = true := by
  have h : (0xFFFFFFFFFFFFFFFF#64) = BitVec.allOnes 64 := by decide
  rw [h, BitVec.getLsbD_allOnes]
  simpa using hb

/-- **Marking sets one bit.** -/
theorem test_mark (w : Words) (i j : ℕ) : test (mark w i) j = (decide (j = i) || test w j) := by
  unfold test mark
  by_cases hw : j / 64 = i / 64
  · rw [hw, Function.update_self, BitVec.getLsbD_or, getLsbD_one_shiftLeft (by omega),
      Bool.or_comm]
    congr 1
    exact decide_eq_decide.2 (by omega)
  · rw [Function.update_of_ne hw, decide_eq_false (by rintro rfl; exact hw rfl), Bool.false_or]

/-- **Clearing clears one bit.** -/
theorem test_clear (w : Words) (i j : ℕ) : test (clear w i) j = (!decide (j = i) && test w j) := by
  unfold test clear
  by_cases hw : j / 64 = i / 64
  · rw [hw, Function.update_self, BitVec.getLsbD_and, BitVec.getLsbD_xor,
      getLsbD_ones (by omega), getLsbD_one_shiftLeft (by omega), Bool.true_xor,
      Bool.and_comm]
    congr 2
    exact decide_eq_decide.2 (by omega)
  · rw [Function.update_of_ne hw, decide_eq_false (by rintro rfl; exact hw rfl), Bool.not_false,
      Bool.true_and]

/-- Reading a bit by a shift and a mask. -/
theorem shiftRight_and_one (x : BitVec 64) (k : ℕ) :
    ((x >>> k) &&& 1#64).toNat = (x.getLsbD k).toNat := by
  rw [BitVec.toNat_and, BitVec.toNat_ushiftRight, show (1#64).toNat = 1 from rfl,
    Nat.and_one_is_mod, BitVec.getLsbD, Nat.testBit, Nat.and_comm, Nat.and_one_is_mod]
  rcases Nat.mod_two_eq_zero_or_one (x.toNat >>> k) with h | h <;> simp [h]

/-- Testing a bit by a mask. -/
theorem and_one_shiftLeft (w : Words) (i : ℕ) :
    w (i / 64) &&& (1#64 <<< (i % 64)) ≠ 0 ↔ test w i = true := by
  unfold test
  constructor
  · intro h
    by_contra hc
    refine h (BitVec.eq_of_getLsbD_eq fun j hj => ?_)
    rw [BitVec.getLsbD_and, getLsbD_one_shiftLeft hj]
    by_cases he : i % 64 = j
    · rw [← he]
      simpa using hc
    · simp [he]
  · intro h h0
    have := congrArg (fun x => x.getLsbD (i % 64)) h0
    simp [BitVec.getLsbD_and, getLsbD_one_shiftLeft (show i % 64 < 64 by omega), h] at this

end Bitmap
