import Mathlib.Algebra.GroupWithZero.Nat
import Mathlib.Tactic.Common

/-!
# Words, pointers and error codes

Machine words are natural numbers; `u64` is the reduction that 64-bit arithmetic
makes. Pointers are addresses, and `NULL` is `0`. The error codes are those of
`include/err.h`.
-/

namespace Nettapus

/-- Reduction to 64 bits. -/
def u64 (n : ℕ) : ℕ := n % 2 ^ 64

/-- 64-bit subtraction. -/
def sub64 (a b : ℕ) : ℕ := (a + 2 ^ 64 - b % 2 ^ 64) % 2 ^ 64

/-- The null pointer. -/
def NULL : ℕ := 0

def GENERIC_SUCCESS : ℕ := 0
def ERR_INVALID_PARAM : ℕ := 1

theorem u64_of_lt {n : ℕ} (h : n < 2 ^ 64) : u64 n = n := Nat.mod_eq_of_lt h

theorem sub64_of_le {a b : ℕ} (hb : b ≤ a) (ha : a < 2 ^ 64) : sub64 a b = a - b := by
  unfold sub64; omega

end Nettapus
