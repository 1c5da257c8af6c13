import Mathlib.Algebra.GroupWithZero.Nat
import Mathlib.Data.Finset.Card
import Mathlib.Data.Int.Cast.Basic
import Mathlib.Order.Interval.Finset.Nat
import Mathlib.Tactic.Common

/-!
# The least number that is not in use

`IsFresh used n`: the numbers below `n` are all in the list `used`, and `n` is not. There is one such
number (`exists_isFresh`, `IsFresh.unique`), and as the numbers below it are all different, it is at most the
length of the list (`IsFresh.le_length`).
-/

namespace Fresh

variable {used : List ℤ} {m n : ℕ}

/-- The least number from zero on that is not in use. -/
structure IsFresh (used : List ℤ) (n : ℕ) : Prop where
  notMem : (n : ℤ) ∉ used
  mem : ∀ j < n, (j : ℤ) ∈ used

theorem IsFresh.unique (hm : IsFresh used m) (hn : IsFresh used n) : m = n := by
  rcases Nat.lt_trichotomy m n with h | h | h
  · exact absurd (hn.mem m h) hm.notMem
  · exact h
  · exact absurd (hm.mem n h) hn.notMem

/-- Numbers that are all in use are no more than the list has entries. -/
theorem le_length_of_mem (h : ∀ j < n, (j : ℤ) ∈ used) : n ≤ used.length := by
  have hsub : (Finset.range n).image (fun j : ℕ => (j : ℤ)) ⊆ used.toFinset := by
    intro x hx
    obtain ⟨j, hj, rfl⟩ := Finset.mem_image.1 hx
    exact List.mem_toFinset.2 (h j (Finset.mem_range.1 hj))
  have hcard : ((Finset.range n).image (fun j : ℕ => (j : ℤ))).card = n := by
    rw [Finset.card_image_of_injective _ fun _ _ h => Int.ofNat_inj.1 h, Finset.card_range]
  calc n = _ := hcard.symm
    _ ≤ used.toFinset.card := Finset.card_le_card hsub
    _ ≤ used.length := used.toFinset_card_le

theorem IsFresh.le_length (h : IsFresh used n) : n ≤ used.length := le_length_of_mem h.mem

theorem exists_isFresh (used : List ℤ) : ∃ n, IsFresh used n := by
  have hex : ∃ n : ℕ, (n : ℤ) ∉ used := by
    by_contra h
    push Not at h
    exact absurd (le_length_of_mem fun j (_ : j < used.length + 1) => h j) (by omega)
  exact ⟨Nat.find hex, Nat.find_spec hex, fun j hj => not_not.1 (Nat.find_min hex hj)⟩

end Fresh
