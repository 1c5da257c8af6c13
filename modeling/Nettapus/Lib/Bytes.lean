import Mathlib.Algebra.GroupWithZero.Nat
import Mathlib.Logic.Function.Basic
import Mathlib.Order.Nat
import Mathlib.Tactic.Common

/-!
# Byte-addressed memory

A memory is a function from addresses to bytes. `load m a n` is the little-endian
value of the `n` bytes at `a`; `store m a v n` writes the low `n` bytes of `v`
there. The two laws that every proof about records in memory uses are

* `load_store`: what was stored is read back, modulo `256 ^ n`;
* `load_store_of_disjoint`: a store elsewhere does not change what is read.

`copyUp`, `copyDown` and `fill` are the byte loops of a forward copy, of a backward copy
and of a fill, in the order in which the loops write. `moved` is what a copy should
leave; a loop leaves it when it does not run into its own source.
-/

namespace Bytes

/-- A memory: one byte at every address. -/
abbrev Mem := ℕ → UInt8

/-- The little-endian value of the `n` bytes at `a`. -/
def load (m : Mem) (a : ℕ) : ℕ → ℕ
  | 0 => 0
  | n + 1 => (m a).toNat + 256 * load m (a + 1) n

/-- The memory after writing the low `n` bytes of `v` at `a`. -/
def store (m : Mem) (a v : ℕ) : ℕ → Mem
  | 0 => m
  | n + 1 => store (Function.update m a (UInt8.ofNat v)) (a + 1) (v / 256) n

/-- The `n` bytes at `a`. -/
def bytes (m : Mem) (a n : ℕ) : List UInt8 := (List.range n).map fun i => m (a + i)

/-- `for (i = 0; i < n; i++) dst[i] = src[i]`. -/
def copyUp (m : Mem) (dst src : ℕ) : ℕ → Mem
  | 0 => m
  | n + 1 => Function.update (copyUp m dst src n) (dst + n) (copyUp m dst src n (src + n))

/-- `for (i = n; i > 0; i--) dst[i - 1] = src[i - 1]`. -/
def copyDown (m : Mem) (dst src : ℕ) : ℕ → Mem
  | 0 => m
  | n + 1 => copyDown (Function.update m (dst + n) (m (src + n))) dst src n

/-- The bytes at `src`, as they were, are at `dst`. -/
def moved (m : Mem) (dst src n : ℕ) : Mem := fun x => if dst ≤ x ∧ x < dst + n then m (src + (x - dst)) else m x

/-- `for (i = 0; i < n; i++) dst[i] = v`. -/
def fill (m : Mem) (dst : ℕ) (v : UInt8) : ℕ → Mem
  | 0 => m
  | n + 1 => Function.update (fill m dst v n) (dst + n) v

variable {m m' : Mem}

/-! ## Loads and stores -/

/-- A load depends only on the bytes it reads. -/
theorem load_congr {n : ℕ} : ∀ {a : ℕ}, (∀ x, a ≤ x → x < a + n → m x = m' x) →
    load m a n = load m' a n := by
  induction n with
  | zero => intro a _; rfl
  | succ n ih =>
    intro a h
    simp only [load]
    rw [h a le_rfl (by omega), ih fun x h1 h2 => h x (by omega) (by omega)]

theorem load_lt (m : Mem) : ∀ n a, load m a n < 256 ^ n := by
  intro n
  induction n with
  | zero => intro a; simp [load]
  | succ n ih =>
    intro a
    have h1 := ih (a + 1)
    have h2 := (m a).toNat_lt
    rw [load, Nat.pow_succ']
    omega

/-- A store changes no byte outside its range. -/
theorem store_apply_of_disjoint {n : ℕ} : ∀ {m : Mem} {a v x : ℕ}, x < a ∨ a + n ≤ x →
    store m a v n x = m x := by
  induction n with
  | zero => intro m a v x _; rfl
  | succ n ih =>
    intro m a v x h
    rw [store, ih (by omega), Function.update_of_ne (by omega)]

/-- **What was stored is read back.** -/
theorem load_store {n : ℕ} : ∀ {m : Mem} {a v : ℕ}, load (store m a v n) a n = v % 256 ^ n := by
  induction n with
  | zero => intro m a v; simp [load, Nat.mod_one]
  | succ n ih =>
    intro m a v
    have h0 : store m a v (n + 1) a = UInt8.ofNat v := by
      rw [store, store_apply_of_disjoint (by omega), Function.update_self]
    rw [load, h0, store, ih, Nat.pow_succ', Nat.mod_mul]
    simp

/-- **A store elsewhere does not change what is read.** -/
theorem load_store_of_disjoint {a b v n k : ℕ} (h : b + k ≤ a ∨ a + n ≤ b) :
    load (store m a v n) b k = load m b k :=
  load_congr fun _ h1 h2 => store_apply_of_disjoint (by omega)

/-! ## Fills and forward copies -/

/-- What a fill leaves at each address. -/
theorem fill_apply (m : Mem) (dst : ℕ) (v : UInt8) (n x : ℕ) :
    fill m dst v n x = if dst ≤ x ∧ x < dst + n then v else m x := by
  induction n with
  | zero => simp only [fill]; rw [if_neg (by omega)]
  | succ n ih =>
    rw [fill, Function.update_apply]
    by_cases h : x = dst + n
    · rw [if_pos h, if_pos (by omega)]
    · rw [if_neg h, ih]
      split_ifs with h1 h2 h2
      · rfl
      · omega
      · omega
      · rfl

/-- A forward copy changes no byte outside its destination. -/
theorem copyUp_of_outside {dst src n x : ℕ} (h : x < dst ∨ dst + n ≤ x) :
    copyUp m dst src n x = m x := by
  induction n with
  | zero => rfl
  | succ n ih => rw [copyUp, Function.update_of_ne (by omega), ih (by omega)]

/-- **A forward copy is right when the destination is not inside the source**: either
it starts no later than the source, or the two ranges do not meet. -/
theorem copyUp_apply {dst src n : ℕ} (h : dst ≤ src ∨ src + n ≤ dst) :
    ∀ i, i < n → copyUp m dst src n (dst + i) = m (src + i) := by
  induction n with
  | zero => intro i hi; omega
  | succ n ih =>
    intro i hi
    rw [copyUp]
    rcases Nat.lt_or_ge i n with hin | hin
    · rw [Function.update_of_ne (by omega), ih (by omega) i hin]
    · -- the last byte: its source has not been overwritten by the bytes before it
      obtain rfl : i = n := by omega
      rw [Function.update_self, copyUp_of_outside (by omega)]

/-! ## Copies between ranges that may overlap -/

theorem moved_apply {dst src n i : ℕ} (hi : i < n) : moved m dst src n (dst + i) = m (src + i) := by
  simp [moved, hi]

theorem moved_of_outside {dst src n x : ℕ} (h : x < dst ∨ dst + n ≤ x) : moved m dst src n x = m x := by
  unfold moved
  rw [if_neg (by omega)]

/-- **A forward copy** from above, or from a range that does not meet the destination. -/
theorem copyUp_eq_moved {dst src n : ℕ} (h : dst ≤ src ∨ src + n ≤ dst) : copyUp m dst src n = moved m dst src n := by
  funext x
  by_cases hx : dst ≤ x ∧ x < dst + n
  · obtain ⟨i, rfl⟩ := Nat.exists_eq_add_of_le hx.1
    have hi : i < n := by omega
    rw [copyUp_apply h i hi, moved_apply hi]
  · rw [copyUp_of_outside (by omega), moved_of_outside (by omega)]

/-- **A backward copy** from below, or from a range that does not meet the destination. -/
theorem copyDown_eq_moved {dst src n : ℕ} (h : src ≤ dst ∨ dst + n ≤ src) :
    copyDown m dst src n = moved m dst src n := by
  induction n generalizing m with
  | zero =>
    funext x
    rw [moved_of_outside (by omega)]
    simp [copyDown]
  | succ n ih =>
    rw [copyDown, ih (by omega)]
    funext x
    unfold moved
    by_cases hlast : x = dst + n
    · -- the byte that is written first, and not again
      subst hlast
      rw [if_neg (by omega), if_pos (by omega), Function.update_self]
      simp
    · by_cases hx : dst ≤ x ∧ x < dst + n
      · -- the source of a byte that is written later is still as it was
        rw [if_pos hx, if_pos (by omega), Function.update_of_ne (by omega)]
      · rw [if_neg hx, if_neg (by omega), Function.update_of_ne hlast]

/-! ## Byte lists -/

theorem bytes_congr {a b n : ℕ} (h : ∀ i, i < n → m (a + i) = m' (b + i)) :
    bytes m a n = bytes m' b n := by
  unfold bytes
  apply List.map_congr_left
  intro i hi
  exact h i (List.mem_range.1 hi)

/-- A range of bytes splits anywhere. -/
theorem bytes_add (m : Mem) (a k n : ℕ) : bytes m a (k + n) = bytes m a k ++ bytes m (a + k) n := by
  unfold bytes
  rw [List.range_add, List.map_append, List.map_map]
  congr 1
  apply List.map_congr_left
  intro i _
  simp [Nat.add_assoc]

end Bytes
