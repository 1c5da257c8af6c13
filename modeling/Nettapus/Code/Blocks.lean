import Nettapus.Code.Base
import Mathlib.Data.Finset.Lattice.Fold
import Mathlib.Logic.Function.Basic
import Mathlib.Order.Lattice.Nat

/-!
# Blocks of the heap

`Allocator` stands for `kmalloc`, for code that only needs new blocks: there is memory, and a new block is at an
address that is neither `NULL` nor in use. The heap itself is in `Code/Heap.lean`.
-/

namespace Nettapus

/-- Where `kmalloc` puts a block, by the blocks that are live. -/
structure Allocator where
  place : Finset ℕ → ℕ
  fresh : ∀ live, place live ∉ live
  ne_null : ∀ live, place live ≠ NULL

/-- A heap that grows: a new block is behind all others. -/
def growing : Allocator where
  place live := live.sup id + 1
  fresh _ h := absurd (Finset.le_sup (f := id) h) (Nat.not_succ_le_self _)
  ne_null _ := Nat.succ_ne_zero _

/-- The new block, and the live blocks. -/
def Allocator.kmalloc (A : Allocator) (live : Finset ℕ) : ℕ × Finset ℕ := (A.place live, insert (A.place live) live)

/-- The live blocks after `kfree`. -/
def kfreeBlock (live : Finset ℕ) (p : ℕ) : Finset ℕ := live.erase p

/-- `kmalloc` and then `kfree`. -/
theorem kfree_kmalloc (A : Allocator) (live : Finset ℕ) : kfreeBlock (A.kmalloc live).2 (A.kmalloc live).1 = live :=
  Finset.erase_insert (A.fresh live)

end Nettapus
