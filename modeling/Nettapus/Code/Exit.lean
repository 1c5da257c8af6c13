import Nettapus.Code.Space

/-!
# The end of a task (`task/task.c`)

The part of `terminator_task_main` that reclaims the memory of a task: its physical pages, and
the page structures of its address space. The rest of that function wakes tasks and frees
blocks of the kernel heap.
-/

namespace Nettapus.Spaces

variable (z : Spaces)

def freepp (page : ℕ) : Spaces := { z with mem := (Nettapus.freepp z.mem page).2 }

def freePageStruct (ps : ℕ) : Spaces := { z with vmm := z.vmm.freePageStruct ps }

/-- `memset(t->entries, 0, 0x1000)` and `memset(t->child, 0, 0x1000)`. -/
def clearPageStruct (t : ℕ) : Spaces :=
  { z with vmm := { z.vmm with
      tab := Function.update z.vmm.tab t ⟨fun _ => 0, fun _ => 0, (z.vmm.tab t).physicalAddress⟩ } }

/-- The body of the loop over `l`. The entry that it clears is the one at `i`, the index of the outer loop. -/
def reclaimEntry (i pt l : ℕ) : Spaces :=
  let entry := (z.vmm.tab pt).entries l
  if entry = 0 then z
  else
    let z := z.freepp (entry / 0x1000)
    { z with vmm := z.vmm.setEntry pt i 0 }

/-- The loop over `l`, and the page table itself. -/
def reclaimTable (i pt : ℕ) : Spaces :=
  ((List.range 512).foldl (fun z l => z.reclaimEntry i pt l) z).freePageStruct pt

/-- A structure whose first `n` children are reclaimed by `f`: the loop over the children, the two `memset`s and
`free_page_struct`. -/
def reclaimBelow (f : Spaces → ℕ → ℕ → Spaces) (n t : ℕ) : Spaces :=
  let z := (List.range n).foldl (fun z k =>
    let c := (z.vmm.tab t).child k
    if c = NULL then z else f z k c) z
  (z.clearPageStruct t).freePageStruct t

/-- The loop over `k`, and the page directory. -/
def reclaimDir (i pd : ℕ) : Spaces := z.reclaimBelow (fun z _ pt => z.reclaimTable i pt) 512 pd

/-- The loop over `j`, and the PDPT. -/
def reclaimDirPtr (i pdpt : ℕ) : Spaces := z.reclaimBelow (fun z _ pd => z.reclaimDir i pd) 512 pdpt

/-- The loop over `i`, which leaves out the PDPT of the kernel, and the PML4T. -/
def reclaim (pml4t : ℕ) : Spaces := z.reclaimBelow (fun z i pdpt => z.reclaimDirPtr i pdpt) 511 pml4t

end Nettapus.Spaces
