import Nettapus.Code.Vmm

/-!
# The processor's page walk

The kernel follows `child` from one paging structure to the next; the processor knows only `entries`, and finds
a structure by the physical address that the entry above has. `mmuWalk` is the walk of the processor: four levels of
entries, and pages of 2 MiB or 1 GiB where an entry of a page directory or a PDPT says so.

Physical memory is reached where `init_vmm` maps it: the page heap from `page_heap_phys` on is at
`page_heap_begin`, and the kernel itself is at `kernel_virt_base`.
-/

namespace Nettapus

/-- What a walk finds: the frame, and what the entries of all levels allow. -/
structure Translation where
  frame : ℕ
  user : Bool
  write : Bool
  deriving DecidableEq, Repr

/-- The flags of an entry, and its address in the bits 12 to 51. -/
def entryPresent (e : ℕ) : Bool := decide (e % 2 = 1)

def entryWrite (e : ℕ) : Bool := decide (e / 2 % 2 = 1)

def entryUser (e : ℕ) : Bool := decide (e / 4 % 2 = 1)

def entryLarge (e : ℕ) : Bool := decide (e / 0x80 % 2 = 1)

def entryAddress (e : ℕ) : ℕ := e % 2 ^ 52 / 0x1000 * 0x1000

namespace Vmm

variable (v : Vmm)

/-- The virtual address at which the kernel has a physical one. -/
def virtOf (pa : ℕ) : ℕ :=
  if v.pageHeapPhys ≤ pa ∧ pa < v.pageHeapPhys + pageHeapLength then pa - v.pageHeapPhys + v.pageHeapBegin
  else pa + kernelVirtBase

/-- The entry `i` of the structure at a physical address. -/
def entryAt (pa i : ℕ) : ℕ := (v.tab (v.virtOf pa)).entries i

/-- The walk over the levels that are left, from the structure at `pa`. In a PML4T the bit of a large page is reserved, in a
page table it has another meaning. -/
def mmuLevels (va : ℕ) : ℕ → ℕ → Bool → Bool → Option Translation
  | 0, pa, user, write => some ⟨pa / 0x1000, user, write⟩
  | n + 1, pa, user, write =>
    let entry := v.entryAt pa (va / (0x1000 * 512 ^ n) % 512)
    let user := user && entryUser entry
    let write := write && entryWrite entry
    if entryPresent entry then
      if 0 < n && entryLarge entry then
        if n = 3 then none
        else some ⟨entry % 2 ^ 52 / (0x1000 * 512 ^ n) * 512 ^ n + va / 0x1000 % 512 ^ n, user, write⟩
      else mmuLevels va n (entryAddress entry) user write
    else none

/-- The walk from the PML4T `pml4t`, when its physical address is loaded into `cr3`. -/
def mmuWalk (pml4t va : ℕ) : Option Translation := v.mmuLevels va 4 (v.tab pml4t).physicalAddress true true

end Vmm

end Nettapus
