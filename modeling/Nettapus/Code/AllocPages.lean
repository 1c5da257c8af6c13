import Nettapus.Code.Space

/-!
# Allocating pages (`mem/vmm.c`)

`alloc_pages` scans the kernel's address space for virtual pages, and maps them to physical pages. Its scan
makes the three `NULL` checks of `map_memory`, but with an index of its own for the page directory.
-/

namespace Nettapus

/-- The three `NULL` checks of `alloc_pages`. The page table is at the index `(i % 0x40000000) / 0x20000` of the
page directory; the read is past the end of `child` where this is not below 512. -/
def Vmm.scanTable (v : Vmm) (pml4t i : ℕ) : Option (ℕ × Vmm) :=
  (v.childOrNew pml4t (i / 0x8000000000)).bind fun (pdpt, v) =>
  (v.childOrNew pdpt (i % 0x8000000000 / 0x40000000)).bind fun (pd, v) =>
  v.tableOrNew pd (i % 0x40000000 / 0x20000)

namespace Spaces

/-- The loop of `alloc_pages`: `ia` pages were found before `i`. -/
def allocPagesLoop (amount base limit userAccessible : ℕ) : ℕ → Spaces → ℕ → ℕ → ℕ → Option (ℕ × Spaces)
  | 0, _, _, _, _ => none
  | fuel + 1, z, i, pt, ia =>
    if limit < i then some (0, z)
    else
      (if i / 0x1000 % 512 = 0 ∨ i = base &&& 0x0000FFFFFFFFF000 then z.vmm.scanTable z.kpml4 i
        else some (pt, z.vmm)).bind fun (pt, v) =>
      let z := { z with vmm := v }
      let next := u64 (i + 0x1000) &&& 0x0000FFFFFFFFF000
      if pt = NULL then allocPagesLoop amount base limit userAccessible fuel z next pt ia
      else
        let ia := if (v.tab pt).entries (i % 0x200000 / 0x1000) &&& 1 = 0 then u64 (ia + 1) else 0
        if ia = amount then
          let (basePp, z) := z.allocpps amount
          if basePp = 0 then some (0, z)
          else
            (z.mapMemory (u64 (basePp * 0x1000)) (sub64 next (ia * 0x1000)) ia z.kpml4 userAccessible).map fun z =>
              -- `krefresh_vmm`
              (sub64 next (ia * 0x1000), { z with cr3 := z.kpml4 })
        else allocPagesLoop amount base limit userAccessible fuel z next pt ia

end Spaces

end Nettapus
