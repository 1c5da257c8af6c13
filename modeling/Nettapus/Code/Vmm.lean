import Nettapus.Code.Base
import Nettapus.Lib.Bitmap

/-!
# The virtual memory manager (`mem/vmm.c`)

The paging structures are at addresses of the kernel; each has the entries that the
processor reads and the addresses of the structures below. `alloc_page_struct` takes
them from a heap of fixed-size slots.

A function has no result when the code dereferences `NULL` or reads past the end of
`child`: this happens when the slots are used up, and when a range goes on after the
last page of the address space.
-/

namespace Nettapus

/-- `struct page_struct`. A page table is one that has no children: `struct page_table` keeps its
physical address where `child[0]` is here. -/
structure PageStruct where
  entries : ℕ → ℕ
  child : ℕ → ℕ
  physicalAddress : ℕ

/-- `physical_address` of a `struct page_table`. -/
def PageStruct.tablePhysicalAddress (s : PageStruct) : ℕ := s.child 0

/-- The structures by their addresses, and the variables of the page heap. -/
structure Vmm where
  tab : ℕ → PageStruct
  pageHeapBegin : ℕ
  pageHeapPhys : ℕ
  pageHeapBitmapLength : ℕ
  pageHeapBitmap : Bitmap.Words

def ERR_NOT_FOUND : ℕ := 3

def kernelVirtBase : ℕ := 0xFFFFFFFF80000000

namespace Vmm

variable (v : Vmm)

/-! ## Page structures -/

/-- The slot `i` of the page heap. -/
def pageStructAt (i : ℕ) : ℕ := v.pageHeapBegin + v.pageHeapBitmapLength + i * 0x3000

/-- The loop of `alloc_page_struct`, over the `n` slots from `i`. -/
def allocPageStructLoop : ℕ → ℕ → ℕ × Vmm
  | 0, _ => (NULL, v)
  | n + 1, i =>
    if v.pageHeapBitmap (i / 64) &&& (1#64 <<< (i % 64)) ≠ 0 then allocPageStructLoop n (i + 1)
    else
      let ps := v.pageStructAt i
      (ps, { v with
        pageHeapBitmap := Bitmap.mark v.pageHeapBitmap i
        tab := Function.update v.tab ps
          ⟨fun _ => 0, fun _ => 0, (ps - v.pageHeapBegin) + v.pageHeapPhys⟩ })

def allocPageStruct : ℕ × Vmm := v.allocPageStructLoop (v.pageHeapBitmapLength * 8) 0

/-- `sizeof(struct page_struct)`: two arrays of 512 words and an address, padded to whole pages. -/
def sizeofPageStruct : ℕ := (512 * 8 + 512 * 8 + 8 + 0xFFF) / 0x1000 * 0x1000

/-- `page_heap_first`: the structures come after the bitmap. -/
def pageHeapFirst : ℕ := v.pageHeapBegin + v.pageHeapBitmapLength

/-- The loop of `free_page_struct`, for `n` more slots: `pi` is the structure in the slot `i`. -/
def freePageStructLoop (ps : ℕ) : ℕ → ℕ → ℕ → Vmm
  | 0, _, _ => v
  | n + 1, i, pi =>
    if pi = ps then { v with pageHeapBitmap := Bitmap.clear v.pageHeapBitmap i }
    else freePageStructLoop ps n (i + 1) (pi + sizeofPageStruct)

def freePageStruct (ps : ℕ) : Vmm := v.freePageStructLoop ps (v.pageHeapBitmapLength * 8) 0 v.pageHeapFirst

/-- `t->entries[i] = e`. -/
def setEntry (t i e : ℕ) : Vmm :=
  { v with
    tab := Function.update v.tab t { v.tab t with entries := Function.update (v.tab t).entries i e } }

/-- `t->child[i] = c`. -/
def setChild (t i c : ℕ) : Vmm :=
  { v with
    tab := Function.update v.tab t { v.tab t with child := Function.update (v.tab t).child i c } }

/-! ## `map_memory` -/

/-- The child `i` of a PML4T or a PDPT, which is allocated if it is `NULL`. -/
def childOrNew (t i : ℕ) : Option (ℕ × Vmm) :=
  if 512 ≤ i then none
  else if (v.tab t).child i = NULL then
    let (news, v) := v.allocPageStruct
    if news = NULL then none
    else
      let v := v.setChild t i news
      some (news, v.setEntry t i ((v.tab news).physicalAddress ||| 4 ||| 2 ||| 1))
  else some ((v.tab t).child i, v)

/-- The child `i` of a page directory, which is allocated if it is `NULL`. -/
def tableOrNew (t i : ℕ) : Option (ℕ × Vmm) :=
  if 512 ≤ i then none
  else if (v.tab t).child i = NULL then
    let (news, v) := v.allocPageStruct
    if news = NULL then none
    else
      -- `newt->physical_address = news->physical_address`
      let v := v.setChild news 0 (v.tab news).physicalAddress
      let v := v.setChild t i news
      some (news, v.setEntry t i ((v.tab news).tablePhysicalAddress ||| 4 ||| 2 ||| 1))
  else some ((v.tab t).child i, v)

/-- The three `NULL` checks, before the loop of `map_memory` and in it. -/
def findTable (pml4t va : ℕ) : Option (ℕ × Vmm) :=
  (v.childOrNew pml4t (va / 0x8000000000)).bind fun (pdpt, v) =>
  (v.childOrNew pdpt (va % 0x8000000000 / 0x40000000)).bind fun (pd, v) =>
  v.tableOrNew pd (va % 0x40000000 / 0x200000)

/-- The entry that `map_memory` writes. -/
def pageEntry (pa userAccessible : ℕ) : ℕ :=
  if userAccessible ≠ 0 then pa ||| 4 ||| 2 ||| 1 else pa ||| 2 ||| 1

/-- The loop of `map_memory`, for `n` more pages. -/
def mapLoop (pml4t userAccessible : ℕ) : ℕ → Vmm → ℕ → ℕ → ℕ → Option Vmm
  | 0, v, _, _, _ => some v
  | n + 1, v, pa, va, pt =>
    (if va / 0x1000 % 512 = 0 then v.findTable pml4t va else some (pt, v)).bind fun (pt, v) =>
      mapLoop pml4t userAccessible n
        (v.setEntry pt (va % 0x200000 / 0x1000) (pageEntry pa userAccessible))
        (u64 (pa + 0x1000)) (u64 (va + 0x1000)) pt

def mapMemory (pa va amount pml4t userAccessible : ℕ) : Option (ℕ × Vmm) :=
  if pml4t = NULL then some (ERR_INVALID_PARAM, v)
  else
    let pa := pa &&& 0xFFFFFFFFFFFFF000
    let va := va &&& 0x0000FFFFFFFFF000
    (v.findTable pml4t va).bind fun (pt, v) =>
      (mapLoop pml4t userAccessible amount v pa va pt).map fun v => (GENERIC_SUCCESS, v)

/-! ## `unmap_memory` and `get_page_entry` -/

/-- The walk of `unmap_memory` and `get_page_entry`: the page table of an address, and `NULL` if a
structure on the way is missing. -/
def lookupTable (pml4t va : ℕ) : ℕ :=
  let pdpt := (v.tab pml4t).child (va / 0x8000000000)
  if pdpt = NULL then NULL
  else
    let pd := (v.tab pdpt).child (va % 0x8000000000 / 0x40000000)
    if pd = NULL then NULL
    else (v.tab pd).child (va % 0x40000000 / 0x200000)

/-- The loop of `unmap_memory`, for `n` more rounds. A missing structure ends the round before `va`
moves on. -/
def unmapLoop (pml4t : ℕ) : ℕ → Vmm → ℕ → Option Vmm
  | 0, v, _ => some v
  | n + 1, v, va =>
    if 512 ≤ va / 0x8000000000 then none
    else
      let pt := v.lookupTable pml4t va
      if pt = NULL then unmapLoop pml4t n v va
      else unmapLoop pml4t n (v.setEntry pt (va % 0x200000 / 0x1000) 0) (u64 (va + 0x1000))

def unmapMemory (va amount pml4t : ℕ) : Option (ℕ × Vmm) :=
  if pml4t = NULL then some (ERR_INVALID_PARAM, v)
  else
    let va := va &&& 0x0000FFFFFFFFF000
    if v.lookupTable pml4t va = NULL then some (ERR_NOT_FOUND, v)
    else (unmapLoop pml4t amount v va).map fun v => (GENERIC_SUCCESS, v)

def getPageEntry (pml4t va : ℕ) : ℕ :=
  if pml4t = NULL then 0
  else
    let va := va &&& 0x0000FFFFFFFFF000
    let pt := v.lookupTable pml4t va
    if pt = NULL then 0 else (v.tab pt).entries (va % 0x200000 / 0x1000)

def isMapped (va pml4t : ℕ) : ℕ := if v.getPageEntry pml4t va &&& 1 ≠ 0 then 1 else 0

/-! ## `init_vmm` -/

/-- `page_heap_length`: `init_vmm` reserves and maps 1024 pages for the page heap. -/
def pageHeapLength : ℕ := 512 * 2 * 0x1000

/-- The page heap as `init_vmm` sets it up, once `allocpps` gave it the pages from `basePp` on: a
bitmap of two pages, all clear. -/
def initPageHeap (basePp : ℕ) : Vmm :=
  { v with
    pageHeapBegin := kernelVirtBase + 0x10000000
    pageHeapPhys := basePp * 0x1000
    pageHeapBitmapLength := 0x2000
    pageHeapBitmap := fun j => if j < 0x2000 / 8 then 0 else v.pageHeapBitmap j }

end Vmm

end Nettapus
