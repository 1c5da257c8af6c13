import Nettapus.Code.Vmm
import Nettapus.Code.Pmm

/-!
# Address spaces (`task/task.c`, `task/elf.c`, `mem/vmm.c`)

How address spaces are made: `create_address_space`, `load_elf`, `copy_addr_space`, and
the window at `0xFFFFFFFF98000000` through which the kernel reaches the pages of other
address spaces. `SpaceEvent` are the calls, and `Spaces.step` makes one of them.

`load_elf` is its checks of the program headers and its calls of `map_memory`; what it
reads from the file is given to it.
-/

namespace Nettapus

/-- `phys_base`: the place where physical pages are mapped for a moment. -/
def WINDOW : ℕ := 0xFFFFFFFF98000000

def KERNEL_STACK : ℕ := 0xFFFFFF7FFFFFF000
def USER_STACK : ℕ := 0xFFFFFF7000001000

structure Spaces where
  vmm : Vmm
  /-- `physical_memory`, and what is in the physical pages. -/
  mem : MemoryMap
  page : ℕ → ℕ → UInt8
  /-- The PML4T that is loaded. -/
  cr3 : ℕ
  /-- The addresses of `kpml4` and `k_first_pdpt`. -/
  kpml4 : ℕ
  kFirstPdpt : ℕ
  /-- The address spaces that were made. -/
  spaces : List ℕ

/-- The fields of `struct elf_phdr_entry` that decide what is mapped. -/
structure ElfPhdrEntry where
  segmentType : ℕ
  vaddr : ℕ
  sizeMem : ℕ

namespace Spaces

variable (z : Spaces)

/-- A PML4T with the kernel at its last entry, as `create_address_space` and `copy_addr_space`
begin. -/
def newPml4t : Option (ℕ × Spaces) :=
  let (pml4t, v) := z.vmm.allocPageStruct
  if pml4t = NULL then none
  else
    -- `memset(pml4t, 0, 0x2000)` leaves the physical address
    let v := { v with
      tab := Function.update v.tab pml4t ⟨fun _ => 0, fun _ => 0, (v.tab pml4t).physicalAddress⟩ }
    let v := v.setChild pml4t 511 z.kFirstPdpt
    let v := v.setEntry pml4t 511 ((v.tab z.kFirstPdpt).physicalAddress ||| 2 ||| 1)
    some (pml4t, { z with vmm := v, spaces := z.spaces ++ [pml4t] })

/-- `map_memory` in an address space. -/
def mapMemory (pa va amount pml4t userAccessible : ℕ) : Option Spaces :=
  (z.vmm.mapMemory pa va amount pml4t userAccessible).map fun (_, v) => { z with vmm := v }

def unmapMemory (va amount pml4t : ℕ) : Option Spaces :=
  (z.vmm.unmapMemory va amount pml4t).map fun (_, v) => { z with vmm := v }

def allocpp : ℕ × Spaces :=
  let (pp, mem) := Nettapus.allocpp z.mem
  (pp, { z with mem := mem })

def allocpps (amount : ℕ) : ℕ × Spaces :=
  let (pp, mem) := Nettapus.allocpps z.mem amount
  (pp, { z with mem := mem })

def createAddressSpace : Option (ℕ × Spaces) :=
  z.newPml4t.bind fun (pml4t, z) =>
  let (stackPp, z) := z.allocpp
  (z.mapMemory (u64 (stackPp * 0x1000)) USER_STACK 1 pml4t 1).bind fun z =>
  let (kernelStackPp, z) := z.allocpp
  (z.mapMemory (u64 (kernelStackPp * 0x1000)) KERNEL_STACK 1 pml4t 0).map fun z => (pml4t, z)

/-! ## `load_elf` -/

/-- The first loop of `load_elf` lets the entry pass. -/
def accepts (entry : ElfPhdrEntry) : Bool :=
  decide (entry.segmentType = 0) || decide (entry.vaddr < 0xFFFFFF7000000000)

def pageCount (entry : ElfPhdrEntry) : ℕ :=
  entry.sizeMem / 0x1000 + if entry.sizeMem % 0x1000 ≠ 0 then 1 else 0

/-- The body of the second loop of `load_elf`. -/
def loadSegment (pml4t : ℕ) (entry : ElfPhdrEntry) : Option Spaces :=
  if entry.segmentType = 1 then
    let (ppBase, z) := z.allocpps (pageCount entry)
    let vpBase := entry.vaddr / 0x1000
    (z.mapMemory (u64 (ppBase * 0x1000)) (u64 (vpBase * 0x1000)) (pageCount entry) pml4t 1).bind fun z =>
    (z.mapMemory (u64 (ppBase * 0x1000)) WINDOW (pageCount entry) pml4t 0).bind fun z =>
    z.unmapMemory WINDOW (pageCount entry) pml4t
  else some z

/-- `load_elf`, for a file with these program headers, of which the second loop can read the first
`red`. -/
def loadElf (phdrs : List ElfPhdrEntry) (red : ℕ) : Option (ℕ × Spaces) :=
  if phdrs.length = 0 then some (NULL, z)
  else if phdrs.all accepts then
    z.createAddressSpace.bind fun (pml4t, z) =>
    ((phdrs.take red).foldlM (fun (z : Spaces) entry => z.loadSegment pml4t entry) z).map fun z =>
      (if red < phdrs.length then NULL else pml4t, z)
  else some (NULL, z)

/-! ## `copy_addr_space` -/

/-- The page that the window shows. -/
def windowPage : ℕ := z.vmm.getPageEntry z.cr3 WINDOW / 0x1000

/-- One page is copied, by way of a buffer. -/
def copyPage (ret entry va : ℕ) : Option Spaces :=
  (z.mapMemory entry WINDOW 1 ret 0).bind fun z =>
  let buf := z.page z.windowPage
  let (pp, z) := z.allocpp
  (z.mapMemory (u64 (pp * 0x1000)) va 1 ret 1).bind fun z =>
  (z.mapMemory (u64 (pp * 0x1000)) WINDOW 1 ret 0).map fun z =>
    { z with page := Function.update z.page z.windowPage buf }

/-- The loop over `l`. -/
def copyTable (ret pt i j k : ℕ) : Option Spaces :=
  (List.range 512).foldlM (fun z l =>
    let entry := (z.vmm.tab pt).entries l
    if entry = 0 then some z
    else z.copyPage ret entry ((l + k * 512 + j * 512 * 512 + i * 512 * 512 * 512) * 0x1000)) z

/-- The loop over `k`. -/
def copyDir (ret pd i j : ℕ) : Option Spaces :=
  (List.range 512).foldlM (fun z k =>
    let pt := (z.vmm.tab pd).child k
    if pt = NULL then some z else z.copyTable ret pt i j k) z

/-- The loop over `j`. -/
def copyDirPtr (ret pdpt i : ℕ) : Option Spaces :=
  (List.range 512).foldlM (fun z j =>
    let pd := (z.vmm.tab pdpt).child j
    if pd = NULL then some z else z.copyDir ret pd i j) z

/-- The loop over `i`: the last PDPT belongs to the kernel. -/
def copyPml4t (ret pml4t : ℕ) : Option Spaces :=
  (List.range 511).foldlM (fun z i =>
    let pdpt := (z.vmm.tab pml4t).child i
    if pdpt = NULL then some z else z.copyDirPtr ret pdpt i) z

def copyAddrSpace (pml4t : ℕ) : Option (ℕ × Spaces) :=
  if pml4t = NULL then some (NULL, z)
  else
    z.newPml4t.bind fun (ret, z) =>
    (z.copyPml4t ret pml4t).bind fun z =>
    (z.unmapMemory WINDOW 1 ret).map fun z => (ret, z)

end Spaces

/-! ## Runs -/

inductive SpaceEvent
  | create
  | loadElf (phdrs : List ElfPhdrEntry) (red : ℕ)
  /-- `initialise_task` and `kfork` map a page at the window, and unmap it. -/
  | window (pml4t pa : ℕ)
  | unwindow (pml4t : ℕ)
  | copy (pml4t : ℕ)

/-- One call. Address spaces are named by their PML4T. -/
def Spaces.step (z : Spaces) : SpaceEvent → Option Spaces
  | .create => z.createAddressSpace.map Prod.snd
  | .loadElf phdrs red => (z.loadElf phdrs red).map Prod.snd
  | .window pml4t pa => if pml4t ∈ z.spaces then z.mapMemory pa WINDOW 1 pml4t 0 else none
  | .unwindow pml4t => if pml4t ∈ z.spaces then z.unmapMemory WINDOW 1 pml4t else none
  | .copy pml4t => if pml4t ∈ z.spaces then (z.copyAddrSpace pml4t).map Prod.snd else none

end Nettapus
