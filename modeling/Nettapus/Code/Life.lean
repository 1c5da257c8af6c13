import Nettapus.Code.Elf
import Nettapus.Code.Exit
import Nettapus.Code.Mmu

/-!
# The life of address spaces

The calls that make, fill, copy and give up address spaces, and the programs that run in them: `create_address_space`
for the tasks of the kernel, `load_elf` and `initialise_task` for `exec`, `copy_addr_space` and the copy of the kernel's stack
for `fork`, the terminator's loops for `exit`, and between them the switches of tasks and the stores of user code.

An address space that the terminator has reclaimed is not one of `spaces` any more.
-/

namespace Nettapus

namespace Spaces

variable (z : Spaces)

/-- The eight bytes of a word. -/
def wordBytes (w : ℕ) : List UInt8 := (List.range 8).map fun i => UInt8.ofNat (w / 256 ^ i)

/-- The part of `initialise_task` that puts `main` on the stack of a new task. -/
def initialiseStack (pml4t main : ℕ) : Option Spaces :=
  let stackPaddr := z.vmm.getPageEntry pml4t (USER_STACK + 0x1000 - 1)
  (z.mapMemory stackPaddr WINDOW 1 pml4t 0).bind fun z =>
  (z.write (WINDOW + 0x1000 - 8) (wordBytes main)).bind fun z =>
  z.unmapMemory WINDOW 1 pml4t

/-- The part of `kfork` that copies the kernel's stack, from the task that runs in `ptask` to the one of `ctask`. -/
def forkStack (ptask ctask : ℕ) : Option Spaces :=
  (z.mapMemory (z.vmm.getPageEntry ctask KERNEL_STACK) WINDOW 1 ptask 0).bind fun z =>
  let entry := z.vmm.getPageEntry z.cr3 KERNEL_STACK
  if entry = 0 then none
  else ({ z with page := Function.update z.page z.windowPage (z.page (entry / 0x1000)) } : Spaces).unmapMemory WINDOW 1 ptask

/-- A store of user code, as the processor does it. There is none if the walk ends early, or the page is not for the user
to write to. -/
def userStore (va : ℕ) (b : UInt8) : Option Spaces :=
  (z.vmm.mmuWalk z.cr3 va).bind fun t =>
    if canonical va && t.user && t.write then
      some { z with page := Function.update z.page t.frame (Function.update (z.page t.frame) (va % 0x1000) b) }
    else none

/-- The terminator reclaims an address space. -/
def discard (pml4t : ℕ) : Spaces := { z.reclaim pml4t with spaces := z.spaces.filter (· ≠ pml4t) }

end Spaces

/-- What `load_elf` gets: the driver, the other files, and the descriptors of the task, of which `fd` is the file. -/
structure ElfFile where
  disk : ℕ → DriverRead
  special : FileDescriptor → ℤ → Option (Delivered FileDescriptor)
  fd : ℤ
  fds : List FileDescriptor

inductive LifeEvent
  | create
  | load (f : ElfFile)
  | initialise (pml4t main : ℕ)
  | copy (pml4t : ℕ)
  | forkStack (ptask ctask : ℕ)
  | exit (pml4t : ℕ)
  | switch (pml4t : ℕ)
  | store (va : ℕ) (b : UInt8)

/-- One event. Address spaces are named by their PML4T; the terminator runs in an address space of its own. -/
def Spaces.lifeStep (z : Spaces) : LifeEvent → Option Spaces
  | .create => z.createAddressSpace.map Prod.snd
  | .load f => (Loader.loadElf f.disk f.special f.fd ⟨z, f.fds, 0⟩).map fun r => r.2.2.spaces
  | .initialise pml4t main => if pml4t ∈ z.spaces then z.initialiseStack pml4t main else none
  | .copy pml4t => if pml4t ∈ z.spaces then (z.copyAddrSpace pml4t).map Prod.snd else none
  | .forkStack ptask ctask => if ptask = z.cr3 ∧ ptask ∈ z.spaces ∧ ctask ∈ z.spaces then z.forkStack ptask ctask else none
  | .exit pml4t => if pml4t ∈ z.spaces ∧ pml4t ≠ z.cr3 then some (z.discard pml4t) else none
  | .switch pml4t => if pml4t = z.kpml4 ∨ pml4t ∈ z.spaces then some { z with cr3 := pml4t } else none
  | .store va b => z.userStore va b

end Nettapus
