import Nettapus.Code.Heap
import Nettapus.Code.Space

/-!
# The start of the memory manager (`mem/mem.c`, `mem/vmm.c`, `mem/heap.c`)

`init_memory` starts the three parts of the memory manager one after the other: `init_pmm`, `init_vmm` and `init_heap`.
`init_vmm` has no structures yet to take from the page heap, so it begins with five of its own, which the linker puts
into the kernel's binary: they map the binary and the first part of the page heap. From then on `map_memory` takes what it
needs from the page heap.

There is no result where `kpanic` is called.
-/

namespace Nettapus

/-- Where the linker puts `kpml4`, `k_first_pdpt`, `k_first_pd`, `k_first_table` and `k_sec_table`. -/
structure KernelImage where
  kpml4 : ℕ
  kFirstPdpt : ℕ
  kFirstPd : ℕ
  kFirstTable : ℕ
  kSecTable : ℕ

def kernelPhysBase : ℕ := 0x200000

def pageToAddr (page : ℕ) : ℕ := u64 (page * 0x1000)

namespace Spaces

variable (z : Spaces)

/-- `krefresh_vmm`: the kernel's PML4T is loaded. -/
def krefreshVmm : Spaces := { z with cr3 := z.kpml4 }

/-- `init_heap`: the pages are mapped, and the heap is one free chunk. -/
def initHeap (h : Heap) : Option (ℕ × Spaces × Heap) :=
  let (pp, z) := z.allocpps 256
  (z.vmm.mapMemory (pageToAddr pp) heapStart 256 z.kpml4 1).map fun (st, v) =>
    let (stat, h) := Nettapus.initHeap st h
    (stat, ({ z with vmm := v } : Spaces).krefreshVmm, h)

end Spaces

/-- The variables before `init_memory`: the zeroes of `.bss`. What the memory of the page heap holds, what is in the pages and
which PML4T is loaded is up to the bootloader. -/
def KernelImage.start (k : KernelImage) (bitmap : Bitmap.Words) (page : ℕ → ℕ → UInt8) (cr3 : ℕ) : Spaces where
  vmm :=
    { tab := fun _ => ⟨fun _ => 0, fun _ => 0, 0⟩
      pageHeapBegin := 0
      pageHeapPhys := 0
      pageHeapBitmapLength := 0
      pageHeapBitmap := bitmap }
  mem := MemoryMap.zero
  page := page
  cr3 := cr3
  kpml4 := k.kpml4
  kFirstPdpt := k.kFirstPdpt
  spaces := []

end Nettapus
