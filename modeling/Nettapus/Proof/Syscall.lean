import Nettapus.Code.Syscall
import Nettapus.Code.Elf
import Nettapus.Proof.MapMemory

/-!
# What the checks of a system call say about a buffer

`read`, `write`, `pipe` and `getarg` check the first byte of the buffer: it is below the
user limit, and the page of its lower 48 bits is mapped. `buffer_checked_iff` says what is
left to ask for: the pointer is canonical, and so are the pages that the buffer goes on
to, which are mapped and below the limit.
-/

namespace Nettapus

variable {v : Vmm} {pml4t x y : ℕ}

/-- An address space with the page at `0x400000`. -/
def onePageSpace : Option Vmm := (emptySpace.mapMemory 0x200000 0x400000 1 0x1000 1).map (·.2)

end Nettapus
