import Nettapus.Code.Space
import Nettapus.Code.File
import Nettapus.Lib.Bytes

/-!
# Loading an executable (`task/elf.c`)

`load_elf` with the file that it reads: the header, the two passes over the program headers, and the data
of the segments, which is written through the window. The calls of the file system driver are numbered;
`disk n` is what the driver does at the call `n`. The descriptor is the one that `kopen` returned.

`mapMemory`, `allocpps` and so on are those of `Code/Space.lean`, where `Spaces.loadElf` is the part of `load_elf`
that changes the page tables. A write to a page that is not mapped has no result. The kernel's own data is not in the
pages of the model.
-/

namespace Nettapus

open Bytes

/-! ## The headers -/

/-- A field of `n` bytes at `off` of a structure that was read. -/
def field (data : List UInt8) (off n : ℕ) : ℕ := load (fun i => data.getD i 0) off n

/-- The fields of `struct elf_hdr64` that are used, and the place of the program headers. -/
structure ElfHdr64 where
  magic : List UInt8
  wordSize : ℕ
  endianness : ℕ
  hdrVersion : ℕ
  entryAddr : ℕ
  programHdr : ℕ
  phdrEntryCount : ℕ

def elfHdr64 (data : List UInt8) : ElfHdr64 where
  magic := data.take 4
  wordSize := field data 4 1
  endianness := field data 5 1
  hdrVersion := field data 6 1
  entryAddr := field data 24 8
  programHdr := field data 32 8
  phdrEntryCount := field data 56 2

/-- `struct elf_phdr_entry`, without the fields that nothing uses. -/
structure ElfPhdr extends ElfPhdrEntry where
  dataOff : ℕ
  sizeFile : ℕ

def elfPhdr (data : List UInt8) : ElfPhdr where
  segmentType := field data 0 4
  dataOff := field data 8 8
  vaddr := field data 16 8
  sizeFile := field data 32 8
  sizeMem := field data 40 8

/-- `sizeof(struct elf_phdr_entry)`. -/
def PHDR_SIZE : ℕ := 56

def elfMagic : List UInt8 := [0x7f, 0x45, 0x4c, 0x46]

/-- The checks of the header. -/
def ElfHdr64.valid (hdr : ElfHdr64) : Bool :=
  decide (hdr.magic = elfMagic) && decide (hdr.wordSize = 2) && decide (hdr.endianness = 1) &&
    decide (hdr.hdrVersion = 1) && decide (hdr.phdrEntryCount ≠ 0)

/-! ## Memory -/

namespace Spaces

/-- A byte is written through the PML4T that is loaded. -/
def poke (z : Spaces) (va : ℕ) (b : UInt8) : Option Spaces :=
  let entry := z.vmm.getPageEntry z.cr3 va
  if entry = 0 then none
  else
    let pp := entry / 0x1000
    some { z with page := Function.update z.page pp (Function.update (z.page pp) (va % 0x1000) b) }

/-- Bytes are written from `va` on, by `memset` or by a driver. -/
def write : Spaces → ℕ → List UInt8 → Option Spaces
  | z, _, [] => some z
  | z, va, b :: l => (z.poke va b).bind fun z => z.write (va + 1) l

/-- The processor takes an address whose upper 17 bits are equal. -/
def canonical (va : ℕ) : Bool := decide (va < 2 ^ 47) || (decide (2 ^ 64 - 2 ^ 47 ≤ va) && decide (va < 2 ^ 64))

/-- The byte at an address, in the address space `pml4t`. -/
def peek (z : Spaces) (pml4t va : ℕ) : Option UInt8 :=
  let entry := z.vmm.getPageEntry pml4t va
  if canonical va && decide (entry ≠ 0) then some (z.page (entry / 0x1000) (va % 0x1000)) else none

end Spaces

/-! ## `load_elf` -/

/-- What `load_elf` works on: the address spaces, the descriptors of the task, and the number of the next call
of the driver. -/
structure Loader where
  spaces : Spaces
  fds : List FileDescriptor
  calls : ℕ

namespace Loader

variable (disk : ℕ → DriverRead) (special : FileDescriptor → ℤ → Option (Delivered FileDescriptor)) (fd : ℤ)

/-- `kread` into a buffer of the kernel. -/
def read (s : Loader) (amount : ℤ) : Option (Delivered Loader) :=
  (kread (disk s.calls) special s.fds fd amount).map fun r => ⟨r.status, r.data, { s with fds := r.state, calls := s.calls + 1 }⟩

def seek (s : Loader) (pos : ℤ) : Option Loader := (kseek s.fds fd pos).map fun r => { s with fds := r.2 }

/-- The first loop, for `n` more entries: whether all are valid. -/
def checkEntries : ℕ → Loader → Option (Bool × Loader)
  | 0, s => some (true, s)
  | n + 1, s =>
    (s.read disk special fd PHDR_SIZE).bind fun r =>
      if r.status ≠ PHDR_SIZE then some (false, r.state)
      else if Spaces.accepts (elfPhdr r.data).toElfPhdrEntry then checkEntries n r.state
      else some (false, r.state)

/-- The pages of a segment are mapped, at their place and at the window. -/
def mapSegment (s : Loader) (pml4t : ℕ) (entry : ElfPhdr) : Option Loader :=
  let pageCount := Spaces.pageCount entry.toElfPhdrEntry
  let (ppBase, z) := s.spaces.allocpps pageCount
  let vpBase := entry.vaddr / 0x1000
  (z.mapMemory (u64 (ppBase * 0x1000)) (u64 (vpBase * 0x1000)) pageCount pml4t 1).bind fun z =>
  (z.mapMemory (u64 (ppBase * 0x1000)) WINDOW pageCount pml4t 0).map fun z => { s with spaces := z }

/-- The data of a segment is put into its pages. What `kread` returns is reported and ignored. -/
def fillSegment (s : Loader) (entry : ElfPhdr) : Option Loader :=
  (s.spaces.write WINDOW (List.replicate entry.sizeMem 0)).bind fun z =>
  (ktell s.fds fd).bind fun temp =>
  (seek fd { s with spaces := z } (toInt64 entry.dataOff)).bind fun s =>
  (s.read disk special fd (toInt64 entry.sizeFile)).bind fun r =>
  (r.state.spaces.write WINDOW r.data).bind fun z =>
  seek fd { r.state with spaces := z } temp

/-- The body of the second loop. -/
def loadSegment (s : Loader) (pml4t : ℕ) (entry : ElfPhdr) : Option Loader :=
  if entry.segmentType = 1 then
    (s.mapSegment pml4t entry).bind fun s =>
    (s.fillSegment disk special fd entry).bind fun s =>
    (s.spaces.unmapMemory WINDOW (Spaces.pageCount entry.toElfPhdrEntry) pml4t).map fun z => { s with spaces := z }
  else some s

/-- The second loop, for `n` more entries: whether all could be read. -/
def loadEntries (pml4t : ℕ) : ℕ → Loader → Option (Bool × Loader)
  | 0, s => some (true, s)
  | n + 1, s =>
    (s.read disk special fd PHDR_SIZE).bind fun r =>
      if r.status ≠ PHDR_SIZE then some (false, r.state)
      else (loadSegment disk special fd r.state pml4t (elfPhdr r.data)).bind fun s => loadEntries pml4t n s

/-- The part after the checks. -/
def load (s : Loader) (hdr : ElfHdr64) : Option (ℕ × Option ℕ × Loader) :=
  (s.seek fd 64).bind fun s =>
  s.spaces.createAddressSpace.bind fun (pml4t, z) =>
  (loadEntries disk special fd pml4t hdr.phdrEntryCount { s with spaces := z }).map fun (ok, s) =>
    if ok then (pml4t, some hdr.entryAddr, s) else (NULL, none, s)

/-- `load_elf`: the address space, what is written to `entry_point`, and the state. -/
def loadElf (s : Loader) : Option (ℕ × Option ℕ × Loader) :=
  if fd < 0 then some (NULL, none, s)
  else
    (s.read disk special fd 64).bind fun r =>
      if r.status ≠ 64 then some (NULL, none, r.state)
      else
        let hdr := elfHdr64 r.data
        if hdr.valid then
          (checkEntries disk special fd hdr.phdrEntryCount r.state).bind fun (ok, s) =>
            if ok then s.load disk special fd hdr else some (NULL, none, s)
        else some (NULL, none, r.state)

end Loader

end Nettapus
