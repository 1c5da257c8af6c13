import Nettapus.Code.Base
import Nettapus.Lib.Bitmap

/-!
# The physical memory manager (`mem/pmm.c`, `mem/mem.c`)

`struct memory_map` is a table of usable blocks and one bit for every page below
24 GiB. A page number is valid when it is inside a block; the bit of a valid page
says whether it is used. The block table has 32 entries: a write past its end is
undefined, and `initPmm` has no result then.
-/

namespace Nettapus

/-- `struct memory_block`: both fields are page numbers. -/
structure MemoryBlock where
  basePage : ℕ
  length : ℕ
  deriving DecidableEq

/-- `struct memory_map`. -/
structure MemoryMap where
  blocks : ℕ → MemoryBlock
  numBlocks : ℕ
  bitmap : Bitmap.Words

/-- The number of entries of `blocks`. -/
def maxBlocks : ℕ := 32

/-- `sizeof(physical_memory.bitmap) * 8`: the pages that have a bit. -/
def pageLimit : ℕ := 98304 * 64

def addrToPage (addr : ℕ) : ℕ := addr / 0x1000

def createBlock (baseAddr len : ℕ) : MemoryBlock := ⟨addrToPage baseAddr, addrToPage len⟩

variable (m : MemoryMap)

/-- The page is inside one of the blocks. -/
def isppValid (page : ℕ) : Bool :=
  (List.range m.numBlocks).any fun i =>
    decide (page < u64 ((m.blocks i).basePage + (m.blocks i).length)) &&
      decide ((m.blocks i).basePage ≤ page)

/-- The bit of a page, and `2` for a page that is not valid. -/
def isppUsed (page : ℕ) : ℕ :=
  if !isppValid m page then 2
  else ((m.bitmap (page / 64) >>> (page % 64)) &&& 1#64).toNat

/-- Sets the bit of a valid page to `value`. -/
def setppUsed (page value : ℕ) : ℕ × MemoryMap :=
  if !isppValid m page then (1, m)
  else if value = 0 then (GENERIC_SUCCESS, { m with bitmap := Bitmap.clear m.bitmap page })
  else (GENERIC_SUCCESS, { m with bitmap := Bitmap.mark m.bitmap page })

/-- The loop of `allocpp`, over the `n` pages from `i`. -/
def allocppLoop : ℕ → ℕ → ℕ × MemoryMap
  | 0, _ => (0, m)
  | n + 1, i => if isppUsed m i = 0 then (i, (setppUsed m i 1).2) else allocppLoop n (i + 1)

def allocpp : ℕ × MemoryMap := allocppLoop m pageLimit 0

/-- The inner loop of `allocpps`: counts the free pages from `i + j` on, `n` at most. -/
def allocppsRun (i : ℕ) : ℕ → ℕ → ℕ → ℕ
  | 0, _, ia => ia
  | n + 1, j, ia =>
    if isppUsed m (u64 (i + j)) ≠ 0 then ia else allocppsRun i n (j + 1) (ia + 1)

/-- The loop of `allocpps` that marks the pages `i + j` to `i + j + n`. -/
def markUsed (i : ℕ) : ℕ → ℕ → MemoryMap → MemoryMap
  | 0, _, m => m
  | n + 1, j, m => markUsed i n (j + 1) (setppUsed m (u64 (i + j)) 1).2

/-- The outer loop of `allocpps`. Each iteration moves `i` by one at least, so the
bound that it starts with is not reached before the loop's own. -/
def allocppsLoop (amount : ℕ) : ℕ → ℕ → ℕ × MemoryMap
  | 0, _ => (0, m)
  | fuel + 1, i =>
    if i < pageLimit then
      let ia := allocppsRun m i amount 0 0
      -- the run at `i` is too short: go on after the page that ended it
      if ia ≠ amount then allocppsLoop amount fuel (i + ia + 1)
      else (i, markUsed i amount 0 m)
    else (0, m)

def allocpps (amount : ℕ) : ℕ × MemoryMap := allocppsLoop m amount pageLimit 0

def freepp (page : ℕ) : ℕ × MemoryMap := setppUsed m page 0

/-- The loop of `freepps`, for `i` to `i + n`. -/
def freeppsLoop (page : ℕ) : ℕ → ℕ → MemoryMap → ℕ × MemoryMap
  | 0, _, m => (0, m)
  | n + 1, i, m =>
    let r := setppUsed m (u64 (page + i)) 0
    if r.1 ≠ 0 then (1, r.2) else freeppsLoop page n (i + 1) r.2

def freepps (page amount : ℕ) : ℕ × MemoryMap := freeppsLoop page amount 0 m

/-- `struct stivale2_mmap_entry`. -/
structure MmapEntry where
  base : ℕ
  length : ℕ
  type : ℕ

/-- `struct stivale2_struct_tag_memmap`. -/
structure MemmapTag where
  identifier : ℕ
  memmap : List MmapEntry

def STIVALE2_STRUCT_TAG_MEMMAP_ID : ℕ := 0x2187f79e8612de07
def STIVALE2_MMAP_USABLE : ℕ := 1

/-- The loop of `init_pmm` over the entries of the memory map. -/
def initPmmLoop : List MmapEntry → MemoryMap → Option MemoryMap
  | [], m => some m
  | e :: es, m =>
    if e.type ≠ STIVALE2_MMAP_USABLE then initPmmLoop es m
    else if m.numBlocks < maxBlocks then
      initPmmLoop es { m with
        blocks := Function.update m.blocks m.numBlocks (createBlock e.base e.length)
        numBlocks := m.numBlocks + 1 }
    else none

/-- Marks the first 4 MiB as used: the loop over the first `n` words. -/
def markLow : ℕ → Bitmap.Words → Bitmap.Words
  | 0, w => w
  | n + 1, w => Function.update (markLow n w) n 0xFFFFFFFFFFFFFFFF#64

def initPmm (memtag : Option MemmapTag) : Option (ℕ × MemoryMap) :=
  match memtag with
  | none => some (1, m)
  | some tag =>
    if tag.identifier ≠ STIVALE2_STRUCT_TAG_MEMMAP_ID then some (1, m)
    else (initPmmLoop tag.memmap { m with numBlocks := 0 }).map fun m' =>
      (0, { m' with bitmap := markLow 16 m'.bitmap })

/-- `physical_memory` before `init_pmm`: the zeroes of `.bss`. -/
def MemoryMap.zero : MemoryMap := ⟨fun _ => ⟨0, 0⟩, 0, fun _ => 0⟩

end Nettapus
