import Nettapus.Code.Blocks
import Nettapus.Code.Ext2Dir

/-!
# The buffers of a path (`fs/utils.c`, `fs/ext2/open.c`)

`get_step` with the bytes that it writes, and `fs_parse_path`, `fs_free_path` and `ext2_open_at` with the blocks
of the heap that are live. A block with a string is its address and the string.

No result stands for a write outside of a block, and for a loop over the array that runs over its end. The
other functions of the driver free the buffers that they allocate; of `ext2_search_dir` the entry is left,
which its caller frees.
-/

namespace Nettapus

/-! ## `get_step` -/

/-- The bytes that `get_step` writes from `out` on: the step, and the `NUL` behind it. -/
def getStepWrites (cur : List UInt8) (sep : UInt8) (max : ℕ) : List UInt8 :=
  match getStep cur sep max with
  | none => []
  | some (out, _) => out ++ [0]

/-- The paths that the loop of `fs_parse_path` calls `get_step` with, with the free places of the array. -/
def stepCalls : ℕ → List UInt8 → List (List UInt8)
  | 0, _ => []
  | n + 1, path =>
    path :: match getStep path slash 0x100 with
      | none => []
      | some (_, path) => stepCalls n path

/-! ## `fs_parse_path` and `fs_free_path` -/

/-- A place of the array: `NULL`, or a block with a string. -/
abbrev Slot := Option (ℕ × List UInt8)

variable (A : Allocator)

/-- The loop of `fs_parse_path`: the places that it fills. -/
def parseBlocks : ℕ → List UInt8 → Finset ℕ → Option (List Slot × Finset ℕ)
  | 0, _, live => some ([], live)
  | n + 1, path, live =>
    let (str, live) := A.kmalloc live
    if (getStepWrites path slash 0x100).length ≤ 0x100 then
      match getStep path slash 0x100 with
      | none => some ([none], live)
      | some (step, path) => (parseBlocks n path live).map fun (arr, live) => (some (str, step) :: arr, live)
    else none

/-- The array: its block, and what is in it. -/
structure PathArray where
  block : ℕ
  slots : List Slot
  deriving DecidableEq

def fsParsePathBlocks (prev : UInt8) (path : List UInt8) (live : Finset ℕ) : Option (PathArray × Finset ℕ) :=
  let (arr, live) := A.kmalloc live
  (parseBlocks A (getStepCount prev path slash + 1) path live).map fun (slots, live) => (⟨arr, slots⟩, live)

/-- The loop of `fs_free_path`. -/
def freeSlots : List Slot → Finset ℕ → Option (Finset ℕ)
  | [], _ => none
  | none :: _, live => some live
  | some (str, _) :: slots, live => freeSlots slots (kfreeBlock live str)

def fsFreePath (arr : PathArray) (live : Finset ℕ) : Option (Finset ℕ) :=
  (freeSlots arr.slots live).map fun live => kfreeBlock live arr.block

/-! ## `ext2_open_at` -/

section

variable (fs : Ext2Fs) (io : Io) (m : Bytes.Mem)

/-- The exits of the loop that free the array as well. -/
def openFails (arr : PathArray) (nodeBlock : ℕ) (live : Finset ℕ) : Option (ℕ × Finset ℕ) :=
  (fsFreePath arr (kfreeBlock live nodeBlock)).map fun live => (0, live)

/-- The loop, from a place of the array on. -/
def openBlocks (arr : PathArray) (nodeBlock : ℕ) : List Slot → Ext2Inode → ℕ → Finset ℕ → Option (ℕ × Finset ℕ)
  | [], _, _, _ => none
  | none :: _, _, inodeNum, live => some (inodeNum, kfreeBlock live nodeBlock)
  | some (_, step) :: slots, node, _, live =>
    (ext2SearchDir fs io m node step).bind fun
      | none => openFails arr nodeBlock live
      | some entry =>
        let (block, live) := A.kmalloc live
        let live := kfreeBlock live block
        match ext2LoadInode fs io m entry.inode with
        | none => openFails arr nodeBlock live
        | some node => openBlocks arr nodeBlock slots node entry.inode live

def ext2OpenAtBlocks (prev : UInt8) (folderInode : ℕ) (fullPath : List UInt8) (live : Finset ℕ) :
    Option (ℕ × Finset ℕ) :=
  if fullPath = [slash] then some (folderInode, live)
  else
    (fsParsePathBlocks A prev fullPath live).bind fun (arr, live) =>
      let (nodeBlock, live) := A.kmalloc live
      openBlocks A fs io m arr nodeBlock arr.slots ((ext2LoadInode fs io m folderInode).getD ⟨io.garbage⟩) folderInode live

end

end Nettapus
