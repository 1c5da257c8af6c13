import Nettapus.Code.Ext2Mknod
import Nettapus.Lib.Scan

/-!
# What the directory loops read (`fs/ext2/open.c`, `list.c`, `mknod.c`)

The four loops over the records of a directory once more, with the offsets in the block buffer that they read. The
body of each loop is a look at the record at an offset: what it reads of the header and of the name, and whether it
goes on at the next record, or what the loop over this block comes to.

There is memory for the tnodes here. A `strlen` that finds no end of the string reads all the memory behind.
-/

namespace Nettapus

open Bytes Scan

/-! ## The bodies of the loops -/

/-- `entry->size`. -/
def sizeReads (i : ℕ) : List ℕ := [i + 4, i + 5]

/-- `memcpy(buf, &entry->nm, entry->name_len)`. -/
def nameReads (buf : Mem) (i : ℕ) : List ℕ := (i + 6) :: (List.range (dirEntry buf i).nameLen).map (i + 8 + ·)

/-- `ext2_search_dir`. When the name is found, the record is copied. -/
def searchLook (fs : Ext2Fs) (fileName : List UInt8) (buf : Mem) (i : ℕ) : List ℕ × Next Search :=
  let entry := dirEntry buf i
  if entry.size > fs.blockSize then (sizeReads i, .stop .fail)
  else if cString (entryName buf i) = fileName then
    (sizeReads i ++ nameReads buf i ++ (List.range dirEntrySize).map (i + ·), .stop (.success entry))
  else (sizeReads i ++ nameReads buf i, if i + entry.size ≥ fs.blockSize then .stop .next else .goOn (i + entry.size))

/-- What `ext2_list_files` and `ext2_list_folders` have in common. `true` is the jump to `done`. -/
def listLook (fs : Ext2Fs) (keep : Ext2DirEntry → Bool) (name : ℕ → List ℕ) (buf : Mem) (i : ℕ) : List ℕ × Next Bool :=
  let entry := dirEntry buf i
  if entry.size < dirEntrySize then (sizeReads i, .stop true)
  else (sizeReads i ++ [i + 7] ++ if keep entry then name i else [],
    if i + entry.size ≥ fs.blockSize then .stop false else .goOn (i + entry.size))

/-- The search for a slot in `ext2_mknod`. -/
def slotLook (buf : Mem) (i : ℕ) : List ℕ × Next ℕ :=
  (sizeReads i, if (dirEntry buf i).size = 0 then .stop i else .goOn (i + (dirEntry buf i).size))

/-! ## The loops over the blocks -/

section

variable {ρ : Type} (fs : Ext2Fs) (io : Io) (m : Mem)

/-- The blocks from `block` on, with fuel for the loop over a block and for this one. `more` says whether the loop goes
on with the next block. -/
def dirReads (look : ℕ → Mem → ℕ → List ℕ × Next ρ) (more : ρ → Bool) (node : Ext2Inode) (fuel : ℕ) :
    ℕ → ℕ → Mem → Option (List ℕ)
  | 0, _, _ => none
  | n + 1, block, buf =>
    let blockAddr := ext2BlockInInode fs io m node block
    if blockAddr = 0 then some []
    else
      match if io.noMem fs.blockSize then none else ext2LoadBlocks fs io m buf blockAddr 1 with
      | none => some []
      | some buf => (scan (look block buf) fuel 0).bind fun r =>
        if more r.2 then (dirReads look more node fuel n (block + 1) buf).map (r.1 ++ ·) else some r.1

/-- The reads of `ext2_search_dir`. -/
def searchDirReads (fileName : List UInt8) (dirNode : Ext2Inode) (fuel n : ℕ) : Option (List ℕ) :=
  if dirNode.typePerm &&& 0x4000 = 0 then some []
  else dirReads fs io m (fun _ => searchLook fs fileName) (· = .next) dirNode fuel n 0 io.garbage

/-- The reads of `ext2_list_files` and of `ext2_list_folders`. -/
def listDirReads (look : ℕ → Mem → ℕ → List ℕ × Next Bool) (inode fuel n : ℕ) : Option (List ℕ) :=
  if inode < 2 then some []
  else if io.noMem inodeSize then some []
  else
    match ext2LoadInode fs io m inode with
    | none => some []
    | some parent => dirReads fs io m look (! ·) parent fuel n 0 io.garbage

/-- The block that `ext2_mknod` searches for a slot: the first one, and also if its address is 0. Without memory for the
inode of the parent, the pointer to it is null; an inode that loads is copied there. -/
def slotBlock (parentInode : ℕ) : Option ℕ :=
  let parent := ext2LoadInode fs io m parentInode
  if io.noMem inodeSize then if parent.isSome then none else some 0
  else some (ext2BlockInInode fs io m (parent.getD ⟨io.garbage⟩) 0)

/-- The reads of this search. -/
def mknodReads (parentInode fuel : ℕ) : Option (List ℕ) :=
  if parentInode < 2 then some []
  else
    match (slotBlock fs io m parentInode).bind (loadBlock fs io m) with
    | none => some []
    | some buf => (scan (slotLook buf) fuel 0).map Prod.fst

end

end Nettapus
