import Nettapus.Code.Ext2
import Nettapus.Code.Path

/-!
# ext2 directories (`fs/ext2/list.c`, `open.c`, `mknod.c`, `inodes.c`, `blocks.c`)

A directory is a file of records: the inode number, the size of the record, the length of the name, the
type, and the name without a `NUL`. A buffer with a block of it is a memory, so that a
loop that runs over the end of the block reads what is behind the buffer.

No result stands for a call that does not return: a loop without end, or a write through a null
pointer.
-/

namespace Nettapus

open Bytes

/-- `struct ext2_dir_entry`. -/
structure Ext2DirEntry where
  inode : ℕ
  size : ℕ
  nameLen : ℕ
  type : ℕ
  nm : UInt8
  deriving DecidableEq, Repr

/-- `sizeof(struct ext2_dir_entry)`. -/
def dirEntrySize : ℕ := 9

/-- The record at `i`. -/
def dirEntry (buf : Mem) (i : ℕ) : Ext2DirEntry :=
  ⟨load buf i 4, load buf (i + 4) 2, load buf (i + 6) 1, load buf (i + 7) 1, buf (i + 8)⟩

/-- Its name. -/
def entryName (buf : Mem) (i : ℕ) : List UInt8 := bytes buf (i + 8) (dirEntry buf i).nameLen

/-- `strlen`, up to the end of the address space. -/
def strlenLoop (buf : Mem) : ℕ → ℕ → Option ℕ
  | 0, _ => none
  | fuel + 1, a => if buf a = 0 then some 0 else (strlenLoop buf fuel (a + 1)).map (· + 1)

def strlen (buf : Mem) (a : ℕ) : Option ℕ := strlenLoop buf (2 ^ 64) a

section

variable (fs : Ext2Fs) (io : Io) (m : Mem)

/-! ## `ext2_list_files` and `ext2_list_folders` -/

/-- `sizeof(struct file_tnode)`. -/
def tnodeSize : ℕ := 24

/-- The name for a new tnode: there must be memory for both. -/
def newTnode (name : Option (List UInt8)) : Option (List UInt8) :=
  name.bind fun name => if io.noMem tnodeSize || io.noMem (name.length + 1) then none else some name

/-- The records of a block from `i` on: the names of those to `keep`, after the ones that there are.
`true` is the jump to `done`. -/
def listBlock (keep : Ext2DirEntry → Bool) (name : ℕ → Option (List UInt8)) (buf : Mem) :
    ℕ → ℕ → List (List UInt8) → Option (Bool × List (List UInt8))
  | 0, _, _ => none
  | fuel + 1, i, names =>
    let entry := dirEntry buf i
    if entry.size < dirEntrySize then some (true, names)
    else
      (if keep entry then (newTnode io (name i)).map fun n => names ++ [n] else some names).bind fun names =>
        if i + entry.size ≥ fs.blockSize then some (false, names)
        else listBlock keep name buf fuel (i + entry.size) names

/-- The blocks from `block` on. The result is `count` and the list. -/
def listLoop (keep : Ext2DirEntry → Bool) (name : ℕ → Mem → ℕ → Option (List UInt8)) (parent : Ext2Inode) :
    ℕ → ℕ → Mem → List (List UInt8) → Option (ℕ × List (List UInt8))
  | 0, _, _, _ => none
  | fuel + 1, block, buf, names =>
    let blockAddr := ext2BlockInInode fs io m parent block
    if blockAddr = 0 then some (names.length, names)
    else
      match if io.noMem fs.blockSize then none else ext2LoadBlocks fs io m buf blockAddr 1 with
      | none => some (names.length, [])
      | some buf =>
        (listBlock fs io keep (name block buf) buf fs.blockSize 0 names).bind fun r =>
          if r.1 then some (r.2.length, r.2)
          else listLoop keep name parent fuel (block + 1) buf r.2

/-- What the two functions have in common. -/
def listDir (keep : Ext2DirEntry → Bool) (name : ℕ → Mem → ℕ → Option (List UInt8)) (inode count : ℕ) :
    Option (ℕ × List (List UInt8)) :=
  if inode < 2 then some (count, [])
  else if io.noMem inodeSize then some (count, [])
  else
    match ext2LoadInode fs io m inode with
    | none => some (count, [])
    | some parent => listLoop fs io m keep name parent (fs.blockSize / 4 + 13) 0 io.garbage []

/-- The buffer, and what is behind it when the name of a record is copied. -/
def withBehind (behind : ℕ → ℕ → Mem) (block : ℕ) (buf : Mem) (i : ℕ) : Mem :=
  fun x => if x < fs.blockSize then buf x else behind block i x

/-- The name is what `strlen` finds at the record. The new tnodes are put anywhere, so the memory
behind the buffer is given for each record. -/
def ext2ListFiles (behind : ℕ → ℕ → Mem) (inode count : ℕ) : Option (ℕ × List (List UInt8)) :=
  listDir fs io m (fun entry => entry.type ≠ 2)
    (fun block buf i =>
      (strlen (withBehind fs behind block buf i) (i + 8)).map (bytes (withBehind fs behind block buf i) (i + 8)))
    inode count

/-- The name has `name_len` bytes; as a string it ends at the first `NUL`. -/
def ext2ListFolders (inode count : ℕ) : Option (ℕ × List (List UInt8)) :=
  listDir fs io m (fun entry => entry.type = 2) (fun _ buf i => some (cString (entryName buf i))) inode count

/-! ## `ext2_search_dir` and `ext2_open_at` -/

/-- What the loop over a block comes to. -/
inductive Search
  | fail
  | next
  | success (entry : Ext2DirEntry)
  deriving DecidableEq, Repr

def searchBlock (fileName : List UInt8) (buf : Mem) : ℕ → ℕ → Option Search
  | 0, _ => none
  | fuel + 1, i =>
    let entry := dirEntry buf i
    if entry.size > fs.blockSize then some .fail
    else if cString (entryName buf i) = fileName then some (.success entry)
    else if i + entry.size ≥ fs.blockSize then some .next
    else searchBlock fileName buf fuel (i + entry.size)

def searchLoop (fileName : List UInt8) (dirNode : Ext2Inode) : ℕ → ℕ → Mem → Option (Option Ext2DirEntry)
  | 0, _, _ => none
  | fuel + 1, block, dir =>
    let blockAddr := ext2BlockInInode fs io m dirNode block
    if blockAddr = 0 then some none
    else
      match if io.noMem fs.blockSize then none else ext2LoadBlocks fs io m dir blockAddr 1 with
      | none => some none
      | some dir =>
        (searchBlock fs fileName dir fs.blockSize 0).bind fun
          | .fail => some none
          | .success entry => if io.noMem dirEntrySize then none else some (some entry)
          | .next => searchLoop fileName dirNode fuel (block + 1) dir

def ext2SearchDir (dirNode : Ext2Inode) (fileName : List UInt8) : Option (Option Ext2DirEntry) :=
  if dirNode.typePerm &&& 0x4000 = 0 then some none
  else searchLoop fs io m fileName dirNode (fs.blockSize / 4 + 13) 0 io.garbage

/-- The steps of a path, from the directory `inodeNum`. -/
def openSteps : List (List UInt8) → Ext2Inode → ℕ → Option ℕ
  | [], _, inodeNum => some inodeNum
  | step :: steps, node, _ =>
    (ext2SearchDir fs io m node step).bind fun
      | none => some 0
      | some entry =>
        match ext2LoadInode fs io m entry.inode with
        | none => some 0
        | some node => openSteps steps node entry.inode

/-- `0` is an error. A first inode that does not load leaves new memory in its place. -/
def ext2OpenAt (prev : UInt8) (folderInode : ℕ) (fullPath : List UInt8) : Option ℕ :=
  if fullPath = [slash] then some folderInode
  else if io.noMem inodeSize then none
  else
    (fsParsePath prev fullPath).bind fun arr =>
      openSteps fs io m arr ((ext2LoadInode fs io m folderInode).getD ⟨io.garbage⟩) folderInode

end

end Nettapus
