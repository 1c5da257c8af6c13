import Nettapus.Code.Ext2Dir

/-!
# Making a node (`fs/ext2/mknod.c`, `inodes.c`, `blocks.c`)

`ext2_mknod` looks for a record of size 0 in the first block of the directory, takes an inode and a block
from the bitmaps, and writes the inode and the record.
-/

namespace Nettapus

open Bytes

def ERR_NO_RESULT : ℕ := 4

variable (fs : Ext2Fs) (io : Io)

/-! ## The bitmaps -/

/-- `to_read`: the blocks of a bitmap of `n` bits that are read. -/
def bitmapBlocks (n : ℕ) : ℕ := n / fs.blockSize / 8 + if n % fs.blockSize ≠ 0 then 1 else 0

def bitClear (buf : Mem) (j : ℕ) : Bool := buf (j / 8) &&& 1 <<< UInt8.ofNat (j % 8) = 0

def setBit (buf : Mem) (j : ℕ) : Mem := Function.update buf (j / 8) (buf (j / 8) ||| 1 <<< UInt8.ofNat (j % 8))

/-- A bitmap is read into the buffer, if there is one. -/
def loadBitmap (m buf : Mem) (addr toRead : ℕ) : Option Mem :=
  if io.noMem (u64 (toRead * fs.blockSize)) then none else ext2LoadBlocks fs io m buf addr toRead

/-- The groups from `i` on, `k` of them. The result, and the device. -/
def allocInodeLoop (m : Mem) : ℕ → ℕ → Mem → ℕ × Mem
  | 0, _, _ => (0, m)
  | k + 1, i, buf =>
    match ext2LoadGroupDes fs io m i with
    | none => (0, m)
    | some gdes =>
      if gdes.freeInodeCount = 0 then allocInodeLoop m k (i + 1) buf
      else
        match loadBitmap fs io m buf gdes.inodeBitmapAddr (bitmapBlocks fs fs.inodesInGroup) with
        | none => (0, m)
        | some buf =>
          match (List.range fs.inodesInGroup).find? (bitClear buf) with
          | none => allocInodeLoop m k (i + 1) buf
          | some j =>
            (u64 (i * fs.inodesInGroup + j),
              (ext2WriteBlocks fs io m (setBit buf j) gdes.inodeBitmapAddr (bitmapBlocks fs fs.inodesInGroup)).2)

def ext2AllocInode (m : Mem) : ℕ × Mem := allocInodeLoop fs io m fs.groupCount 0 io.garbage

/-- The groups from `i` on, `k` of them, for `count` more blocks. The result, the blocks for `ret`, and the
device. -/
def allocBlocksLoop : ℕ → ℕ → ℕ → Mem → Mem → List ℕ → ℕ × List ℕ × Mem
  | 0, _, _, _, m, ret => (ERR_NO_RESULT, ret, m)
  | k + 1, i, count, buf, m, ret =>
    match ext2LoadGroupDes fs io m i with
    | none => (ERR_NO_RESULT, ret, m)
    | some gdes =>
      if count > gdes.freeBlockCount then allocBlocksLoop k (i + 1) count buf m ret
      else
        match loadBitmap fs io m buf gdes.blockBitmapAddr (bitmapBlocks fs fs.blocksInGroup) with
        | none => (ERR_NO_RESULT, ret, m)
        | some buf =>
          let js := ((List.range fs.blocksInGroup).filter (bitClear buf)).take count
          let buf := js.foldl setBit buf
          let ret := ret ++ js.map fun j => u64 (i * fs.blocksInGroup + j) % 2 ^ 32
          let m := (ext2WriteBlocks fs io m buf gdes.blockBitmapAddr (bitmapBlocks fs fs.blocksInGroup)).2
          if count = js.length then (GENERIC_SUCCESS, ret, m)
          else allocBlocksLoop k (i + 1) (count - js.length) buf m ret

/-- For a positive `count`. -/
def ext2AllocBlocks (m : Mem) (count : ℕ) : ℕ × List ℕ × Mem :=
  allocBlocksLoop fs io fs.groupCount 0 count io.garbage m []

/-! ## `ext2_write_inode` -/

/-- The result, and the device. -/
def ext2WriteInode (m : Mem) (inode : Ext2Inode) (inodeNum : ℕ) : ℕ × Mem :=
  let index := inodeIndex fs inodeNum
  let offset := index * inodeSize % fs.blockSize
  match ext2LoadGroupDes fs io m (inodeGroup fs inodeNum) with
  | none => (ERR_DISK, m)
  | some gdes =>
    let block := u64 (index * inodeSize / fs.blockSize + gdes.inodeTableAddr)
    match loadBlock fs io m block with
    | none => (ERR_DISK, m)
    | some buf => ext2WriteBlocks fs io m (patch buf offset inodeSize inode.bytes) block 1

/-! ## `ext2_mknod` -/

/-- The first record of size 0 from `i` on, in the block or behind it. -/
def slotSearch (buf : Mem) : ℕ → ℕ → Option ℕ
  | 0, _ => none
  | fuel + 1, i =>
    let entry := dirEntry buf i
    if entry.size = 0 then some i else slotSearch buf fuel (i + entry.size)

/-- The new inode. `bptr` counts in words of four bytes, and is 160 bytes behind the beginning. -/
def newInode (typePerm uid gid : ℕ) (blocks : List ℕ) : Ext2Inode :=
  let inode := store (fun _ => 0) 0 typePerm 2
  let inode := match blocks with
    | [] => inode
    | b :: _ => store inode (4 * 40) b 4
  let inode := store inode 2 uid 2
  let inode := store inode 24 gid 2
  let inode := store inode 26 1 2
  ⟨store inode 28 (fs.blockSize / 512) 4⟩

/-- The record at `i` is filled in. The type is a shift of a 16-bit number by 24. -/
def putEntry (buf : Mem) (i inodeNum typePerm : ℕ) (fileName : List UInt8) : Mem :=
  let nameLen := fileName.length % 256
  let buf := store buf i inodeNum 4
  let buf := store buf (i + 6) nameLen 1
  let buf := store buf (i + 4) (nameLen + 8) 2
  let buf := store buf (i + 7) (typePerm >>> 24) 1
  patch buf (i + 8) (nameLen + 1) fun x => fileName.getD x 0

/-- The result, and the device. -/
def ext2Mknod (m : Mem) (parentInode : ℕ) (fileName : List UInt8) (typePerm uid gid : ℕ) : Option (ℕ × Mem) :=
  if parentInode < 2 then some (0, m)
  else if io.noMem inodeSize then none
  else
    -- whether the parent loads is not looked at
    let parent := (ext2LoadInode fs io m parentInode).getD ⟨io.garbage⟩
    let blockAddr := ext2BlockInInode fs io m parent 0
    match loadBlock fs io m blockAddr with
    | none => some (0, m)
    | some buf =>
      (slotSearch buf (2 ^ 64) 0).map fun i =>
        let alloc := ext2AllocInode fs io m
        let blocks := ext2AllocBlocks fs io alloc.2 1
        let put := ext2WriteInode fs io blocks.2.2 (newInode fs typePerm uid gid blocks.2.1) alloc.1
        if put.1 ≠ GENERIC_SUCCESS then (0, put.2)
        else
          let w := ext2WriteBlocks fs io put.2 (putEntry buf i alloc.1 typePerm fileName) blockAddr 1
          if w.1 ≠ GENERIC_SUCCESS then (0, w.2) else (GENERIC_SUCCESS, w.2)

end Nettapus
