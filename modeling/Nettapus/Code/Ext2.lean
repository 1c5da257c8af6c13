import Nettapus.Code.Disk

/-!
# The ext2 driver: blocks, inodes and files (`fs/ext2/blocks.c`, `inodes.c`, `read.c`, `write.c`)

A file system is what `ext2_init_fs` computes from the superblock; the device is a byte
memory. Records of the disk (inodes, group descriptors) are byte memories of their own,
whose fields are loads at the offsets of the packed structures of `include/fs/ext2.h`.

A loop that may go on has fuel, and no result when the fuel is used up.
-/

namespace Nettapus

open Bytes

def ERR_OUT_OF_MEM : ℕ := 7

/-- `struct ext2_fs`, with the fields of the superblock that are used after `ext2_init_fs`. -/
structure Ext2Fs where
  dev : Drive
  inodesInGroup : ℕ
  blocksInGroup : ℕ
  groupDesTableBlock : ℕ
  blockSize : ℕ
  groupCount : ℕ
  deriving DecidableEq, Repr

section

variable (fs : Ext2Fs) (io : Io) (m : Mem)

/-! ## Blocks -/

/-- The buffer, or nothing on an error. -/
def ext2LoadBlocks (buf : Mem) (blockAddr count : ℕ) : Option Mem :=
  let lba := u64 (blockAddr * fs.blockSize) / 512
  let sectorCount := u64 (count * fs.blockSize) / 512
  let r := driveReadSectors fs.dev io m buf lba sectorCount
  if r.1 ≠ GENERIC_SUCCESS then none else some r.2

/-- The result, and the device. -/
def ext2WriteBlocks (buf : Mem) (blockAddr count : ℕ) : ℕ × Mem :=
  let lba := u64 (blockAddr * fs.blockSize) / 512
  let sectorCount := u64 (count * fs.blockSize) / 512
  let r := driveWriteSectors fs.dev io m buf lba sectorCount
  (if r.1 ≠ GENERIC_SUCCESS then ERR_DISK else GENERIC_SUCCESS, r.2)

/-- A block is loaded into a buffer of its own; without memory for it `ext2_load_blocks` refuses. -/
def loadBlock (blockAddr : ℕ) : Option Mem :=
  if io.noMem fs.blockSize then none else ext2LoadBlocks fs io m io.garbage blockAddr 1

/-! ## Group descriptors and inodes -/

/-- `struct ext2_group_des`. -/
structure GroupDes where
  bytes : Mem

namespace GroupDes

def blockBitmapAddr (g : GroupDes) : ℕ := load g.bytes 0 4
def inodeBitmapAddr (g : GroupDes) : ℕ := load g.bytes 4 4
def inodeTableAddr (g : GroupDes) : ℕ := load g.bytes 8 4
def freeBlockCount (g : GroupDes) : ℕ := load g.bytes 12 2
def freeInodeCount (g : GroupDes) : ℕ := load g.bytes 14 2

end GroupDes

/-- `struct ext2_inode`. -/
structure Ext2Inode where
  bytes : Mem

namespace Ext2Inode

def typePerm (i : Ext2Inode) : ℕ := load i.bytes 0 2
def sizeLow (i : Ext2Inode) : ℕ := load i.bytes 4 4
def directBlock (i : Ext2Inode) (n : ℕ) : ℕ := load i.bytes (40 + 4 * n) 4
def singlyIndirect (i : Ext2Inode) : ℕ := load i.bytes 88 4
def sizeHigh (i : Ext2Inode) : ℕ := load i.bytes 108 4

/-- `file_size`. -/
def size (i : Ext2Inode) : ℕ := i.sizeHigh <<< 32 ||| i.sizeLow

end Ext2Inode

/-- `sizeof(struct ext2_group_des)` and `sizeof(struct ext2_inode)`. -/
def groupDesSize : ℕ := 32
def inodeSize : ℕ := 128

def ext2LoadGroupDes (group : ℕ) : Option GroupDes :=
  if group > fs.groupCount then none
  else
    let groupsPerBlock := fs.blockSize / groupDesSize
    let block := group / groupsPerBlock + fs.groupDesTableBlock
    let index := group % groupsPerBlock
    (loadBlock fs io m block).map fun buf => ⟨fun x => buf (index * groupDesSize + x)⟩

/-- Where an inode is: its group, and its index there. -/
def inodeGroup (inodeNum : ℕ) : ℕ := sub64 inodeNum 1 / fs.inodesInGroup
def inodeIndex (inodeNum : ℕ) : ℕ := sub64 inodeNum 1 % fs.inodesInGroup

def ext2LoadInode (inodeNum : ℕ) : Option Ext2Inode :=
  let index := inodeIndex fs inodeNum
  let containingBlock := index * inodeSize / fs.blockSize
  if io.noMem groupDesSize then none
  else
    (ext2LoadGroupDes fs io m (inodeGroup fs inodeNum)).bind fun gd =>
    (loadBlock fs io m (u64 (gd.inodeTableAddr + containingBlock))).map fun buf =>
      ⟨fun x => buf (index % (fs.blockSize / inodeSize) * inodeSize + x)⟩

/-- The block `n` of an inode, and `0` if there is none. -/
def ext2BlockInInode (node : Ext2Inode) (n : ℕ) : ℕ :=
  if n < 12 then node.directBlock n
  else if n < fs.blockSize / 4 then
    match loadBlock fs io m node.singlyIndirect with
    | none => 0
    | some buf => load buf (4 * (n - 12)) 4
  else 0

def ext2GetSize (inodeNum : ℕ) : ℤ :=
  match ext2LoadInode fs io m inodeNum with
  | none => -(ERR_DISK : ℤ)
  | some inode => inode.size

/-! ## `ext2_read_file` -/

/-- What a round of the two loops copies. -/
def toCopy (off bytes : ℕ) : ℕ := if fs.blockSize - off > bytes then bytes else fs.blockSize - off

/-- The loop of `ext2_read_file`, with the bytes that were copied out so far. -/
def readLoop (node : Ext2Inode) : ℕ → Mem → ℕ → ℕ → ℕ → List UInt8 → Option (ℤ × List UInt8)
  | fuel, dataBuf, off, n, block, out =>
    if n = 0 then some (out.length, out)
    else
      match fuel with
      | 0 => none
      | fuel + 1 =>
        let blockAddr := ext2BlockInInode fs io m node block
        if blockAddr = 0 then some (-(ERR_DISK : ℤ), out)
        else
          match ext2LoadBlocks fs io m dataBuf blockAddr 1 with
          | none => some (-(ERR_DISK : ℤ), out)
          | some dataBuf =>
            readLoop node fuel dataBuf 0 (n - toCopy fs off n) (block + 1)
              (out ++ bytes dataBuf off (toCopy fs off n))

/-- The result, and the bytes that were copied to the buffer. -/
def ext2ReadFile (inode off n : ℕ) : Option (ℤ × List UInt8) :=
  if inode ≤ 2 then some (-(ERR_INVALID_PARAM : ℤ), [])
  else
    match ext2LoadInode fs io m inode with
    | none => some (-(ERR_DISK : ℤ), [])
    | some node =>
      if u64 (off + n) > node.size then some (-(ERR_INVALID_PARAM : ℤ), [])
      else if io.noMem fs.blockSize then some (-(ERR_OUT_OF_MEM : ℤ), [])
      else readLoop fs io m node n io.garbage (off % fs.blockSize) n (off / fs.blockSize) []

end

/-! ## `ext2_write_file` -/

section

variable (fs : Ext2Fs) (io : Io)

/-- `memcpy(data_buf + off, src, n)`. -/
def patch (buf : Mem) (off n : ℕ) (src : Mem) : Mem :=
  fun x => if off ≤ x ∧ x < off + n then src (x - off) else buf x

/-- The loop of `ext2_write_file`, with the amount that was written so far. -/
def writeLoop (node : Ext2Inode) :
    ℕ → Mem → Mem → Mem → ℕ → ℕ → ℕ → ℕ → Option (ℤ × Mem)
  | fuel, m, dataBuf, src, off, n, block, written =>
    if n = 0 then some (written, m)
    else
      match fuel with
      | 0 => none
      | fuel + 1 =>
        let blockAddr := ext2BlockInInode fs io m node block
        if blockAddr = 0 then some (written, m)
        else
          -- the old block is loaded if the write starts behind its first byte
          match if off > 0 then ext2LoadBlocks fs io m dataBuf blockAddr 1 else some dataBuf with
          | none => some (-(ERR_DISK : ℤ), m)
          | some dataBuf =>
            let k := toCopy fs off n
            let dataBuf := patch dataBuf off k src
            let r := ext2WriteBlocks fs io m dataBuf blockAddr 1
            if r.1 ≠ GENERIC_SUCCESS then some (-(ERR_DISK : ℤ), r.2)
            else writeLoop node fuel r.2 dataBuf (fun x => src (k + x)) 0 (n - k) (block + 1) (written + k)

/-- The result, and the device. -/
def ext2WriteFile (m : Mem) (inode : ℕ) (src : Mem) (off n : ℕ) : Option (ℤ × Mem) :=
  if inode < 2 then some (-(ERR_INVALID_PARAM : ℤ), m)
  else
    match ext2LoadInode fs io m inode with
    | none => some (-(ERR_DISK : ℤ), m)
    | some node =>
      if u64 (off + n) > node.size then some (-(ERR_INVALID_PARAM : ℤ), m)
      else if io.noMem fs.blockSize then some (-(ERR_OUT_OF_MEM : ℤ), m)
      else writeLoop fs io node n m io.garbage src (off % fs.blockSize) n (off / fs.blockSize) 0

end

end Nettapus
