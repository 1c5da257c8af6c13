import Nettapus.Code.Ext2Mknod

/-!
# What the inode functions touch (`fs/ext2/blocks.c`, `inodes.c`)

`ext2_load_group_des`, `ext2_load_inode` and `ext2_write_inode` once more, with the sectors of the disk that they read
or write, in order.
-/

namespace Nettapus

open Bytes

variable (fs : Ext2Fs) (io : Io) (m : Mem)

/-- The sectors that `ext2_load_blocks` or `ext2_write_blocks` read or write for one block. -/
def blockSectors (blockAddr : ℕ) : List ℕ :=
  fs.dev.sectors io (u64 (blockAddr * fs.blockSize) / 512) (u64 (1 * fs.blockSize) / 512)

/-- Without a buffer `ext2_load_blocks` does not get to the drive. -/
def loadBlockTouch (blockAddr : ℕ) : List ℕ × Option Mem :=
  (if io.noMem fs.blockSize then [] else blockSectors fs io blockAddr, loadBlock fs io m blockAddr)

def loadGroupDesTouch (group : ℕ) : List ℕ × Option GroupDes :=
  if group > fs.groupCount then ([], none)
  else
    let groupsPerBlock := fs.blockSize / groupDesSize
    let block := group / groupsPerBlock + fs.groupDesTableBlock
    let index := group % groupsPerBlock
    let (touched, buf) := loadBlockTouch fs io m block
    (touched, buf.map fun buf => ⟨fun x => buf (index * groupDesSize + x)⟩)

/-- `ext2_load_inode` for the inode `index` of a group. -/
def loadInodeAtTouch (group index : ℕ) : List ℕ × Option Ext2Inode :=
  let containingBlock := index * inodeSize / fs.blockSize
  if io.noMem groupDesSize then ([], none)
  else
    match loadGroupDesTouch fs io m group with
    | (touched, none) => (touched, none)
    | (touched, some gd) =>
      let (touched', buf) := loadBlockTouch fs io m (u64 (gd.inodeTableAddr + containingBlock))
      (touched ++ touched', buf.map fun buf =>
        ⟨fun x => buf (index % (fs.blockSize / inodeSize) * inodeSize + x)⟩)

def loadInodeTouch (inodeNum : ℕ) : List ℕ × Option Ext2Inode :=
  loadInodeAtTouch fs io m (inodeGroup fs inodeNum) (inodeIndex fs inodeNum)

/-- `ext2_write_inode` for the inode `index` of a group: the sectors, the result, and the device. -/
def writeInodeAtTouch (inode : Ext2Inode) (group index : ℕ) : List ℕ × ℕ × Mem :=
  let offset := index * inodeSize % fs.blockSize
  match loadGroupDesTouch fs io m group with
  | (touched, none) => (touched, ERR_DISK, m)
  | (touched, some gdes) =>
    let block := u64 (index * inodeSize / fs.blockSize + gdes.inodeTableAddr)
    match loadBlockTouch fs io m block with
    | (touched', none) => (touched ++ touched', ERR_DISK, m)
    | (touched', some buf) =>
      (touched ++ touched' ++ blockSectors fs io block,
        ext2WriteBlocks fs io m (patch buf offset inodeSize inode.bytes) block 1)

def writeInodeTouch (inode : Ext2Inode) (inodeNum : ℕ) : List ℕ × ℕ × Mem :=
  writeInodeAtTouch fs io m inode (inodeGroup fs inodeNum) (inodeIndex fs inodeNum)

end Nettapus
