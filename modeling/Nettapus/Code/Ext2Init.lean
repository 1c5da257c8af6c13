import Nettapus.Code.Ext2

/-!
# Recognizing a file system (`fs/ext2/init.c`)

`ext2_init_fs` reads the superblock, which is in the sector 2 of the drive, and computes the numbers that the
rest of the driver works with. A run can also end in the middle: at a shift that C does not define, at a division
by zero, or at a write through a pointer that `kmalloc` left `NULL`.
-/

namespace Nettapus

open Bytes

def ERR_INCOMPAT_PARAM : ℕ := 2

/-- `struct ext2_superblock`. -/
structure Ext2Superblock where
  bytes : Mem

namespace Ext2Superblock

def inodeCount (sb : Ext2Superblock) : ℕ := load sb.bytes 0 4
def blockCount (sb : Ext2Superblock) : ℕ := load sb.bytes 4 4
def superBlockNum (sb : Ext2Superblock) : ℕ := load sb.bytes 20 4
def log2BlockSize (sb : Ext2Superblock) : ℕ := load sb.bytes 24 4
def blocksInGroup (sb : Ext2Superblock) : ℕ := load sb.bytes 32 4
def inodesInGroup (sb : Ext2Superblock) : ℕ := load sb.bytes 40 4
def ext2Signature (sb : Ext2Superblock) : ℕ := load sb.bytes 56 2
def majorVersion (sb : Ext2Superblock) : ℕ := load sb.bytes 76 4
def inodeStructSize (sb : Ext2Superblock) : ℕ := load sb.bytes 88 4

end Ext2Superblock

/-- How a call of `ext2_init_fs` ends: with a status and `fs->special`, or before it returns. -/
inductive InitResult
  | badShift
  | divByZero
  | nullWrite
  | ret (status : ℕ) (special : Option Ext2Fs)
  deriving DecidableEq, Repr

/-- `1024 << k`, as an `int`: defined if the width of an `int` is larger than `k` and the result is one. -/
def shift1024 (k : ℕ) : Option ℕ := if k < 32 ∧ 1024 * 2 ^ k < 2 ^ 31 then some (1024 * 2 ^ k) else none

/-- `count / n + !!(count % n)`. -/
def groupsOf (count n : ℕ) : Option ℕ := if n = 0 then none else some (count / n + if count % n ≠ 0 then 1 else 0)

/-- `sizeof(struct ext2_fs)`. -/
def ext2FsSize : ℕ := 32

/-- `ext2_init_fs` once the superblock is accepted. -/
def fsOfSuperblock (dev : Drive) (sb : Ext2Superblock) (special : Option Ext2Fs) : InitResult :=
  match shift1024 sb.log2BlockSize with
  | none => .badShift
  | some blockSize =>
    match groupsOf sb.inodeCount sb.inodesInGroup with
    | none => .divByZero
    | some groupCount =>
      match groupsOf sb.blockCount sb.blocksInGroup with
      | none => .divByZero
      | some n =>
        if groupCount ≠ n then .ret ERR_INCOMPAT_PARAM special
        else .ret GENERIC_SUCCESS (some
          { dev := dev
            inodesInGroup := sb.inodesInGroup
            blocksInGroup := sb.blocksInGroup
            groupDesTableBlock := if blockSize = 1024 then 2 else 1
            blockSize := blockSize
            groupCount := groupCount })

/-- `fs->special` is `special` before the call. -/
def ext2InitFs (dev : Drive) (io : Io) (m : Mem) (special : Option Ext2Fs) : InitResult :=
  -- without memory for the superblock `drive_read_sectors` refuses
  if io.noMem 512 then .ret ERR_DISK special
  else
    let r := driveReadSectors dev io m io.garbage 2 1
    if r.1 ≠ GENERIC_SUCCESS then .ret ERR_DISK special
    else
      let sb : Ext2Superblock := ⟨r.2⟩
      if sb.ext2Signature ≠ 0xef53 then .ret ERR_INCOMPAT_PARAM special
      else if io.noMem ext2FsSize then .nullWrite
      else fsOfSuperblock dev sb special

/-- `ext2_check_drive`. -/
def ext2CheckDrive (d : Drive) (io : Io) (m : Mem) : ℕ :=
  if io.noMem 512 then ERR_DISK
  else
    let r := driveReadSectors d io m io.garbage 2 1
    if r.1 ≠ GENERIC_SUCCESS then ERR_DISK
    else if Ext2Superblock.ext2Signature ⟨r.2⟩ ≠ 0xef53 then ERR_INCOMPAT_PARAM
    else GENERIC_SUCCESS

end Nettapus
