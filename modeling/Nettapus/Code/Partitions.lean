import Nettapus.Code.Ext2Init
import Nettapus.Lib.Words

/-!
# Partitions (`disk/partitions.c`, `disk/drives/drive.c`, `register_drives` in `disk/disk.c`)

The type of a drive says what is on it; only the list of drives and the checks below know of it.
Each access to the device has what is outside the program of its own.
-/

namespace Nettapus

open Bytes Words

def DRIVE_TYPE_RAW : ℕ := 0
def DRIVE_TYPE_MBR : ℕ := 1
def DRIVE_TYPE_GPT : ℕ := 2
def DRIVE_TYPE_FS : ℕ := 3

/-- A drive with its type. -/
structure TypedDrive extends Drive where
  type : ℕ
  deriving DecidableEq, Repr

/-- What is outside the program while a drive is made and checked. -/
structure DriveIo where
  /-- Up to the read of sector 1. -/
  gpt : Io
  /-- While `fs_check_drive` runs. -/
  fs : Io

/-- `"EFI PART"`. -/
def efiPart : List UInt8 := [0x45, 0x46, 0x49, 0x20, 0x50, 0x41, 0x52, 0x54]

/-- `check_drive`. The only driver of a file system is the one of ext2. -/
def checkDrive (d : Drive) (io : DriveIo) (m : Mem) : ℕ :=
  -- without memory for the sector `drive_read_sectors` refuses
  if io.gpt.noMem 512 then DRIVE_TYPE_RAW
  else
    let r := driveReadSectors d io.gpt m io.gpt.garbage 1 1
    if r.1 ≠ GENERIC_SUCCESS then DRIVE_TYPE_RAW
    else if bytes r.2 0 8 = efiPart then DRIVE_TYPE_GPT
    else if ext2CheckDrive d io.fs m = GENERIC_SUCCESS then DRIVE_TYPE_FS
    else DRIVE_TYPE_MBR

/-- The place of an entry. -/
def mbrEntry (i : ℕ) : ℕ := 0x1BE + i * 0x10

/-- `mbre[k] | (mbre[k + 1] << 8) | (mbre[k + 2] << 16) | (mbre[k + 3] << 24)`, an `int`, as a `size_t`. -/
def mbrSize (mbr : Mem) (a : ℕ) : ℕ :=
  extend ((mbr a).toNat ||| (mbr (a + 1)).toNat <<< 8 ||| (mbr (a + 2)).toNat <<< 16 ||| (mbr (a + 3)).toNat <<< 24)

/-- The range of an entry. -/
def mbrDrive (dev : Disk) (mbr : Mem) (i : ℕ) : Drive :=
  ⟨dev, mbrSize mbr (mbrEntry i + 8), mbrSize mbr (mbrEntry i + 12)⟩

end Nettapus
