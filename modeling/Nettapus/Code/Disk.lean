import Nettapus.Code.Base
import Nettapus.Lib.Bytes

/-!
# Disks and drives (`disk/disk.c`, `disk/read-write.c`, `disk/ide/ide-pio.c`)

A disk is a device of 512-byte sectors; a drive is a range of them. A device is a byte
memory: the sector `l` is at `512 * l`. What it does with a command is given: `Io.stops`
says after how many sectors it reports an error, if it does.

The mutex of a disk gives exclusion between the calls. It is not in this model.
-/

namespace Nettapus

open Bytes

def DISK_TYPE_IDE : ℕ := 0

def ERR_DISK : ℕ := 5

/-- The capacities that a device reports. -/
structure IdeDrive where
  lba28Sectors : ℕ
  lba48Sectors : ℕ
  deriving DecidableEq, Repr

structure Disk where
  type : ℕ
  sectorCount : ℕ
  sp : IdeDrive
  deriving DecidableEq, Repr

structure Drive where
  dev : Disk
  startingSector : ℕ
  sectorCount : ℕ
  deriving DecidableEq, Repr

/-- What is outside the program during a call. -/
structure Io where
  /-- The number of sectors of a command (by its first sector and its count) after which the
  device reports an error. -/
  stops : ℕ → ℕ → Option ℕ
  /-- `kmalloc` has no block of this size. -/
  noMem : ℕ → Bool
  /-- The bytes of a new block. -/
  garbage : Mem

/-- No errors, and enough memory. -/
def Io.quiet : Io := ⟨fun _ _ => none, fun _ => false, fun _ => 0⟩

/-- `register_disk`, but for the list. -/
def registerDisk (type : ℕ) (ide : IdeDrive) : Option Disk :=
  if type = DISK_TYPE_IDE then
    some ⟨type, if ide.lba48Sectors ≠ 0 then ide.lba48Sectors else ide.lba28Sectors, ide⟩
  else none

/-- `register_drive`: the result, and the list of drives. -/
def registerDrive (drives : List Drive) (d : Drive) : ℕ × List Drive :=
  if d.startingSector > d.dev.sectorCount then (1, drives)
  else if d.sectorCount > d.dev.sectorCount then (1, drives)
  else if d.sectorCount = 0 then (1, drives)
  else if u64 (d.startingSector + d.sectorCount) > d.dev.sectorCount then (1, drives)
  else (0, d :: drives)

/-! ## The commands -/

/-- The sectors that the loop of `ide_pio_read48` and `ide_pio_write48` gets through. -/
def pioCount (io : Io) (startingLba sectorCount : ℕ) : ℕ :=
  let countl := if sectorCount = 0 then 65536 else sectorCount
  match io.stops startingLba sectorCount with
  | none => countl
  | some k => min k countl

/-- The result of that loop. -/
def pioStatus (io : Io) (startingLba sectorCount : ℕ) : ℕ :=
  if (io.stops startingLba sectorCount).isSome then 1 else 0

/-- The sector that the device finds at the end of `LBA1` to `LBA6`, `i` sectors on. -/
def pioSector (startingLba i : ℕ) : ℕ := (startingLba + i) % 2 ^ 48

/-- The first `n` sectors of a command are read into `buf`. -/
def pioIn (m : Mem) (startingLba : ℕ) (buf : Mem) : ℕ → Mem
  | 0 => buf
  | n + 1 => fun x =>
    if x / 512 = n then m (512 * pioSector startingLba n + x % 512) else pioIn m startingLba buf n x

/-- The first `n` sectors of a command are written from `buf`. -/
def pioOut (m : Mem) (startingLba : ℕ) (buf : Mem) : ℕ → Mem
  | 0 => m
  | n + 1 => fun x =>
    if x / 512 = pioSector startingLba n then buf (512 * n + x % 512) else pioOut m startingLba buf n x

/-- The check of `ide_pio_read48` and `ide_pio_write48`. -/
def pioRefuses (drive : IdeDrive) (startingLba sectorCount : ℕ) : Prop :=
  drive.lba48Sectors < u64 (startingLba + sectorCount)

instance (drive : IdeDrive) (startingLba sectorCount : ℕ) :
    Decidable (pioRefuses drive startingLba sectorCount) :=
  inferInstanceAs (Decidable (_ < _))

def idePioRead48 (drive : IdeDrive) (io : Io) (m : Mem) (startingLba sectorCount : ℕ) (buf : Mem) :
    ℕ × Mem :=
  if pioRefuses drive startingLba sectorCount then (1, buf)
  else (pioStatus io startingLba sectorCount, pioIn m startingLba buf (pioCount io startingLba sectorCount))

def idePioWrite48 (drive : IdeDrive) (io : Io) (m : Mem) (startingLba sectorCount : ℕ) (buf : Mem) :
    ℕ × Mem :=
  if pioRefuses drive startingLba sectorCount then (1, m)
  else (pioStatus io startingLba sectorCount, pioOut m startingLba buf (pioCount io startingLba sectorCount))

/-! ## `drive_read_sectors` and `drive_write_sectors` -/

/-- What the checks of the two functions make of a call. -/
inductive Request
  | invalid
  | empty
  | unhandled
  | other
  | ide (startingLba : ℕ)
  deriving DecidableEq, Repr

/-- The result of a call that asks nothing of the device. -/
def Request.status : Request → ℕ
  | .invalid => ERR_INVALID_PARAM
  | .other => ERR_DISK
  | _ => GENERIC_SUCCESS

variable (d : Drive) (io : Io)

def Drive.request (lba amount : ℕ) : Request :=
  if u64 (lba + amount) > d.dev.sectorCount then .invalid
  else if amount = 0 then .empty
  else if d.dev.type = DISK_TYPE_IDE then
    -- "TODO: handle this" for larger amounts
    if amount < 0xFFFF then .ide (u64 (lba + d.startingSector)) else .unhandled
  else .other

/-- The result, and the buffer. -/
def driveReadSectors (m buf : Mem) (lba amount : ℕ) : ℕ × Mem :=
  match d.request lba amount with
  | .ide startingLba => idePioRead48 d.dev.sp io m startingLba amount buf
  | r => (r.status, buf)

/-- The result, and the device. -/
def driveWriteSectors (m buf : Mem) (lba amount : ℕ) : ℕ × Mem :=
  match d.request lba amount with
  | .ide startingLba => idePioWrite48 d.dev.sp io m startingLba amount buf
  | r => (r.status, m)

/-- The sectors that a call reads or writes. -/
def Drive.sectors (lba amount : ℕ) : List ℕ :=
  match d.request lba amount with
  | .ide startingLba =>
    if pioRefuses d.dev.sp startingLba amount then []
    else (List.range (pioCount io startingLba amount)).map (pioSector startingLba)
  | _ => []

/-! ## Sequences of calls -/

inductive DriveOp
  | read (buf : Mem) (lba amount : ℕ)
  | write (buf : Mem) (lba amount : ℕ)

namespace DriveOp

def lba : DriveOp → ℕ
  | .read _ lba _ => lba
  | .write _ lba _ => lba

def amount : DriveOp → ℕ
  | .read _ _ amount => amount
  | .write _ _ amount => amount

end DriveOp

/-- The device after a call through the drive `d`. -/
def Drive.call (m : Mem) (op : Io × DriveOp) : Mem :=
  match op.2 with
  | .read _ _ _ => m
  | .write buf lba amount => (driveWriteSectors d op.1 m buf lba amount).2

end Nettapus
