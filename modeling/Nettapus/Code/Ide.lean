import Nettapus.Code.Disk
import Nettapus.Lib.Words

/-!
# Finding the disks (`disk/ide/ide.c`)

A bus has two channels of two devices each. What the hardware answers is given with the
channel, and memory for the list is there.
-/

namespace Nettapus

open Words

/-- What a device answers to an identify command, once it is not busy. -/
structure IdeAnswer where
  /-- The status after the command. -/
  status : UInt8
  lbaMid : UInt8
  lbaHi : UInt8
  /-- The statuses of the second loop. -/
  polls : List UInt8
  /-- The words that can then be read. -/
  words : Fin 256 → UInt16

/-- Whether the second loop ends with `DRQ`. -/
def pollDrq : List UInt8 → Bool
  | [] => false
  | stat :: polls => if stat &&& 8 ≠ 0 then true else if stat &&& 1 ≠ 0 then false else pollDrq polls

/-- `ide_identify_noid`: the words in `buf`, if the disk exists. -/
def ideIdentifyNoid (a : IdeAnswer) : Option (Fin 256 → UInt16) :=
  if a.status = 0 then none
  else if a.lbaMid ≠ 0 ∨ a.lbaHi ≠ 0 then none
  else if pollDrq a.polls then some a.words
  else none

structure IdeChannel where
  ioBase : ℕ
  controlBase : ℕ
  /-- The status before anything is sent. -/
  stat : UInt8
  master : IdeAnswer
  slave : IdeAnswer

structure IdeBus where
  primary : IdeChannel
  secondary : IdeChannel

/-- An entry of the list of disks. -/
structure IdeNode extends IdeDrive where
  driveId : ℕ
  ioPortBase : ℕ
  controlPortBase : ℕ
  slave : ℕ
  deriving DecidableEq, Repr

/-- `ide_register_disk`. An entry that is refreshed gets the `next` of the new one, which is `NULL`. -/
def ideRegisterDisk (ndrive : IdeNode) : List IdeNode → List IdeNode
  | [] => [ndrive]
  | i :: next => if i.driveId = ndrive.driveId then [ndrive] else i :: ideRegisterDisk ndrive next

/-- `buf[60] | (buf[61] << 16)`, an `int`. -/
def joinInt (lo hi : UInt16) : ℕ := lo.toNat ||| hi.toNat <<< 16

instance neZero256 : NeZero 256 := ⟨by decide⟩

def maxLba28 (buf : Fin 256 → UInt16) : ℕ := joinInt (buf 60) (buf 61)

/-- The first two words are joined as an `int` before the `uint64_t` words are. -/
def maxLba48 (buf : Fin 256 → UInt16) : ℕ :=
  extend (joinInt (buf 100) (buf 101)) ||| (buf 102).toNat <<< 32 ||| (buf 103).toNat <<< 48

namespace IdeChannel

variable (c : IdeChannel)

/-- The new entry of a device. -/
def node (id slave : ℕ) (buf : Fin 256 → UInt16) : IdeNode :=
  ⟨⟨maxLba28 buf, maxLba48 buf⟩, id, c.ioBase, c.controlBase, slave⟩

def registerDisk (id slave : ℕ) (a : IdeAnswer) (drives : List IdeNode) : List IdeNode :=
  match ideIdentifyNoid a with
  | none => drives
  | some buf => ideRegisterDisk (c.node id slave buf) drives

/-- The part of `ide_refresh_disks` for one channel. -/
def registerDisks (id : ℕ) (drives : List IdeNode) : List IdeNode :=
  if c.stat ≠ 0xFF ∧ c.stat ≠ 0x7F then
    c.registerDisk (id + 1) 1 c.slave (c.registerDisk id 0 c.master drives)
  else drives

end IdeChannel

/-- The loop of `ide_refresh_disks`. The number of a bus has 8 bits. -/
def ideRefreshLoop (i : UInt8) : List IdeBus → List IdeNode → List IdeNode
  | [], drives => drives
  | ibus :: next, drives =>
    ideRefreshLoop (i + 1) next
      (ibus.secondary.registerDisks (i.toNat * 4 + 2) (ibus.primary.registerDisks (i.toNat * 4) drives))

/-- `ide_refresh_disks`: the list of disks, made anew. -/
def ideRefreshDisks (buses : List IdeBus) : List IdeNode := ideRefreshLoop 0 buses []

end Nettapus
