import Nettapus.Code.Disk
import Nettapus.Code.Sync

/-!
# The mutex of a disk (`disk/read-write.c`, `disk/disk.c`)

`drive_read_sectors` and `drive_write_sectors` with the mutex that they take, on the machine of the semaphores. A task is
at a place in one of the two functions or outside of them; inside it makes only the calls that are written there. The
time of a transfer is one step; other tasks can run before it and after it.

What is transferred is in `Disk`. The calls that have returned are recorded.
-/

namespace Nettapus

open Bytes

/-- A drive, with the address of its disk and the `mutex` in it. -/
structure LockedDrive extends Drive where
  addr : ℕ
  mutex : ℕ

/-- The two functions. -/
inductive DriveFn
  | driveReadSectors
  | driveWriteSectors
  deriving DecidableEq, Repr

def DriveFn.op : DriveFn → Mem → ℕ → ℕ → DriveOp
  | .driveReadSectors => .read
  | .driveWriteSectors => .write

/-- A call whose drive and buffer are not null. -/
structure DriveCall where
  d : LockedDrive
  op : DriveOp

/-- The result of the transfer. -/
def DriveCall.status (c : DriveCall) (io : Io) (m : Mem) : ℕ :=
  match c.op with
  | .read buf lba amount => (driveReadSectors c.d.toDrive io m buf lba amount).1
  | .write buf lba amount => (driveWriteSectors c.d.toDrive io m buf lba amount).1

/-- The places in the two functions: in `acquire_semaphore` or just behind it, before the transfer, and in
`release_semaphore` or just behind it. -/
inductive DiskPlace
  | outside
  | acquiring (c : DriveCall)
  | working (c : DriveCall)
  | releasing (c : DriveCall) (stat : ℕ)

def DiskPlace.isOutside : DiskPlace → Bool
  | .outside => true
  | _ => false

/-- A call that has returned; `call` is there if no parameter was null. -/
structure DiskReturn where
  task : ℕ
  call : Option DriveCall
  stat : ℕ

structure DiskKernel where
  kernel : Kernel
  place : ℕ → DiskPlace
  /-- The devices, by the addresses of the disks. -/
  devs : ℕ → Mem
  /-- The calls that have returned, the last one first. Not in the code. -/
  returned : List DiskReturn

namespace DiskKernel

variable (s : DiskKernel)

/-- The current task. -/
def cur : ℕ := s.kernel.cur

/-- The current task goes to `p`. -/
def setPlace (p : DiskPlace) : DiskKernel := { s with place := Function.update s.place s.cur p }

/-- The current task returns from one of the functions. -/
def ret (call : Option DriveCall) (stat : ℕ) : DiskKernel :=
  { s.setPlace .outside with returned := ⟨s.cur, call, stat⟩ :: s.returned }

/-- The current task calls `f`, up to `acquire_semaphore`. -/
def enter (disks : List ℕ) (f : DriveFn) (d : Option LockedDrive) (buf : Option Mem) (lba amount : ℕ) :
    Option DiskKernel :=
  match d, buf with
  | none, _ => some (s.ret none ERR_INVALID_PARAM)
  | some _, none => some (s.ret none ERR_INVALID_PARAM)
  | some d, some buf =>
    if d.mutex = NULL ∨ d.mutex ∈ disks then
      (s.kernel.step (.call (.acquire d.mutex))).map fun k =>
        { s.setPlace (.acquiring ⟨d, f.op buf lba amount⟩) with kernel := k }
    else none

/-- The current task goes on in `f`. -/
def goOn (io : Io) : Option DiskKernel :=
  match s.place s.cur with
  | .outside => none
  | .acquiring c =>
    match c.d.request c.op.lba c.op.amount with
    | .invalid => some (s.ret (some c) ERR_INVALID_PARAM)
    | .empty => some (s.ret (some c) GENERIC_SUCCESS)
    | _ => some (s.setPlace (.working c))
  | .working c =>
    (s.kernel.step (.call (.release c.d.mutex))).map fun k =>
      { s.setPlace (.releasing c (c.status io (s.devs c.d.addr))) with
        kernel := k
        devs := Function.update s.devs c.d.addr (c.d.call (s.devs c.d.addr) (io, c.op)) }
  | .releasing c stat => some (s.ret (some c) stat)

/-- The steps of the machine of the semaphores. A task that is in one of the functions does nothing else, and a mutex of
a disk is used there only. -/
def Permits (disks : List ℕ) : Event → Prop
  | .run => True
  | .timer => True
  | .idle => True
  | .call c => (s.place s.cur).isOutside ∧ ∀ m ∈ disks, c ≠ .acquire m ∧ c ≠ .release m
  | _ => (s.place s.cur).isOutside

instance (disks : List ℕ) (e : Event) : Decidable (s.Permits disks e) := by
  cases e <;> unfold Permits <;> infer_instance

end DiskKernel

inductive DiskEvent
  | kernel (e : Event)
  | enter (f : DriveFn) (d : Option LockedDrive) (buf : Option Mem) (lba amount : ℕ)
  | goOn (io : Io)

/-- One step. -/
def DiskKernel.step (disks : List ℕ) (s : DiskKernel) : DiskEvent → Option DiskKernel
  | .kernel e =>
    if s.Permits disks e then (s.kernel.step e).map fun k => { s with kernel := k } else none
  | .enter f d buf lba amount =>
    if s.cur ≠ s.kernel.idle ∧ s.kernel.pc s.cur = .user ∧ (s.place s.cur).isOutside then
      s.enter disks f d buf lba amount
    else none
  | .goOn io => if s.kernel.pc s.cur = .user then s.goOn io else none

end Nettapus
