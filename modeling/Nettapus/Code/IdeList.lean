import Nettapus.Code.Blocks
import Nettapus.Code.Ide

/-!
# The list of disks in memory (`disk/ide/ide.c`)

`ide_register_disk` and `ide_find_drive` once more, on the nodes and links of the list. `Code/Ide.lean` has the list as
such. There is memory for a new node.
-/

namespace Nettapus

/-- The nodes by their addresses, `ide_first_drive`, the live blocks, and what was written to ports. -/
structure IdeMem where
  drive : ℕ → IdeNode
  next : ℕ → ℕ
  firstDrive : ℕ
  live : Finset ℕ
  outb : List (ℕ × ℕ)

namespace IdeMem

/-- No disk. -/
def init (drive : ℕ → IdeNode) (next : ℕ → ℕ) (live : Finset ℕ) : IdeMem := ⟨drive, next, NULL, live, []⟩

variable (m : IdeMem)

/-- The loop of `ide_find_drive`. `none` when it takes more than `fuel` steps. -/
def findLoop (driveId : ℕ) : ℕ → ℕ → Option ℕ
  | 0, _ => none
  | fuel + 1, i =>
    if i = NULL then some NULL
    else if (m.drive i).driveId = driveId then some i
    else findLoop driveId fuel (m.next i)

/-- `ide_find_drive`, with more steps than there are blocks. -/
def ideFindDrive (driveId : ℕ) : Option ℕ := m.findLoop driveId (m.live.card + 1) m.firstDrive

/-- The loop of `ide_register_disk`. `none` when it takes more than `fuel` steps. -/
def registerLoop (ndrive : ℕ) : ℕ → ℕ → Option IdeMem
  | 0, _ => none
  | fuel + 1, i =>
    if (m.drive i).driveId = (m.drive ndrive).driveId then
      -- `*i = *ndrive` copies the link too
      some { m with
        drive := Function.update m.drive i (m.drive ndrive)
        next := Function.update m.next i (m.next ndrive)
        live := kfreeBlock m.live ndrive }
    else if m.next i = NULL then
      some { m with
        next := Function.update m.next i ndrive
        outb := m.outb ++ [((m.drive ndrive).ioPortBase + 6, 0xA0 ||| (m.drive ndrive).slave <<< 4),
          ((m.drive ndrive).controlPortBase, 2)] }
    else registerLoop ndrive fuel (m.next i)

/-- `ide_register_disk`. -/
def ideRegisterDisk (A : Allocator) (disk : IdeNode) : Option IdeMem :=
  let (ndrive, live) := A.kmalloc m.live
  let m := { m with
    drive := Function.update m.drive ndrive disk
    next := Function.update m.next ndrive NULL
    live := live }
  if m.firstDrive = NULL then some { m with firstDrive := ndrive }
  else m.registerLoop ndrive (m.live.card + 1) m.firstDrive

/-- A sequence of calls. -/
def registerAll (A : Allocator) (calls : List IdeNode) : Option IdeMem :=
  calls.foldlM (fun m disk => m.ideRegisterDisk A disk) m

end IdeMem

end Nettapus
