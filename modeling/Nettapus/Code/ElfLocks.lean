import Nettapus.Code.Elf
import Nettapus.Code.Fd
import Nettapus.Code.Sched

/-!
# What `load_elf` takes and gives back (`task/elf.c`, `fs/vfs/close.c`)

`load_elf` from `kopen` to `kclose`, with the lock of the scheduler. The parts in between are those of `Code/Elf.lean`.
The calls inside give back the locks that they take themselves.

What `kopen` finds is a parameter: a descriptor for the path, or none. The number is assigned as in `Code/Fd.lean`.
-/

namespace Nettapus

/-- `kclose`: the status, and the descriptors that are left. `vfs_close_file` looks for the descriptor that has the one to
close behind it. -/
def kcloseFd (fds : List FileDescriptor) (fd : ℤ) : ℤ × List FileDescriptor :=
  if fd < 0 then (-ERR_INVALID_PARAM, fds)
  else
    match fds.findIdx? fun i => i.fd = fd with
    | none => (-ERR_INVALID_PARAM, fds)
    | some 0 => (-ERR_INVALID_PARAM, fds)
    | some (k + 1) => (GENERIC_SUCCESS, fds.eraseIdx (k + 1))

/-- `kopen`: the number, or an error, and the descriptors. -/
def kopenFd (fds : List FileDescriptor) (found : Option FileDescriptor) : Option (ℤ × List FileDescriptor) :=
  match found with
  | none => some (-ERR_NOT_FOUND, fds)
  | some newFd =>
    (assignFd ((fds.length + 1) * fds.length) fds newFd).map fun fds => ((fds.getLast?.map (·.fd)).getD 0, fds)

/-- The readers of directories and pipes. They leave the number of a descriptor alone. -/
structure SpecialRead where
  read : FileDescriptor → ℤ → Option (Delivered FileDescriptor)
  fd_eq : ∀ {fdes amount r}, read fdes amount = some r → r.state.fd = fdes.fd

/-- What `load_elf` works on, and the scheduler with its locks. -/
structure ElfState where
  loader : Loader
  sched : Sched

namespace ElfState

/-- `kclose(fd)`. -/
def close (s : ElfState) (fd : ℤ) : ElfState :=
  { s with loader := { s.loader with fds := (kcloseFd s.loader.fds fd).2 } }

variable (disk : ℕ → DriverRead) (special : SpecialRead)

/-- The part after the checks. With an entry that cannot be read the lock is kept. -/
def load (fd : ℤ) (s : ElfState) (hdr : ElfHdr64) : Option (ℕ × Option ℕ × ElfState) :=
  (s.loader.seek fd 64).bind fun l =>
  l.spaces.createAddressSpace.bind fun (pml4t, z) =>
  let sched := lockScheduler s.sched
  (Loader.loadEntries disk special.read fd pml4t hdr.phdrEntryCount { l with spaces := z }).map fun (ok, l) =>
    if ok then (pml4t, some hdr.entryAddr, close ⟨l, unlockScheduler sched⟩ fd)
    else (NULL, none, close ⟨l, sched⟩ fd)

/-- `load_elf`: the address space, what is written to `entry_point`, and the state. -/
def loadElf (fileName : ℕ) (found : Option FileDescriptor) (s : ElfState) : Option (ℕ × Option ℕ × ElfState) :=
  if fileName = NULL then some (NULL, none, s)
  else
    (kopenFd s.loader.fds found).bind fun (fd, fds) =>
      let s := { s with loader := { s.loader with fds := fds } }
      if fd < 0 then some (NULL, none, s.close fd)
      else
        (s.loader.read disk special.read fd 64).bind fun r =>
          if r.status ≠ 64 then some (NULL, none, close ⟨r.state, s.sched⟩ fd)
          else
            let hdr := elfHdr64 r.data
            if hdr.valid then
              (Loader.checkEntries disk special.read fd hdr.phdrEntryCount r.state).bind fun (ok, l) =>
                if ok then load disk special fd ⟨l, s.sched⟩ hdr else some (NULL, none, close ⟨l, s.sched⟩ fd)
            else some (NULL, none, close ⟨r.state, s.sched⟩ fd)

end ElfState

end Nettapus
