import Nettapus.Code.ElfLocks
import Nettapus.Code.Ext2

/-!
# The files of the tasks (`fs/vfs/open.c`, `close.c`, `read.c`, `write.c`, `fd.c`, `syscall/syscalls.c`)

The descriptors of all tasks, over the ext2 driver and its device. A call of `kopen` has found the node of a file or a
pipe, and `vfs_open_file` gives it a descriptor. Reads of directories, and reads and writes of pipes, are not calls of
this model; they write nothing to the device. The mutex of a node makes the calls on one file exclude each other, and
calls on different files use different blocks.
-/

namespace Nettapus

open Bytes

/-- The descriptors of the tasks, and the device. -/
structure Files where
  fds : ℕ → List FileDescriptor
  disk : Mem

/-- `vfs_write_file` over the ext2 driver: the result, the descriptor, and the device. -/
def vfsWriteExt2 (fs : Ext2Fs) (io : Io) (m src : Mem) (fdes : FileDescriptor) (amount : ℤ) :
    Option (ℤ × FileDescriptor × Mem) :=
  match fdes.node with
  | none => some (-ERR_INVALID_PARAM, fdes, m)
  | some node =>
    if fdes.mode ≠ FD_WRITE then some (-ERR_INVALID_PARAM, fdes, m)
    else
      let toWrite := if u64 (toSize amount + fdes.pos) > node.size then toInt64 (sub64 node.size fdes.pos) else amount
      (ext2WriteFile fs io m node.inodeNum src fdes.pos (toSize toWrite)).map fun r =>
        (r.1, if r.1 > 0 then { fdes with pos := u64 (fdes.pos + toSize r.1) } else fdes, r.2)

/-- `kwrite`, likewise. -/
def kwriteExt2 (fs : Ext2Fs) (io : Io) (m src : Mem) (fds : List FileDescriptor) (fd amount : ℤ) :
    Option (ℤ × List FileDescriptor × Mem) :=
  if fd < 0 then some (-ERR_INVALID_PARAM, fds, m)
  else
    match vfsFindFd fds fd with
    | none => some (-ERR_INVALID_PARAM, fds, m)
    | some fdes =>
      let r : Option (ℤ × FileDescriptor × Mem) :=
        if fdes.file = FILE_DIR then some (-ERR_INVALID_PARAM, fdes, m)
        else
          match fdes.node with
          | none => some (-ERR_INVALID_PARAM, fdes, m)
          | some fnode =>
            match fnode.read with
            | .null => some (-ERR_INVALID_PARAM, fdes, m)
            | .vfsReadFile => vfsWriteExt2 fs io m src fdes amount
            | .vfsReadPipe => none
      r.map fun r => (r.1, setFd fds fd r.2.1, r.2.2)

/-! ## Calls -/

/-- A call of a task, with what is outside the program during it. -/
inductive FileOp
  | openFile (node : FileVnode) (mode : ℕ)
  | close (fd : ℤ)
  | read (io : Io) (fd amount : ℤ)
  | write (io : Io) (src : Mem) (fd amount : ℤ)
  | seek (fd pos : ℤ)
  /-- `exec` gives the descriptors to the new task. -/
  | exec (t' : ℕ)

/-- A call, and what it returned: the result, and the bytes in the buffer. -/
structure FileEvent where
  task : ℕ
  op : FileOp
  status : ℤ
  data : List UInt8

namespace Files

variable (fs : Ext2Fs) (s : Files)

def setFds (t : ℕ) (fds : List FileDescriptor) : Files := { s with fds := Function.update s.fds t fds }

/-- What the task `t` gets from a call, and the state behind it. -/
def call (t : ℕ) : FileOp → Option (ℤ × List UInt8 × Files)
  | .openFile node mode =>
    (kopenFd (s.fds t) (some ⟨some node, FILE_NORMAL, 0, 0, mode⟩)).map fun r => (r.1, [], s.setFds t r.2)
  | .close fd => some ((kcloseFd (s.fds t) fd).1, [], s.setFds t (kcloseFd (s.fds t) fd).2)
  | .read io fd amount =>
    (kread (ext2ReadFile fs io s.disk) (fun _ _ => none) (s.fds t) fd amount).map fun r =>
      (r.status, r.data, s.setFds t r.state)
  | .write io src fd amount =>
    (kwriteExt2 fs io s.disk src (s.fds t) fd amount).map fun r => (r.1, [], { s.setFds t r.2.1 with disk := r.2.2 })
  | .seek fd pos => (kseek (s.fds t) fd pos).map fun r => (r.1, [], s.setFds t r.2)
  | .exec t' => some (GENERIC_SUCCESS, [], (s.setFds t' (s.fds t)).setFds t [])

end Files

end Nettapus
