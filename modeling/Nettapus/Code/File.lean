import Nettapus.Code.Base
import Mathlib.Algebra.Ring.Int.Defs
import Mathlib.Order.Nat

/-!
# Descriptors of regular files (`fs/vfs/fd.c`, `fs/vfs/read.c`, `fs/vfs/write.c`)

The descriptors of a task are a list. The file system driver's `read` is a parameter, with its result
and the bytes that it put into the buffer, and so is its `write`, with its result; `none` is a call that does not
return. The readers of directories and pipes are a parameter of `kread`, and the writer of pipes one of `kwrite`.

The mutex of a node gives exclusion between the calls. It is not in this model.
-/

namespace Nettapus

def ERR_EOF : ℕ := 8

/-- `int64_t` from `size_t`, and back. -/
def toInt64 (n : ℕ) : ℤ := if n < 2 ^ 63 then n else n - 2 ^ 64
def toSize (z : ℤ) : ℕ := (z % 2 ^ 64).toNat

/-- The descriptor modes `FD_READ` and `FD_WRITE`. -/
def FD_READ : ℕ := 0
def FD_WRITE : ℕ := 1

/-- The types of a descriptor. -/
def FILE_DIR : ℕ := 0
def FILE_NORMAL : ℕ := 1

/-- What the field `read` of a vnode is set to. -/
inductive ReadFn
  | null
  | vfsReadFile
  | vfsReadPipe
  deriving DecidableEq, Repr

/-- The fields of `struct file_vnode` that a read uses. -/
structure FileVnode where
  inodeNum : ℕ
  size : ℕ
  read : ReadFn
  deriving DecidableEq, Repr

/-- `struct file_descriptor`. -/
structure FileDescriptor where
  node : Option FileVnode
  file : ℕ
  fd : ℤ
  pos : ℕ
  mode : ℕ
  deriving DecidableEq, Repr

/-- The `read` of a file system driver, by the inode, the offset and the amount. -/
abbrev DriverRead := ℕ → ℕ → ℕ → Option (ℤ × List UInt8)

/-- The `write` of a file system driver, by the inode, the offset and the amount. -/
abbrev DriverWrite := ℕ → ℕ → ℕ → Option ℤ

/-- The result of a call, the bytes in the buffer, and what is left behind. -/
structure Delivered (σ : Type) where
  status : ℤ
  data : List UInt8
  state : σ

def vfsFindFd (fds : List FileDescriptor) (fd : ℤ) : Option FileDescriptor := fds.find? fun i => i.fd = fd

/-- The list after a call changed the descriptor that `vfs_find_fd` found. -/
def setFd (fds : List FileDescriptor) (fd : ℤ) (fdes : FileDescriptor) : List FileDescriptor :=
  match fds with
  | [] => []
  | i :: fds => if i.fd = fd then fdes :: fds else i :: setFd fds fd fdes

def vfsReadFile (read : DriverRead) (fdes : FileDescriptor) (amount : ℤ) : Option (Delivered FileDescriptor) :=
  match fdes.node with
  | none => some ⟨-ERR_INVALID_PARAM, [], fdes⟩
  | some node =>
    if amount = 0 then some ⟨0, [], fdes⟩
    else if fdes.mode ≠ FD_READ then some ⟨-ERR_INVALID_PARAM, [], fdes⟩
    else
      let toRead := if u64 (toSize amount + fdes.pos) > node.size then toInt64 (sub64 node.size fdes.pos) else amount
      if toRead = 0 then some ⟨-ERR_EOF, [], fdes⟩
      else
        (read node.inodeNum fdes.pos (toSize toRead)).map fun r =>
          ⟨r.1, r.2, if r.1 > 0 then { fdes with pos := u64 (fdes.pos + toSize r.1) } else fdes⟩

def vfsWriteFile (write : DriverWrite) (fdes : FileDescriptor) (amount : ℤ) : Option (ℤ × FileDescriptor) :=
  match fdes.node with
  | none => some (-ERR_INVALID_PARAM, fdes)
  | some node =>
    if fdes.mode ≠ FD_WRITE then some (-ERR_INVALID_PARAM, fdes)
    else
      let toWrite := if u64 (toSize amount + fdes.pos) > node.size then toInt64 (sub64 node.size fdes.pos) else amount
      (write node.inodeNum fdes.pos (toSize toWrite)).map fun stat =>
        (stat, if stat > 0 then { fdes with pos := u64 (fdes.pos + toSize stat) } else fdes)

/-- `kread` into a buffer that is there. -/
def kread (read : DriverRead) (special : FileDescriptor → ℤ → Option (Delivered FileDescriptor))
    (fds : List FileDescriptor) (fd amount : ℤ) : Option (Delivered (List FileDescriptor)) :=
  if fd < 0 then some ⟨-ERR_INVALID_PARAM, [], fds⟩
  else
    match vfsFindFd fds fd with
    | none => some ⟨-ERR_INVALID_PARAM, [], fds⟩
    | some fdes =>
      let r :=
        if fdes.file = FILE_DIR then special fdes amount
        else
          match fdes.node with
          | none => some ⟨-ERR_INVALID_PARAM, [], fdes⟩
          | some fnode =>
            match fnode.read with
            | .null => some ⟨-ERR_INVALID_PARAM, [], fdes⟩
            | .vfsReadFile => vfsReadFile read fdes amount
            | .vfsReadPipe => special fdes amount
      r.map fun r => ⟨r.status, r.data, setFd fds fd r.state⟩

/-- `kwrite` from a buffer that is there. The field `write` of a vnode is set together with `read`. -/
def kwrite (write : DriverWrite) (special : FileDescriptor → ℤ → Option (ℤ × FileDescriptor))
    (fds : List FileDescriptor) (fd amount : ℤ) : Option (ℤ × List FileDescriptor) :=
  if fd < 0 then some (-ERR_INVALID_PARAM, fds)
  else
    match vfsFindFd fds fd with
    | none => some (-ERR_INVALID_PARAM, fds)
    | some fdes =>
      let r : Option (ℤ × FileDescriptor) :=
        if fdes.file = FILE_DIR then some (-ERR_INVALID_PARAM, fdes)
        else
          match fdes.node with
          | none => some (-ERR_INVALID_PARAM, fdes)
          | some fnode =>
            match fnode.read with
            | .null => some (-ERR_INVALID_PARAM, fdes)
            | .vfsReadFile => vfsWriteFile write fdes amount
            | .vfsReadPipe => special fdes amount
      r.map fun r => (r.1, setFd fds fd r.2)

/-- Without a descriptor there is no result: the function reads through the null pointer. -/
def ktell (fds : List FileDescriptor) (fd : ℤ) : Option ℤ :=
  if fd < 0 then some (-ERR_INVALID_PARAM)
  else (vfsFindFd fds fd).map fun fdes => toInt64 fdes.pos

def kseek (fds : List FileDescriptor) (fd pos : ℤ) : Option (ℤ × List FileDescriptor) :=
  if fd < 0 then some (-ERR_INVALID_PARAM, fds)
  else if pos < 0 then some (-ERR_INVALID_PARAM, fds)
  else
    (vfsFindFd fds fd).map fun fdes =>
      if fdes.file = FILE_DIR then (0, fds)
      else
        match fdes.node with
        | none => (-ERR_INVALID_PARAM, fds)
        | some node =>
          let p := if toSize pos ≥ node.size then sub64 node.size 1 else toSize pos
          (toInt64 p, setFd fds fd { fdes with pos := p })

/-! ## Sequences of calls -/

/-- A call of `kread`, with what the driver does during it. -/
structure ReadCall where
  read : DriverRead
  amount : ℤ

/-- The calls one after the other: the bytes of those with a positive result, and the descriptors. -/
def kreads (special : FileDescriptor → ℤ → Option (Delivered FileDescriptor)) (fd : ℤ) :
    List FileDescriptor → List UInt8 → List ReadCall → Option (List UInt8 × List FileDescriptor)
  | fds, out, [] => some (out, fds)
  | fds, out, c :: calls =>
    (kread c.read special fds fd c.amount).bind fun r =>
      kreads special fd r.state (if r.status > 0 then out ++ r.data else out) calls

end Nettapus
