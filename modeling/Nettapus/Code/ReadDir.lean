import Nettapus.Code.Ext2Mknod
import Nettapus.Code.Vfs
import Nettapus.Lib.Bytes

/-!
# Reading directories (`fs/vfs/read.c`, `fs/vfs/nodes.c`)

`vfs_read_dir`, and the functions that load the vnodes of entries. A directory is a record at its address; of the vnode of
an entry there is what a directory entry tells. The bytes that a call writes are recorded, as ranges of the buffer.

The driver is given for each call, and memory for the vnodes is there. `none` is a call that reads through a null
pointer. The mutexes of the nodes are not in this model.
-/

namespace Nettapus

open Bytes

/-- The fields of the vnode of an entry. -/
structure DirVnode where
  inodeNum : ℕ
  typePerm : ℕ
  deriving DecidableEq, Repr

/-- `struct folder_tnode` and `struct file_tnode`. -/
structure DirTnode where
  name : List UInt8
  vnode : Option DirVnode
  deriving DecidableEq, Repr

/-- The fields of `struct folder_vnode`; `mountPoint` is the vnode at the mount point. -/
structure DirNode where
  inodeNum : ℕ
  subfolders : List DirTnode
  subfiles : List DirTnode
  subfolderCount : ℕ
  subfileCount : ℕ
  mounted : ℕ
  mountPoint : ℕ
  deriving DecidableEq, Repr

/-- The driver, and what is in memory behind a name. -/
structure DirWorld where
  openat : ℕ → List UInt8 → ℕ
  getTypePerm : ℕ → ℕ
  listFiles : ℕ → Listing
  listFolders : ℕ → Listing
  behind : Mem

/-- The directories. -/
abbrev Dirs := ℕ → DirNode

/-- The node that is used instead of a directory. -/
def followMount (z : Dirs) (node : ℕ) : ℕ := if (z node).mounted ≠ 0 then (z node).mountPoint else node

/-- `vfs_dir_load_list`: a listing without vnodes. -/
def dirLoadList (W : DirWorld) (z : Dirs) (d : ℕ) : Dirs :=
  let files := W.listFiles (z d).inodeNum
  let folders := W.listFolders (z d).inodeNum
  Function.update z d { z d with
    subfiles := files.names.map fun name => ⟨name, none⟩
    subfolders := folders.names.map fun name => ⟨name, none⟩
    subfileCount := files.count
    subfolderCount := folders.count }

/-- `vfs_load_folder_at` and `vfs_load_file_at`, up to the place of the new vnode: `set` puts it into its list. Without
a result the directory is listed again. -/
def loadAt (W : DirWorld) (z : Dirs) (parent : ℕ) (tnode : DirTnode) (typePerm : ℕ → ℕ)
    (set : DirTnode → Dirs) : Option DirVnode × Dirs :=
  let parent := followMount z parent
  if parent = NULL then (none, z)
  else
    let inode := W.openat (z parent).inodeNum tnode.name
    if inode < 2 then (none, dirLoadList W z parent)
    else (some ⟨inode, typePerm inode⟩, set { tnode with vnode := some ⟨inode, typePerm inode⟩ })

/-- The entry `i` of the list of directories is `tnode`. -/
def setFolderAt (z : Dirs) (node i : ℕ) (tnode : DirTnode) : Dirs :=
  Function.update z node { z node with subfolders := (z node).subfolders.set i tnode }

def setFileAt (z : Dirs) (node i : ℕ) (tnode : DirTnode) : Dirs :=
  Function.update z node { z node with subfiles := (z node).subfiles.set i tnode }

def loadFolderAt (W : DirWorld) (z : Dirs) (node i : ℕ) (tnode : DirTnode) : Option DirVnode × Dirs :=
  loadAt W z node tnode W.getTypePerm (setFolderAt z node i)

/-- The type of a file is not loaded. -/
def loadFileAt (W : DirWorld) (z : Dirs) (node i : ℕ) (tnode : DirTnode) : Option DirVnode × Dirs :=
  loadAt W z node tnode (fun _ => 0) (setFileAt z node i)

/-- `sizeof(struct dirent)`, with the padding behind `name`, and where its fields are. -/
def direntSize : ℕ := 40
def direntInode : ℕ := 0
def direntLen : ℕ := 16
def direntType : ℕ := 24
def direntName : ℕ := 32

/-- What a call leaves: its result, the buffer, the ranges of it that were written (by their start and length), the
directories, and the place of the descriptor. -/
structure DirRead where
  status : ℤ
  buf : Mem
  writes : List (ℕ × ℕ)
  dirs : Dirs
  pos : ℕ

/-- The memory at a name. -/
def nameBytes (W : DirWorld) (name : List UInt8) : Mem := fun i =>
  if h : i < name.length then name[i] else if i = name.length then 0 else W.behind i

/-- The length of the copy of the name, a `size_t`. -/
def copyLen (nameLen : ℕ) (amount : ℤ) : ℕ := if (nameLen : ℤ) > amount then toSize amount else nameLen

/-- The end of `vfs_read_dir`, which is there for directories and for files. -/
def writeDirent (W : DirWorld) (z : Dirs) (buf : Mem) (name : List UInt8) (vnode : DirVnode) (amount : ℤ) (pos : ℕ) :
    DirRead :=
  let nameLen := name.length + 1
  let len := direntSize + nameLen - 1
  let n := copyLen nameLen amount
  let buf := store buf direntInode vnode.inodeNum 8
  let buf := store buf direntType vnode.typePerm 8
  let buf := store buf direntLen len 8
  { status := len
    buf := fun x => if direntName ≤ x ∧ x < direntName + n then nameBytes W name (x - direntName) else buf x
    writes := [(direntInode, 8), (direntType, 8), (direntLen, 8), (direntName, n)]
    dirs := z
    pos := pos }

/-- The part of `vfs_read_dir` for one of the lists, with the place `k` in it. -/
def readEntryAt (W : DirWorld) (z : Dirs) (buf : Mem) (amount : ℤ) (pos : ℕ) (l : List DirTnode) (k : ℕ)
    (load : DirTnode → Option DirVnode × Dirs) : Option DirRead :=
  if l.length < k then some ⟨-ERR_INVALID_PARAM, buf, [], z, pos⟩
  else
    match l[k]? with
    | none => none
    | some retNode =>
      match retNode.vnode with
      | some vnode => some (writeDirent W z buf retNode.name vnode amount (pos + 1))
      | none =>
        match load retNode with
        | (none, z) => some ⟨-ERR_NO_RESULT, buf, [], z, pos + 1⟩
        | (some vnode, z) => some (writeDirent W z buf retNode.name vnode amount (pos + 1))

/-- `vfs_read_dir`, with a buffer that is there. -/
def vfsReadDir (W : DirWorld) (z : Dirs) (fdes : Descriptor) (buf : Mem) (amount : ℤ) : Option DirRead :=
  let pos := fdes.pos
  if fdes.node = NULL then some ⟨-ERR_INVALID_PARAM, buf, [], z, pos⟩
  else if toSize amount < direntSize then some ⟨-ERR_EOF, buf, [], z, pos⟩
  else
    let node := followMount z fdes.node
    if node = NULL then some ⟨-ERR_INVALID_PARAM, buf, [], z, pos⟩
    else
      let count := (z node).subfolderCount
      if pos ≥ u64 (count + (z node).subfileCount) then some ⟨-ERR_INVALID_PARAM, buf, [], z, pos⟩
      else if pos < count then
        readEntryAt W z buf amount pos (z node).subfolders pos (loadFolderAt W z node pos)
      else
        readEntryAt W z buf amount pos (z node).subfiles (pos - count) (loadFileAt W z node (pos - count))

/-! ## Sequences of calls -/

/-- A call of `kread`, with what the driver does during it. -/
structure DirCall where
  world : DirWorld
  buf : Mem
  amount : ℤ

/-- `kread`: what the call leaves, and the descriptors. For something else than a directory there is no result here. -/
def kreadDir (z : Dirs) (fds : List Descriptor) (fd : ℤ) (c : DirCall) : Option (DirRead × List Descriptor) :=
  match fds.findIdx? fun d => (d.fd : ℤ) = fd with
  | none => some (⟨-ERR_INVALID_PARAM, c.buf, [], z, 0⟩, fds)
  | some i =>
    match fds[i]? with
    | none => none
    | some fdes =>
      if fdes.file = FILE_DIR then
        (vfsReadDir c.world z fdes c.buf c.amount).map fun r => (r, fds.set i { fdes with pos := r.pos })
      else none

/-- The calls one after the other: what each of them leaves. -/
def kreadDirs (fd : ℤ) : Dirs → List Descriptor → List DirCall → Option (List DirRead)
  | _, _, [] => some []
  | z, fds, c :: calls =>
    (kreadDir z fds fd c).bind fun (r, fds) => (kreadDirs fd r.dirs fds calls).map (r :: ·)

end Nettapus
