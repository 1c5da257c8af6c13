import Nettapus.Code.File
import Nettapus.Code.Path
import Nettapus.Code.Vmm
import Mathlib.Logic.Function.Basic

/-!
# The virtual file system (`fs/vfs`, `task/task.c`, `syscall/syscalls.c`)

The vnodes that are in memory, the listings of the directories, and the descriptors of the tasks. `live` are
the vnodes that are not freed; their records are by their addresses. A `tnode` is an entry of a listing. Only
the root is mounted, so `root` is the vnode of the file system's root.

What is not part of the virtual file system is given by `World`, for every call of it: what the driver finds, where
`kmalloc` finds memory, and what is in memory that was not cleared. The code goes wrong in four places, which are the
values of `Hazard`. At each of them the model asks `may` whether to go on; in the kernel the answer is always yes.

The counters do not wrap here. The mutexes of the nodes are not in this model.
-/

namespace Nettapus

inductive NodeKind
  | file
  | pipe
  | folder
  deriving DecidableEq, Repr

/-- The fields of `struct file_vnode` that are used here. -/
structure FileNode where
  streamsOpen : ℕ
  cachedLinks : ℕ
  deriving DecidableEq, Repr

/-- `struct file_tnode` and `struct folder_tnode`. -/
structure Tnode where
  name : List UInt8
  vnode : ℕ
  deriving DecidableEq, Repr

/-- `struct folder_vnode`. -/
structure FolderNode where
  inodeNum : ℕ
  streamsOpen : ℕ
  subfiles : List Tnode
  subfolders : List Tnode
  subfileCount : ℕ
  subfolderCount : ℕ
  deriving DecidableEq, Repr

/-- `struct file_descriptor`. -/
structure Descriptor where
  node : ℕ
  file : ℕ
  fd : ℕ
  pos : ℕ
  mode : ℕ
  deriving DecidableEq, Repr

/-- The fields of `struct task`. A task that has ended has no descriptors any more. -/
structure VfsTask where
  alive : Bool
  fds : List Descriptor
  currentDir : ℕ
  deriving DecidableEq, Repr

structure Vfs where
  live : ℕ → Option NodeKind
  files : ℕ → FileNode
  folders : ℕ → FolderNode
  root : ℕ
  tasks : List VfsTask
  /-- The number of the next call of the world. -/
  clock : ℕ

/-- What a driver lists: the names, and what it leaves in `*count`. -/
structure Listing where
  names : List (List UInt8)
  count : ℕ

/-- The world, by the number of the call. -/
structure World where
  openat : ℕ → ℕ → List UInt8 → ℕ
  listFiles : ℕ → ℕ → Listing
  listFolders : ℕ → ℕ → Listing
  /-- How many bytes a file's `read` gives. -/
  read : ℕ → ℕ
  kmalloc : ℕ → ℕ
  /-- The field `streams_open` in memory that was not cleared. -/
  garbage : ℕ → ℕ
  /-- The field `vnode` of a `tnode` that was freed. -/
  stale : ℕ → ℕ

inductive Hazard
  /-- A listing is loaded again, and everything below the directory is freed. -/
  | reload (d : ℕ)
  /-- A `tnode` is read that was freed. -/
  | stale (vnode : ℕ)
  /-- A vnode begins with this value of `streams_open`. -/
  | dirty (streams : ℕ)
  /-- A task ends. -/
  | exit (t : ℕ)

def O_CREAT : ℕ := 1
def SIZEOF_DIRENT : ℕ := 40

namespace Vfs

variable (s : Vfs)

def tick : Vfs := { s with clock := s.clock + 1 }

def setFile (a : ℕ) (f : FileNode) : Vfs := { s with files := Function.update s.files a f }
def setFolder (a : ℕ) (f : FolderNode) : Vfs := { s with folders := Function.update s.folders a f }
def setTask (i : ℕ) (t : VfsTask) : Vfs := { s with tasks := s.tasks.set i t }

/-- `kfree` of a vnode. -/
def unload (a : ℕ) : Vfs := { s with live := Function.update s.live a none }

/-! ## Listings -/

/-- The `tnode` that `vfs_search_dd` and `vfs_search_df` find, with its place. -/
def searchList (l : List Tnode) (name : List UInt8) : Option (ℕ × Tnode) :=
  (l.findIdx? fun t => t.name = name).bind fun i => l[i]?.map fun t => (i, t)

/-- The first part of `free_dir_list`. -/
def freeFiles (d : ℕ) : Vfs :=
  if (s.folders d).subfiles = [] then s
  else
    let s' := (s.folders d).subfiles.foldl (fun s t => if t.vnode = NULL then s else s.unload t.vnode) s
    s'.setFolder d { s'.folders d with subfiles := [], subfileCount := 0 }

/-- `free_dir_list`, with a bound for the depth. The second part clears the list of files once more. -/
def freeDirList : ℕ → Vfs → ℕ → Option Vfs
  | 0, _, _ => none
  | depth + 1, s, d =>
    let s := s.freeFiles d
    if (s.folders d).subfolders = [] then some s
    else
      ((s.folders d).subfolders.foldlM (fun s t =>
        if t.vnode = NULL then some s
        else (freeDirList depth s t.vnode).map fun s => s.unload t.vnode) s).map fun s =>
          s.setFolder d { s.folders d with subfiles := [], subfileCount := 0 }

/-- The `tnode`s of a listing. Their vnodes are not in memory. -/
def tnodes (l : Listing) : List Tnode := l.names.map fun name => ⟨name, NULL⟩

end Vfs

/-! ## Loading -/

namespace Vfs

variable (W : World) (may : Vfs → Hazard → Bool) (s : Vfs)

/-- `kmalloc` for a vnode: memory that is not in use. -/
def alloc (kind : NodeKind) : Option (ℕ × Vfs) :=
  let a := W.kmalloc s.clock
  if a = NULL ∨ s.live a ≠ none then none
  else some (a, { s.tick with live := Function.update s.live a (some kind) })

def vfsDirLoadList (d : ℕ) : Option Vfs :=
  if may s (.reload d) then
    (freeDirList (s.clock + 1) s d).map fun s =>
      let files := W.listFiles s.clock (s.folders d).inodeNum
      let folders := W.listFolders s.clock (s.folders d).inodeNum
      s.tick.setFolder d { s.folders d with
        subfiles := tnodes files
        subfolders := tnodes folders
        subfileCount := files.count
        subfolderCount := folders.count }
  else none

/-- The `tnode` is the one at `i` in the list of `parent`. The result is `NULL` if the driver does not find it. -/
def vfsLoadFolderAt (parent i : ℕ) (tnode : Tnode) : Option (ℕ × Vfs) :=
  let inode := W.openat s.clock (s.folders parent).inodeNum tnode.name
  if inode < 2 then (s.tick.vfsDirLoadList W may parent).map fun s => (NULL, s)
  else
    (s.tick.alloc W .folder).bind fun (a, s) =>
      let s := s.setFolder parent { s.folders parent with
        subfolders := (s.folders parent).subfolders.set i { tnode with vnode := a } }
      let s := s.setFolder a ⟨inode, 0, [], [], 0, 0⟩
      (s.vfsDirLoadList W may a).map fun s => (a, s)

def vfsLoadFileAt (parent i : ℕ) (tnode : Tnode) : Option (ℕ × Vfs) :=
  let inode := W.openat s.clock (s.folders parent).inodeNum tnode.name
  if inode < 2 then (s.tick.vfsDirLoadList W may parent).map fun s => (NULL, s)
  else
    (s.tick.alloc W .file).map fun (a, s) =>
      let s := s.setFolder parent { s.folders parent with
        subfiles := (s.folders parent).subfiles.set i { tnode with vnode := a } }
      (a, s.setFile a ⟨0, 1⟩)

/-! ## Searches -/

/-- The loop of `vfs_search_vnode` and `mknode_file`: the directory of the last step of a path, and this
step; or nothing if a directory is missing. -/
def walkDirs : Vfs → ℕ → List (List UInt8) → Option (Option (ℕ × List UInt8) × Vfs)
  | s, _, [] => some (none, s)
  | s, cur, [name] => some (some (cur, name), s)
  | s, cur, name :: rest =>
    match searchList (s.folders cur).subfolders name with
    | none => some (none, s)
    | some (i, t) =>
      if t.vnode = NULL then
        (s.vfsLoadFolderAt W may cur i t).bind fun (node, s) =>
          if node = NULL then some (none, s) else walkDirs s node rest
      else walkDirs s t.vnode rest

/-- `return tnode->vnode` after the vnode was loaded. If it was not, the listing was loaded again, and the `tnode`
is freed. -/
def loadedVnode (file node : ℕ) : Option (ℕ × ℕ × Vfs) :=
  if node = NULL then
    let vnode := W.stale s.clock
    if may s (.stale vnode) then some (vnode, file, s.tick) else none
  else some (node, file, s)

/-- The last step of `vfs_search_vnode`: the vnode, `*file`, and the state. -/
def searchLast (cur : ℕ) (name : List UInt8) : Option (ℕ × ℕ × Vfs) :=
  match searchList (s.folders cur).subfiles name with
  | some (i, t) =>
    if t.vnode = NULL then (s.vfsLoadFileAt W may cur i t).bind fun (node, s) => s.loadedVnode W may 1 node
    else some (t.vnode, 1, s)
  | none =>
    match searchList (s.folders cur).subfolders name with
    | none => some (NULL, 1, s)
    | some (i, t) =>
      if t.vnode = NULL then (s.vfsLoadFolderAt W may cur i t).bind fun (node, s) => s.loadedVnode W may 0 node
      else some (t.vnode, 0, s)

/-- `prev` is the byte before the path, at which `get_step_count` looks. -/
def vfsSearchVnode (t : VfsTask) (prev : UInt8) (path : List UInt8) : Option (ℕ × ℕ × Vfs) :=
  (fsParsePath prev path).bind fun arr =>
    let cur := if path.head? ≠ some slash ∧ t.currentDir ≠ NULL then t.currentDir else s.root
    match arr with
    | [] => some (cur, 0, s)
    | _ =>
      (walkDirs W may s cur arr).bind fun (dir, s) =>
        match dir with
        | none => some (NULL, 1, s)
        | some (cur, name) => s.searchLast W may cur name

/-- The end of `mknode_file`: the new vnode is in no listing. -/
def createVnode (par : ℕ) : Option (ℕ × Vfs) :=
  let streams := W.garbage s.clock
  if may s (.dirty streams) then
    (s.alloc W .file).bind fun (a, s) =>
      ((s.setFile a ⟨streams, 1⟩).vfsDirLoadList W may par).map fun s => (a, s)
  else none

def mknodeFile (prev : UInt8) (path : List UInt8) : Option (ℕ × Vfs) :=
  (fsParsePath prev path).bind fun arr =>
    match arr with
    | [] => some (NULL, s)
    | _ =>
      (walkDirs W may s s.root arr).bind fun (dir, s) =>
        match dir with
        | none => some (NULL, s)
        | some (par, name) =>
          match searchList (s.folders par).subfiles name with
          | some (_, t) => some (t.vnode, s)
          | none => s.createVnode W may par

end Vfs

/-! ## Descriptors -/

namespace Vfs

variable (s : Vfs)

/-- `vfs_find_fd`: the first descriptor of the list with this number. -/
def vfsFindFd (t : VfsTask) (fd : ℤ) : Option Descriptor := t.fds.find? fun d => (d.fd : ℤ) = fd

/-- The loop of `vfs_create_fd`: the first number that is not in use, from `i` on. -/
def freeNumber (fds : List Descriptor) : ℕ → ℕ → ℕ
  | 0, i => i
  | n + 1, i => if fds.any fun d => d.fd = i then freeNumber fds n (i + 1) else i

/-- The vnode has one descriptor more. -/
def openStream (node file : ℕ) : Vfs :=
  if file ≠ 0 then s.setFile node { s.files node with streamsOpen := (s.files node).streamsOpen + 1 }
  else s.setFolder node { s.folders node with streamsOpen := (s.folders node).streamsOpen + 1 }

/-- `vfs_create_fd` for the task `i`, with the place in the file that its caller sets. -/
def vfsCreateFd (i : ℕ) (t : VfsTask) (node file mode pos : ℕ) : ℕ × Vfs :=
  let fd := freeNumber t.fds t.fds.length 0
  (fd, (s.openStream node file).setTask i { t with fds := t.fds ++ [⟨node, file, fd, pos, mode⟩] })

/-- The vnode has one descriptor less; a file that nothing needs is unloaded. -/
def closeStream (node file : ℕ) : Vfs :=
  if file ≠ 0 then
    let f := { s.files node with streamsOpen := (s.files node).streamsOpen - 1 }
    if f.streamsOpen = 0 ∧ f.cachedLinks = 0 then (s.setFile node f).unload node else s.setFile node f
  else s.setFolder node { s.folders node with streamsOpen := (s.folders node).streamsOpen - 1 }

/-- `kclose`. `vfs_close_file` looks for the descriptor that is before the one to close: the first of the list is not
found. -/
def kclose (i : ℕ) (t : VfsTask) (fd : ℤ) : ℤ × Vfs :=
  match t.fds.findIdx? fun d => (d.fd : ℤ) = fd with
  | none => (-ERR_INVALID_PARAM, s)
  | some 0 => (-ERR_INVALID_PARAM, s)
  | some (k + 1) =>
    match t.fds[k + 1]? with
    | none => (-ERR_INVALID_PARAM, s)
    | some d => (GENERIC_SUCCESS, (s.closeStream d.node d.file).setTask i { t with fds := t.fds.eraseIdx (k + 1) })

/-- The loop of `terminate_task`, over the list as it was before the loop. -/
def closeAll (i : ℕ) : List Descriptor → Vfs → Vfs
  | [], s => s
  | d :: fds, s =>
    match s.tasks[i]? with
    | none => s
    | some t => closeAll i fds (s.kclose i t d.fd).2

/-- The loop of `copy_task` over the descriptors. -/
def copyFds (i : ℕ) : List Descriptor → Vfs → Vfs
  | [], s => s
  | d :: fds, s =>
    match s.tasks[i]? with
    | none => s
    | some t => copyFds i fds (s.vfsCreateFd i t d.node d.file d.mode d.pos).2

end Vfs

/-! ## Calls -/

namespace Vfs

variable (W : World) (may : Vfs → Hazard → Bool) (s : Vfs)

def kopen (i : ℕ) (t : VfsTask) (prev : UInt8) (path : List UInt8) (mode : ℕ) : Option (ℤ × Vfs) :=
  (s.vfsSearchVnode W may t prev path).bind fun (node, file, s) =>
    (if node = NULL ∧ mode &&& O_CREAT ≠ 0 then (s.mknodeFile W may prev path).map fun (node, s) => (node, 1, s)
      else some (node, file, s)).map fun (node, file, s) =>
        if node = NULL then (-ERR_NOT_FOUND, s)
        else if file = FILE_DIR ∧ mode ≠ FD_READ then (-ERR_INVALID_PARAM, s)
        else
          let (fd, s) := s.vfsCreateFd i t node file mode 0
          (fd, s)

def kpipeu (i : ℕ) (t : VfsTask) : Option (ℤ × Vfs) :=
  (s.alloc W .pipe).map fun (a, s) =>
    let (fd, s) := (s.setFile a ⟨0, 0⟩).vfsCreateFd i t a 1 FD_READ 0
    -- the second call sees the list with the first descriptor
    let t := { t with fds := t.fds ++ [⟨a, 1, fd, 0, FD_READ⟩] }
    let (_, s) := s.vfsCreateFd i t a 1 FD_WRITE 0
    (GENERIC_SUCCESS, s)

/-- The entry `k` of a list, for `vfs_read_dir`: the place of the descriptor moves on, and the vnode is loaded. The loop
stops at `NULL`; a list that ends just before `k` is read behind its end. -/
def readEntry (i : ℕ) (moved : VfsTask) (load : Vfs → ℕ → Tnode → Option (ℕ × Vfs)) (l : List Tnode) (k : ℕ) : Option Vfs :=
  if l.length < k then some s
  else
    l[k]?.bind fun e =>
      let s := s.setTask i moved
      if e.vnode = NULL then (load s k e).map Prod.snd else some s

/-- The state after `kread`. -/
def kread (i : ℕ) (t : VfsTask) (fd : ℤ) (amount : ℕ) : Option Vfs :=
  match t.fds.findIdx? fun d => (d.fd : ℤ) = fd with
  | none => some s
  | some k =>
    match t.fds[k]? with
    | none => some s
    | some d =>
      let moved := fun n => { t with fds := t.fds.set k { d with pos := u64 (d.pos + n) } }
      if d.file = FILE_DIR then
        let f := s.folders d.node
        if amount < SIZEOF_DIRENT ∨ f.subfolderCount + f.subfileCount ≤ d.pos then some s
        else if d.pos < f.subfolderCount then
          s.readEntry i (moved 1) (fun s k t => s.vfsLoadFolderAt W may d.node k t) f.subfolders d.pos
        else
          s.readEntry i (moved 1) (fun s k t => s.vfsLoadFileAt W may d.node k t) f.subfiles (d.pos - f.subfolderCount)
      else some (s.tick.setTask i (moved (W.read s.clock)))

def kchdir (i : ℕ) (t : VfsTask) (prev : UInt8) (path : List UInt8) : Option (ℤ × Vfs) :=
  (s.vfsSearchVnode W may t prev path).map fun (node, file, s) =>
    if file ≠ 0 ∨ node = NULL then (-ERR_INVALID_PARAM, s)
    else (GENERIC_SUCCESS, s.setTask i { t with currentDir := node })

def terminateTask (i : ℕ) (t : VfsTask) : Option Vfs :=
  if may s (.exit i) then some ((s.closeAll i t.fds).setTask i ⟨false, [], NULL⟩) else none

/-- `copy_task`. -/
def copyTask (t : VfsTask) : Vfs :=
  ({ s with tasks := s.tasks ++ [⟨true, [], t.currentDir⟩] } : Vfs).copyFds s.tasks.length t.fds

/-- `exec`, after `load_elf`: a new task takes over, and the old one exits. -/
def exec (i : ℕ) (t : VfsTask) : Option Vfs :=
  let s : Vfs := { s with tasks := s.tasks ++ [⟨true, t.fds, t.currentDir⟩] }
  let t := { t with fds := [], currentDir := NULL }
  (s.setTask i t).terminateTask may i t

end Vfs

/-! ## Runs -/

/-- The calls of a task. -/
inductive VfsCall
  | open (prev : UInt8) (path : List UInt8) (mode : ℕ)
  | pipe
  | close (fd : ℤ)
  | read (fd : ℤ) (amount : ℕ)
  | chdir (prev : UInt8) (path : List UInt8)
  | fork
  | exec
  | exit
  /-- `create_task`, by the kernel: a task without descriptors. -/
  | create

/-- The task `i` makes a call. -/
def Vfs.step (W : World) (may : Vfs → Hazard → Bool) (s : Vfs) (e : ℕ × VfsCall) : Option Vfs :=
  match s.tasks[e.1]? with
  | none => none
  | some t =>
    if t.alive then
      match e.2 with
      | .open prev path mode => (s.kopen W may e.1 t prev path mode).map Prod.snd
      | .pipe => (s.kpipeu W e.1 t).map Prod.snd
      | .close fd => some (s.kclose e.1 t fd).2
      | .read fd amount => s.kread W may e.1 t fd amount
      | .chdir prev path => (s.kchdir W may e.1 t prev path).map Prod.snd
      | .fork => some (s.copyTask t)
      | .exec => s.exec may e.1 t
      | .exit => s.terminateTask may e.1 t
      | .create => some { s with tasks := s.tasks ++ [⟨true, [], NULL⟩] }
    else none

end Nettapus
