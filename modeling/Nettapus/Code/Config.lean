import Nettapus.Code.Blocks
import Nettapus.Code.ElfLocks
import Nettapus.Code.Ext2Mknod

/-!
# The configuration (`config/config.c`)

The variables are a list of blocks of the heap, built by `reload_config` from the lines of a file. Names and values have
blocks of their own that nothing changes or frees, and are kept in the node, as lists of bytes without the terminating
one. The mutex gives exclusion, and is not in this model.

The file systems are given by what `kopen` finds in them, and whether they can be mounted.
-/

namespace Nettapus

def ERR_OUT_OF_BOUNDS : ℕ := 6

/-- `struct config_variable`. -/
structure ConfigVariable where
  name : List UInt8
  value : List UInt8
  next : ℕ
  deriving DecidableEq

/-- The variables by their addresses, the live blocks, and `first_var` and `last_var`. -/
structure ConfigMem where
  var : ℕ → ConfigVariable
  live : Finset ℕ
  firstVar : ℕ
  lastVar : ℕ

namespace ConfigMem

variable (m : ConfigMem)

/-- `i->next`. -/
def next (i : ℕ) : ℕ := (m.var i).next

/-- `i->next = n`. -/
def setNext (i n : ℕ) : ConfigMem := { m with var := Function.update m.var i { m.var i with next := n } }

/-- The loop of `config_get_variable`. `none` when it takes more than `fuel` steps. -/
def getLoop (name : List UInt8) : ℕ → ℕ → Option (Option (List UInt8))
  | 0, _ => none
  | fuel + 1, i =>
    if i = NULL then some none
    else if (m.var i).name = name then some (some (m.var i).value)
    else getLoop name fuel (m.next i)

/-- `config_get_variable`, where `none` is `NULL`. -/
def configGetVariable (fuel : ℕ) (name : Option (List UInt8)) : Option (Option (List UInt8)) :=
  match name with
  | none => some none
  | some name => if m.firstVar = NULL then some none else m.getLoop name fuel m.firstVar

def addVar (var : ℕ) : ℕ × ConfigMem :=
  if var = NULL then (ERR_INVALID_PARAM, m)
  else if m.firstVar = NULL then (GENERIC_SUCCESS, { m.setNext var NULL with firstVar := var, lastVar := var })
  else
    let m := m.setNext m.lastVar var
    let m := { m with lastVar := var }
    (GENERIC_SUCCESS, m.setNext var NULL)

/-- The loop of `free_var_list`, with the nodes that were visited. `none` when it takes more than `fuel` steps, and
`some none` when it reads `next` through the null pointer. -/
def freeLoop : ℕ → ConfigMem → ℕ → ℕ → List ℕ → Option (Option (ConfigMem × List ℕ))
  | 0, _, _, _, _ => none
  | fuel + 1, m, i, j, visited =>
    if i = NULL then some (some (m, visited))
    else
      let m := { m with live := kfreeBlock m.live i }
      if j = NULL then some none
      else freeLoop fuel m j (m.next j) (visited ++ [i])

def freeVarList (fuel : ℕ) : Option (Option (ConfigMem × List ℕ)) :=
  (freeLoop fuel m m.firstVar (if m.firstVar = NULL then NULL else m.next m.firstVar) []).map fun r =>
    r.map fun (m, visited) => ({ m with firstVar := NULL, lastVar := NULL }, visited)

/-- `parse_config_line`, where the line is the string in the buffer. -/
def parseConfigLine (A : Allocator) (line : List UInt8) : ℕ × ConfigMem :=
  match line.idxOf? 0x3d with
  | none => (ERR_NO_RESULT, m)
  | some eq =>
    let (_, live) := A.kmalloc m.live
    let (_, live) := A.kmalloc live
    let (i, live) := A.kmalloc live
    addVar { m with live := live, var := Function.update m.var i ⟨line.take eq, line.drop (eq + 1), NULL⟩ } i

end ConfigMem

/-! ## Reading lines -/

/-- A file system: whether it can be mounted, and what `kopen` finds in it. -/
structure ConfigFs where
  mounts : Bool
  found : Option FileDescriptor

/-- What `reload_config` works with. `behind` is what is in memory behind the buffer for a line, up to a zero. -/
structure ConfigEnv where
  alloc : Allocator
  fss : List ConfigFs
  disk : DriverRead
  special : SpecialRead
  behind : List UInt8

/-- The variables, the descriptors of the task, and the place of the root file system in the list. -/
structure ConfigState where
  mem : ConfigMem
  fds : List FileDescriptor
  root : ℕ

/-- `atol`. The wrapping of `int64_t` is left to the conversion of the result. -/
def atol (buf : List UInt8) : ℤ :=
  let digits (l : List UInt8) :=
    l.foldl (fun val c => val * 10 + ((if c < 0x80 then (c.toNat : ℤ) else c.toNat - 256) - 0x30)) 0
  match buf with
  | 0x2d :: l => -digits l
  | l => digits l

namespace ConfigEnv

variable (env : ConfigEnv)

/-- The loop of `read_line`, with room for `n` more bytes behind the next one: the status, and the bytes in the buffer. -/
def readLineLoop (fd : ℤ) : ℕ → List FileDescriptor → List UInt8 → Option (ℕ × List UInt8 × List FileDescriptor)
  | n, fds, buf =>
    (kread env.disk env.special.read fds fd 1).bind fun r =>
      if r.status ≠ 1 then some (ERR_EOF, buf, r.state)
      else
        let c := r.data.getD 0 0
        if c = 0x0a ∨ c = 0 then some (GENERIC_SUCCESS, buf, r.state)
        else
          match n with
          | 0 => some (ERR_OUT_OF_BOUNDS, buf ++ [c], r.state)
          | n + 1 => readLineLoop fd n r.state (buf ++ [c])

def readLine (fd : ℤ) (fds : List FileDescriptor) (max : ℕ) : Option (ℕ × List UInt8 × List FileDescriptor) :=
  if fd < 0 then some (ERR_INVALID_PARAM, [], fds) else env.readLineLoop fd (max - 1) fds []

/-! ## `reload_config` -/

/-- The loop over the file systems behind the root, after a call of `kopen`: the descriptor, if there is one, and the
new root. -/
def openLoop : List ConfigFs → ℕ → ℤ × List FileDescriptor → Option (Option ℤ × List FileDescriptor × ℕ)
  | fss, root, (fd, fds) =>
    if fd < 0 then
      match fss with
      | [] => some (none, fds, 0)
      | fs :: fss =>
        if fs.mounts then (kopenFd fds fs.found).bind fun r => openLoop fss (root + 1) r
        else some (none, fds, 0)
    else some (some fd, fds, root)

/-- The loop over the lines. `lineBuf` has `lineLen` bytes; a line that does not fit goes on behind it. -/
def reloadLoop (fd : ℤ) (lineBuf lineLen : ℕ) : ℕ → ConfigState → Option (ℕ × ConfigState)
  | 0, _ => none
  | fuel + 1, s =>
    (env.readLine fd s.fds lineLen).bind fun (stat, line, fds) =>
      let closed := (kcloseFd fds fd).2
      let (parsed, mem) := s.mem.parseConfigLine env.alloc (if stat = ERR_OUT_OF_BOUNDS then line ++ env.behind else line)
      let freed := { mem with live := kfreeBlock mem.live lineBuf }
      if stat ≠ GENERIC_SUCCESS then
        some (if stat = ERR_EOF then GENERIC_SUCCESS else stat, { s with mem := freed, fds := closed })
      else if parsed ≠ GENERIC_SUCCESS then
        -- the next line is read from the descriptor that was closed
        if parsed = ERR_NO_RESULT then reloadLoop fd lineBuf lineLen fuel { s with mem := mem, fds := closed }
        else some (parsed, { s with mem := freed, fds := closed })
      else reloadLoop fd lineBuf lineLen fuel { s with mem := mem, fds := fds }

/-- `reload_config`: the status and the state. There is no result when `free_var_list` has none, or when the buffer has no
bytes. -/
def reloadConfig (fuel f : ℕ) (s : ConfigState) : Option (ℕ × ConfigState) :=
  if f = NULL then some (ERR_INVALID_PARAM, s)
  else
    (s.mem.freeVarList fuel).bind fun freed =>
    freed.bind fun (mem, _) =>
    (kopenFd s.fds ((env.fss[s.root]?).bind (·.found))).bind fun r =>
    (openLoop (env.fss.drop (s.root + 1)) s.root r).bind fun (fd, fds, root) =>
      match fd with
      | none => some (ERR_INVALID_PARAM, ⟨mem, fds, root⟩)
      | some fd =>
        (env.readLine fd fds 20).bind fun (stat, lineLena, fds) =>
          if stat ≠ GENERIC_SUCCESS then some (ERR_INVALID_PARAM, ⟨mem, (kcloseFd fds fd).2, root⟩)
          else
            let lineLen := toSize (atol lineLena)
            let (lineBuf, live) := env.alloc.kmalloc mem.live
            if lineLen = 0 then none
            else env.reloadLoop fd lineBuf lineLen fuel ⟨{ mem with live := live }, fds, root⟩

end ConfigEnv

end Nettapus
