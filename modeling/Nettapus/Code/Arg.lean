import Nettapus.Code.Blocks
import Nettapus.Code.Syscall

/-!
# Arguments of a task (`task/arg.c`, `task/task.c`)

The arguments of a task are a list of blocks of the heap, with one string in a block of its own for each. `create_task`
builds the list, `copy_task` copies it for the child, and `getarg` looks an argument up.

Only what these functions do with arguments is here; the rest of `create_task` and `copy_task` is in `Code/Sched.lean`,
`Code/Vfs.lean` and `Code/Space.lean`. A string is the list of its bytes, without the terminating one.
-/

namespace Nettapus

/-- `struct task_arg`. -/
structure TaskArg where
  str : ℕ
  next : ℕ
  deriving DecidableEq

/-- The nodes and the strings, by their addresses, and the live blocks. -/
structure ArgMem where
  arg : ℕ → TaskArg
  str : ℕ → List UInt8
  live : Finset ℕ

/-- `first_arg` and `last_arg` of a task. -/
structure ArgTask where
  firstArg : ℕ
  lastArg : ℕ
  deriving DecidableEq

namespace ArgMem

/-- `i->next = next`. -/
def setNext (m : ArgMem) (i next : ℕ) : ArgMem :=
  { m with arg := Function.update m.arg i { m.arg i with next := next } }

section Build

variable (A : Allocator)

/-- A node from `kmalloc` with a copy of the string. Its `next` is what was in the memory before. -/
def newArg (m : ArgMem) (bytes : List UInt8) : ArgMem × ℕ :=
  let (i, live) := A.kmalloc m.live
  let (p, live) := A.kmalloc live
  ({ arg := Function.update m.arg i { m.arg i with str := p }, str := Function.update m.str p bytes, live := live }, i)

/-- The node goes to the end of the list. -/
def linkArg (m : ArgMem) (t : ArgTask) (i : ℕ) : ArgMem × ArgTask :=
  if t.firstArg = NULL then (m, ⟨i, i⟩)
  else
    let m := m.setNext t.lastArg i
    (m, { t with lastArg := (m.arg t.lastArg).next })

/-- The loop of `create_task` over `argv`, with the number of arguments so far. -/
def createArgsLoop : List (List UInt8) → ArgMem → ArgTask → ℕ → ArgMem × ArgTask × ℕ
  | [], m, t, argc => (m, t, argc)
  | s :: argv, m, t, argc =>
    let (m, i) := m.newArg A s
    let (m, t) := (m.setNext i NULL).linkArg t i
    createArgsLoop argv m t (argc + 1)

/-- `create_task`: the arguments of the new task, and what it has in `rax`. `argv` is `none` for `NULL`. -/
def createArgs (m : ArgMem) (argv : Option (List (List UInt8))) : ArgMem × ArgTask × ℕ :=
  createArgsLoop A (argv.getD []) m ⟨NULL, NULL⟩ 0

/-- The loop of `copy_task` over the arguments from `it`, for the child `nt`. `next` of the new node is not set. `none`
when it takes more than `fuel` steps. -/
def copyArgsLoop : ℕ → ArgMem → ArgTask → ℕ → Option (ArgMem × ArgTask)
  | 0, _, _, _ => none
  | fuel + 1, m, nt, it =>
    if it = NULL then some (m, nt)
    else
      let (m, j) := m.newArg A (m.str (m.arg it).str)
      let (m, nt) := m.linkArg nt j
      copyArgsLoop fuel m nt (m.arg it).next

/-- `copy_task`: the child starts as a copy of the bytes of `t`. -/
def copyArgs (fuel : ℕ) (m : ArgMem) (t : ArgTask) : Option (ArgMem × ArgTask) := copyArgsLoop A fuel m t t.firstArg

end Build

variable (m : ArgMem) (t : ArgTask)

/-- `arg` times to the next node, if there is one. -/
def walkArgs : ℕ → ℕ → ℕ
  | 0, i => i
  | n + 1, i => if i = NULL then i else walkArgs n (m.arg i).next

/-- `task_get_arg`: the string, or `none` for `NULL`. -/
def taskGetArg (arg : ℕ) : Option (List UInt8) :=
  let i := m.walkArgs arg t.firstArg
  if i = NULL then none
  else if (m.arg i).str = NULL then none
  else some (m.str (m.arg i).str)

/-- `getarg` as in `Code/Syscall.lean`, with the list of the task. -/
def getarg (v : Vmm) (pml4t arg buf limit : ℕ) : Except ℤ (ℕ × List UInt8 × ℕ) := do
  Syscall.checkPointer v pml4t buf
  match m.taskGetArg t arg with
  | none => .error (-ERR_NOT_FOUND)
  | some str => .ok (buf, str, if limit ≤ str.length then sub64 limit 1 else str.length)

end ArgMem

end Nettapus
