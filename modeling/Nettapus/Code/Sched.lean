import Nettapus.Code.Base
import Mathlib.Logic.Function.Basic

/-!
# The scheduler (`arch/x86-64/task/task.c`)

`struct task` is kept by its address. Of its fields the scheduler's lists and the
counters are modelled; the registers and the address space that `switch_task` saves
and loads are not. After `switch_task` the code that goes on is that of the task
switched to, which returns from a `yield` of its own, or starts in `task_loader` or in
the child's half of `kfork`; each of them calls `unlock_scheduler` next, and the
functions below that yield end with this call.

The pointers that `kmalloc` returns are arguments of the functions that allocate.
-/

namespace Nettapus

def TASK_DEFAULT_TIME : ℕ := 50

/-- The values of `task.state`; `zero` is what `memset` leaves. -/
inductive TaskState
  | zero
  | running
  | ready
  | block
  deriving DecidableEq, Repr

/-- `struct task`. -/
structure Task where
  ticksRemaining : ℕ
  state : TaskState
  ring : ℕ
  pid : ℕ
  waitQueue : ℕ
  next : ℕ
  deriving DecidableEq, Repr

/-- The tasks and the global variables of `task.c`. -/
structure Sched where
  task : ℕ → Task
  currentTask : ℕ
  firstTask : ℕ
  lastTask : ℕ
  schedLock : ℕ
  taskSwitchLock : ℕ
  taskSwitchPostponed : ℕ
  lastPid : ℕ

namespace Sched

variable (s : Sched)

/-- `t->state`. -/
def state (t : ℕ) : TaskState := (s.task t).state

/-- `t->next`. -/
def next (t : ℕ) : ℕ := (s.task t).next

/-- Assignments to fields of the task `t`. -/
def modify (t : ℕ) (f : Task → Task) : Sched :=
  { s with task := Function.update s.task t (f (s.task t)) }

def setNext (t n : ℕ) : Sched := s.modify t fun k => { k with next := n }

def setState (t : ℕ) (st : TaskState) : Sched := s.modify t fun k => { k with state := st }

end Sched

/-! ## The locks -/

variable (s : Sched)

def lockScheduler : Sched := { s with schedLock := s.schedLock + 1 }

def unlockScheduler : Sched :=
  if s.schedLock = 0 then s else { s with schedLock := s.schedLock - 1 }

def lockTaskSwitches : Sched := { s with taskSwitchLock := s.taskSwitchLock + 1 }

/-! ## The ready list -/

/-- Puts a task at the end of the list, through `last_task->next`. -/
def pushTask (t : ℕ) : Sched :=
  let s := s.setNext s.lastTask t
  { s with lastTask := s.next s.lastTask }

/-- Takes the first task of the list as the current one. -/
def popTask : Sched :=
  let s := { s with currentTask := s.firstTask }
  let s :=
    if s.firstTask = s.lastTask then { s with firstTask := NULL, lastTask := NULL }
    else { s with firstTask := s.next s.firstTask }
  s.modify s.currentTask fun k =>
    { k with state := .running, ticksRemaining := TASK_DEFAULT_TIME, next := NULL }

def yield : Sched :=
  if s.taskSwitchLock ≠ 0 then { s with taskSwitchPostponed := s.taskSwitchPostponed + 1 }
  else if s.firstTask = NULL ∨ s.lastTask = NULL then s
  else
    let s :=
      -- a task that was set to blocked is not put back
      if s.state s.currentTask = .running then
        pushTask (s.modify s.currentTask fun k =>
          { k with next := NULL, ticksRemaining := TASK_DEFAULT_TIME, state := .ready }) s.currentTask
      else s
    popTask s

def blockTask : Sched :=
  let s := lockScheduler s
  let s := s.setState s.currentTask .block
  unlockScheduler (yield s)

def unblockTask (t : ℕ) : Sched :=
  let s := lockScheduler s
  let s := s.setState t .ready
  let s := s.setNext t NULL
  let s :=
    if s.lastTask = NULL then { s with firstTask := t, lastTask := t }
    else pushTask s t
  unlockScheduler s

def unlockTaskSwitches : Sched :=
  if s.taskSwitchLock = 0 then s
  else
    let s := { s with taskSwitchLock := s.taskSwitchLock - 1 }
    if s.taskSwitchLock = 0 ∧ s.taskSwitchPostponed ≠ 0 then
      unlockScheduler (yield (lockScheduler { s with taskSwitchPostponed := 0 }))
    else s

def schedulerIrq0 : Sched :=
  if s.currentTask = NULL then s
  else
    let s :=
      if (s.task s.currentTask).ticksRemaining ≠ 0 then
        unlockScheduler ((lockScheduler s).modify s.currentTask fun k =>
          { k with ticksRemaining := k.ticksRemaining - 1 })
      else s
    if s.schedLock ≠ 0 then s
    else if (s.task s.currentTask).ticksRemaining = 0 then unlockScheduler (yield (lockScheduler s))
    else s

/-- One round of `idle_task_main`. -/
def idleTaskMain : Sched := s.modify s.currentTask fun k => { k with ticksRemaining := 1 }

/-! ## New tasks -/

/-- The fields that `initialise_task` sets besides the registers. -/
def initialiseTask (ring : ℕ) (t : Task) : Task :=
  { t with next := NULL, ticksRemaining := TASK_DEFAULT_TIME, ring := if ring ≠ 0 then 3 else 0 }

/-- Links a new task in front of the list. -/
def linkTask (t : ℕ) : Sched :=
  if s.firstTask ≠ NULL then { s.setNext t s.firstTask with firstTask := t }
  else { s with firstTask := t, lastTask := t }

/-- `create_task`, with the new task at `t` and its queue at `q`. The source clears `*t`
before it compares `t` with `NULL`. -/
def createTask (main t q ring : ℕ) : ℕ × Sched :=
  if main = NULL then (NULL, s)
  else if t = NULL then (NULL, unlockScheduler (lockScheduler s))
  else
    let s := lockScheduler s
    let s := s.modify t fun _ => ⟨0, .zero, 0, 0, 0, NULL⟩
    let s :=
      if ring ≠ 0 then
        { s.modify t fun k => { k with pid := s.lastPid } with lastPid := u64 (s.lastPid + 1) }
      else s
    let s := s.modify t fun k => initialiseTask ring { k with waitQueue := q }
    (t, unlockScheduler (linkTask s t))

/-- `copy_task`, with the copy at `nt` and its queue at `q`, once `copy_addr_space` has
returned a copy of the address space. -/
def copyTask (t nt q : ℕ) : ℕ × Sched :=
  if t = NULL then (NULL, s)
  else if nt = NULL then (NULL, s)
  else
    let s := lockScheduler s
    let s := s.modify nt fun _ =>
      { s.task t with
        next := NULL
        ticksRemaining := TASK_DEFAULT_TIME
        state := .ready
        pid := s.lastPid
        waitQueue := q }
    let s := { s with lastPid := u64 (s.lastPid + 1) }
    let s :=
      if s.firstTask = NULL then { s with firstTask := nt, lastTask := nt }
      else pushTask s nt
    (nt, unlockScheduler s)

/-- `init_scheduler` after a successful `init_tss`: the running code becomes the task at
`boot`, and the terminator and the idle task are created at `term` and `idle`. -/
def initScheduler (terminatorMain idleMain boot term idle qterm qidle : ℕ) : ℕ × Sched :=
  let s := lockScheduler s
  let s := { s with currentTask := boot }
  if s.currentTask = NULL then (1, s)
  else
    let s := s.modify boot fun _ => ⟨TASK_DEFAULT_TIME, .running, 0, 0, 0, boot⟩
    let s := { s with lastTask := NULL, firstTask := NULL }
    let s := (createTask s terminatorMain term qterm 0).2
    let s := (createTask s idleMain idle qidle 0).2
    (0, unlockScheduler s)

end Nettapus
