import Nettapus.Code.Sched

/-!
# Semaphores, queues and the tasks that use them

`arch/x86-64/task/semaphore.c`, `arch/x86-64/task/queue.c` and the switching of tasks in
`task.c`, as one machine. A state `Kernel` has the scheduler, the semaphores and the
queues, and for every task the place where it is in the code (`Pc`). The steps are those
of the one processor: the current task goes on, or the timer fires, or the idle task
turns; a task that is switched to goes on at its own place.

A step is a stretch of code in which a switch cannot happen, or makes no difference. With
`task_switch_lock` held no task but the current one runs; the timer may still fire, and
then only counts. `unlock_task_switches` is cut between its decrement, its test, the
assignment to `task_switch_postponed` and the `yield`, because the timer can switch tasks
at each of these points.

The last fields of `Kernel` are not in the code: they record who holds a semaphore and
who waits, so that the code can be compared with it.
-/

namespace Nettapus

/-- `struct semaphore`. -/
structure Semaphore where
  maxCount : ℕ
  currentCount : ℕ
  firstWaitingTask : ℕ
  lastWaitingTask : ℕ
  deriving DecidableEq, Repr

/-- Assigns `current_count`. -/
def Semaphore.setCount (m : Semaphore) (n : ℕ) : Semaphore := { m with currentCount := n }

/-- `struct queue`. -/
structure Queue where
  amountWaiting : ℕ
  firstTask : ℕ
  lastTask : ℕ
  deriving DecidableEq, Repr

def createSemaphore (maxCount : ℕ) : Semaphore := ⟨maxCount, 0, NULL, NULL⟩

/-- A queue after `memset`. -/
def Queue.zero : Queue := ⟨0, NULL, NULL⟩

/-! ## The critical sections -/

variable (s : Sched) (m : Semaphore) (q : Queue)

/-- `acquire_semaphore` puts the current task on the list. -/
def semEnqueue : Sched × Semaphore :=
  if m.lastWaitingTask = NULL then
    (s, { m with firstWaitingTask := s.currentTask, lastWaitingTask := s.currentTask })
  else
    (s.setNext m.lastWaitingTask s.currentTask, { m with lastWaitingTask := s.currentTask })

/-- `release_semaphore` wakes the first task on the list, and unlinks it then. -/
def semHandOver : Sched × Semaphore :=
  let s := unblockTask s m.firstWaitingTask
  let m := { m with firstWaitingTask := s.next m.firstWaitingTask }
  (s, if m.firstWaitingTask = NULL then { m with lastWaitingTask := NULL } else m)

/-- `wait_queue` counts the current task and puts it on the list. -/
def queueEnqueue : Sched × Queue :=
  let q := { q with amountWaiting := u64 (q.amountWaiting + 1) }
  if q.firstTask = NULL then
    (s.setNext s.currentTask NULL, { q with firstTask := s.currentTask, lastTask := s.currentTask })
  else
    let s := s.setNext q.lastTask s.currentTask
    let q := { q with lastTask := s.next q.lastTask }
    (s.setNext q.lastTask NULL, q)

/-- `signal_queue` wakes the first task on the list, and unlinks it then. -/
def queueWake : Sched × Queue :=
  if q.firstTask ≠ NULL then
    let q := { q with amountWaiting := sub64 q.amountWaiting 1 }
    let s := unblockTask s q.firstTask
    let q := { q with firstTask := s.next q.firstTask }
    (s, if q.firstTask = NULL then { q with lastTask := NULL } else q)
  else (s, q)

/-- `signal_queue` from its start to its end, with no other task in between. -/
def signalQueue : Sched × Queue :=
  if q.amountWaiting = 0 then (s, q)
  else
    let r := queueWake (lockTaskSwitches s) q
    (unlockTaskSwitches r.1, r.2)

/-- The loop of the terminator over the queue of the quitter: the number of iterations it
makes, or nothing when it does not end within `fuel`. -/
def terminatorLoop : ℕ → Sched → Queue → Option ℕ
  | 0, _, q => if q.amountWaiting > 0 then none else some 0
  | fuel + 1, s, q =>
    if q.amountWaiting > 0 then
      (terminatorLoop fuel (signalQueue s q).1 (signalQueue s q).2).map (· + 1)
    else some 0

/-! ## The machine -/

/-- The calls that a task makes. -/
inductive Call
  | acquire (s : ℕ)
  | release (s : ℕ)
  | wait (q : ℕ)
  | signal (q : ℕ)
  | unlock
  deriving DecidableEq, Repr

/-- The places inside a call: before the lock is taken (in `signal_queue`, which reads the
queue first), in the critical section, before `block_task`, and the parts of
`unlock_task_switches`. -/
inductive Stage
  | lock
  | body
  | block
  | unlock
  | test
  | reset
  | yield
  | ret
  deriving DecidableEq, Repr

/-- Where a task is in the code. -/
inductive Pc
  | user
  | call (g : Stage) (c : Call)
  deriving DecidableEq, Repr

/-- What a task can wait for. -/
inductive Obj
  | sem (s : ℕ)
  | queue (q : ℕ)
  deriving DecidableEq, Repr

structure Kernel where
  sched : Sched
  sem : ℕ → Semaphore
  queue : ℕ → Queue
  pc : ℕ → Pc
  idle : ℕ
  /-- All tasks. -/
  tasks : List ℕ
  /-- The tasks that were granted a semaphore and did not release it yet, one entry a grant. -/
  held : ℕ → List ℕ
  /-- The tasks that wait, in the order in which they came. -/
  waiting : Obj → List ℕ
  /-- A task's last `acquire_semaphore` was granted. -/
  granted : ℕ → Bool

namespace Kernel

variable (k : Kernel)

/-- The current task. -/
def cur : ℕ := k.sched.currentTask

/-- The task `t` goes to `p`. -/
def setPc (t : ℕ) (p : Pc) : Kernel := { k with pc := Function.update k.pc t p }

def setSem (s : ℕ) (r : Sched × Semaphore) : Kernel :=
  { k with sched := r.1, sem := Function.update k.sem s r.2 }

def setQueue (q : ℕ) (r : Sched × Queue) : Kernel :=
  { k with sched := r.1, queue := Function.update k.queue q r.2 }

/-- The task `t` starts to wait. -/
def join (o : Obj) (t : ℕ) : Kernel :=
  { k with waiting := Function.update k.waiting o (k.waiting o ++ [t]) }

/-- The task `t` does not wait any more. -/
def leave (o : Obj) (t : ℕ) : Kernel :=
  { k with waiting := Function.update k.waiting o ((k.waiting o).erase t) }

/-- The task `t` is granted a semaphore. -/
def grant (s t : ℕ) : Kernel :=
  { k with held := Function.update k.held s (k.held s ++ [t]), granted := Function.update k.granted t true }

/-- The task `t` gives a semaphore up. -/
def giveUp (s t : ℕ) : Kernel :=
  { k with held := Function.update k.held s ((k.held s).erase t) }

/-- The current task makes a call. Runs are restricted to those in which
`acquire_semaphore` is entered with no lock held, a release is made by a holder, and a
task that already waits neither waits again nor signals itself. -/
def enter : Call → Option Kernel
  | .acquire s =>
    if s = NULL then some k
    else if k.sched.taskSwitchLock = 0 then
      some { k with
        sched := lockTaskSwitches k.sched
        pc := Function.update k.pc k.cur (.call .body (.acquire s))
        granted := Function.update k.granted k.cur false }
    else none
  | .release s =>
    if s = NULL then some k
    else if k.cur ∈ k.held s then
      some ({ k with sched := lockTaskSwitches k.sched }.setPc k.cur (.call .body (.release s)))
    else none
  | .wait q =>
    if q = NULL then some k
    else if k.sched.state k.cur = .running then
      some ({ k with sched := lockTaskSwitches k.sched }.setPc k.cur (.call .body (.wait q)))
    else none
  | .signal q =>
    if q = NULL then some k
    else if (k.queue q).amountWaiting = 0 then some k
    else if k.cur ∈ k.waiting (.queue q) then none
    else some (k.setPc k.cur (.call .lock (.signal q)))
  | .unlock =>
    if k.sched.taskSwitchLock = 0 then some k
    else
      some ({ k with sched := { k.sched with taskSwitchLock := k.sched.taskSwitchLock - 1 } }.setPc k.cur
        (.call .test .unlock))

/-- The critical sections. -/
def body : Call → Option Kernel
  | .acquire s =>
    if (k.sem s).currentCount ≥ (k.sem s).maxCount then
      some (((k.setSem s (semEnqueue k.sched (k.sem s))).join (.sem s) k.cur).setPc k.cur
        (.call .block (.acquire s)))
    else
      some (((k.setSem s (k.sched, (k.sem s).setCount (u64 ((k.sem s).currentCount + 1)))).grant s
        k.cur).setPc k.cur (.call .unlock (.acquire s)))
  | .release s =>
    if (k.sem s).firstWaitingTask = NULL then
      some (((k.setSem s (k.sched, (k.sem s).setCount (sub64 (k.sem s).currentCount 1))).giveUp s
        k.cur).setPc k.cur (.call .unlock (.release s)))
    else
      let t := (k.sem s).firstWaitingTask
      some (((((k.setSem s (semHandOver k.sched (k.sem s))).giveUp s k.cur).grant s t).leave (.sem s)
        t).setPc k.cur (.call .unlock (.release s)))
  | .wait q =>
    some (((k.setQueue q (queueEnqueue k.sched (k.queue q))).join (.queue q) k.cur).setPc k.cur
      (.call .block (.wait q)))
  | .signal q =>
    some (((k.setQueue q (queueWake k.sched (k.queue q))).leave (.queue q) (k.queue q).firstTask).setPc k.cur
      (.call .unlock (.signal q)))
  | .unlock => none

/-- The current task goes on inside a call. -/
def advance : Pc → Option Kernel
  | .user => none
  | .call .lock (.signal q) =>
    some ({ k with sched := lockTaskSwitches k.sched }.setPc k.cur (.call .body (.signal q)))
  | .call .lock _ => none
  | .call .body c => k.body c
  | .call .block c => some ({ k.setPc k.cur (.call .unlock c) with sched := blockTask k.sched })
  | .call .unlock c =>
    if k.sched.taskSwitchLock = 0 then some (k.setPc k.cur (.call .ret c))
    else
      some ({ k with sched := { k.sched with taskSwitchLock := k.sched.taskSwitchLock - 1 } }.setPc k.cur
        (.call .test c))
  | .call .test c =>
    if k.sched.taskSwitchLock = 0 ∧ k.sched.taskSwitchPostponed ≠ 0 then some (k.setPc k.cur (.call .reset c))
    else some (k.setPc k.cur (.call .ret c))
  | .call .reset c =>
    some ({ k with sched := { k.sched with taskSwitchPostponed := 0 } }.setPc k.cur (.call .yield c))
  | .call .yield c =>
    some ({ k.setPc k.cur (.call .ret c) with sched := unlockScheduler (yield (lockScheduler k.sched)) })
  | .call .ret _ => some (k.setPc k.cur .user)

/-- An address for a new task. -/
def Fresh (t : ℕ) : Prop := t ≠ NULL ∧ t < 2 ^ 64 ∧ t ∉ k.tasks

instance (t : ℕ) : Decidable (k.Fresh t) := inferInstanceAs (Decidable (_ ∧ _ ∧ _))

end Kernel

inductive Event
  | call (c : Call)
  | lock
  | run
  | timer
  | idle
  | create (main t q ring : ℕ)
  | copy (t nt q : ℕ)
  deriving DecidableEq, Repr

/-- One step of the machine. The idle task makes no calls. -/
def Kernel.step (k : Kernel) : Event → Option Kernel
  | .call c => if k.cur ≠ k.idle ∧ k.pc k.cur = .user then k.enter c else none
  | .lock =>
    if k.cur ≠ k.idle ∧ k.pc k.cur = .user then some { k with sched := lockTaskSwitches k.sched } else none
  | .run => k.advance (k.pc k.cur)
  | .timer => some { k with sched := schedulerIrq0 k.sched }
  | .idle => if k.cur = k.idle then some { k with sched := idleTaskMain k.sched } else none
  | .create main t q ring =>
    if k.pc k.cur = .user ∧ main ≠ NULL ∧ k.Fresh t then
      some { k with sched := (createTask k.sched main t q ring).2, tasks := t :: k.tasks }
    else none
  | .copy t nt q =>
    if k.pc k.cur = .user ∧ t ∈ k.tasks ∧ k.Fresh nt then
      some { k with sched := (copyTask k.sched t nt q).2, tasks := nt :: k.tasks }
    else none

end Nettapus
