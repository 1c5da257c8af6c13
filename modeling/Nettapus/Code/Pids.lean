import Nettapus.Code.Sync
import Mathlib.Data.Int.Notation

/-!
# Processes (`find_task` in `task/task.c`, `exec` and `wait` in `syscall/syscalls.c`)

`Procs` is the machine of `Code/Sync.lean` with two more steps: a user task calls `exec`, or `terminate_task`. `gone`
has the tasks that did so. What they do after that, up to the wait on the queue of the terminator, are calls like
others.

Wait queues are blocks of the heap of their own: a new one is not in use, and only the terminator signals the one of a
task, when the task is gone.
-/

namespace Nettapus

/-! ## Looking a task up -/

section Find

variable (s : Sched) (pid : ℕ)

/-- The loop of `find_task`. `none` when it takes more than `fuel` steps. -/
def findTaskLoop : ℕ → ℕ → Option ℕ
  | 0, _ => none
  | fuel + 1, i =>
    if i = NULL then some NULL
    else if (s.task i).pid = pid then some i
    else findTaskLoop fuel (s.next i)

/-- `find_task`. -/
def findTask (fuel : ℕ) : Option ℕ :=
  if (s.task s.currentTask).pid = pid then some s.currentTask
  else findTaskLoop s pid fuel s.firstTask

/-- `wait`: an error code, or the call of `wait_queue`. -/
def waitPid (fuel : ℕ) : Option (Except ℤ Call) :=
  (findTask s pid fuel).map fun t =>
    if t = NULL then .error (-ERR_INVALID_PARAM) else .ok (.wait (s.task t).waitQueue)

/-- `exec` after `load_elf`, up to its `exit`: the new task at `t`, with a queue at `q` that is freed again. -/
def execTask (main t q : ℕ) : Sched :=
  let s := lockScheduler s
  let oldt := s.currentTask
  let s := (createTask s main t q 3).2
  let s := s.modify t fun newt => { newt with pid := (s.task oldt).pid }
  let s := s.modify t fun newt => { newt with waitQueue := (s.task oldt).waitQueue }
  let s := s.modify oldt fun k => { k with waitQueue := NULL }
  unlockScheduler s

end Find

/-! ## The machine -/

structure Procs where
  kernel : Kernel
  /-- The tasks that called `terminate_task`, or `exec`. -/
  gone : List ℕ

inductive ProcEvent
  | kernel (e : Event)
  | exec (main t q : ℕ)
  | terminate
  deriving DecidableEq, Repr

namespace Procs

variable (p : Procs)

def sched : Sched := p.kernel.sched

/-- A user task that was created, and is not gone. -/
def Live (t : ℕ) : Prop := t ∈ p.kernel.tasks ∧ (p.sched.task t).ring ≠ 0 ∧ t ∉ p.gone

instance (t : ℕ) : Decidable (p.Live t) := inferInstanceAs (Decidable (_ ∧ _ ∧ _))

/-- The block is not a queue that is in use. -/
def NewQueue (q : ℕ) : Prop :=
  q ≠ NULL ∧ p.kernel.queue q = Queue.zero ∧
    ∀ t ∈ p.kernel.tasks, (p.sched.task t).waitQueue ≠ q ∧ p.kernel.pc t ≠ .call .lock (.signal q) ∧
      p.kernel.pc t ≠ .call .body (.signal q)

instance (q : ℕ) : Decidable (p.NewQueue q) := inferInstanceAs (Decidable (_ ∧ _ ∧ _))

/-- No live task has the queue as its wait queue. -/
def Ownerless (q : ℕ) : Prop := ∀ t ∈ p.kernel.tasks, p.Live t → (p.sched.task t).waitQueue ≠ q

instance (q : ℕ) : Decidable (p.Ownerless q) := inferInstanceAs (Decidable (∀ t ∈ _, _ → _))

/-- The steps of the machine below that processes make. -/
def Allowed : Event → Prop
  | .call (.signal q) => p.Ownerless q
  | .create _ _ q _ => p.NewQueue q
  | .copy _ _ q => p.NewQueue q
  | _ => True

instance (e : Event) : Decidable (p.Allowed e) :=
  match e with
  | .call (.signal q) => inferInstanceAs (Decidable (p.Ownerless q))
  | .create _ _ q _ => inferInstanceAs (Decidable (p.NewQueue q))
  | .copy _ _ q => inferInstanceAs (Decidable (p.NewQueue q))
  | .call (.acquire _) | .call (.release _) | .call (.wait _) | .call .unlock | .lock | .run | .timer | .idle =>
    isTrue trivial

/-- The current task is a live one, and is not in the middle of another call. The idle task makes no calls. -/
def Calls : Prop := p.Live p.kernel.cur ∧ p.kernel.pc p.kernel.cur = .user ∧ p.kernel.cur ≠ p.kernel.idle

instance : Decidable p.Calls := inferInstanceAs (Decidable (_ ∧ _ ∧ _))

def step : ProcEvent → Option Procs
  | .kernel e => if p.Allowed e then (p.kernel.step e).map fun k => { p with kernel := k } else none
  | .exec main t q =>
    if p.Calls ∧ main ≠ NULL ∧ p.kernel.Fresh t ∧ p.NewQueue q then
      some ⟨{ p.kernel with sched := execTask p.sched main t q, tasks := t :: p.kernel.tasks },
        p.kernel.cur :: p.gone⟩
    else none
  | .terminate => if p.Calls then some { p with gone := p.kernel.cur :: p.gone } else none

end Procs

end Nettapus
