import Nettapus.Code.Sync
import Nettapus.Proof.SchedRun
import Nettapus.Lib.Runs

/-!
# Tasks that wait

The invariant of the machine of semaphores and queues, in four parts:

* `CoreInv`: the ready list, the locks, and where the tasks are in the code. A current
  task that is blocked is on its way to a `yield`.
* `ListInv`: each waiting list is linked through `next`, and has tasks that wait.
* `SemInv`: the grants of a semaphore are counted.
* `SigInv`: a task does not signal itself.

`SyncInv.quiet`, `SyncInv.move` and `SyncInv.switch` are the steps that leave the waiting
lists alone.
-/

namespace Nettapus

open Links Sched

variable {k k' : Kernel} {s t u : ℕ} {o : Obj} {R R' : List ℕ} {W W' : Obj → List ℕ}

/-! ## Places in the code -/

/-- The stages with `task_switch_lock` held by the call itself. -/
def Stage.Locked (g : Stage) : Prop := g = .body ∨ g = .block ∨ g = .unlock

/-- The stages after the test of `acquire_semaphore`. -/
def Stage.Decided (g : Stage) : Prop := g ≠ .lock ∧ g ≠ .body

def Pc.Locked (p : Pc) : Prop := ∃ g c, p = .call g c ∧ g.Locked

/-- In `acquire_semaphore` of `s`, after the test: the task was granted the semaphore, or found
it taken. -/
def Pc.DecidedFor (p : Pc) (s : ℕ) : Prop := ∃ g : Stage, g.Decided ∧ p = .call g (.acquire s)

def Call.IsAcquire (c : Call) : Prop := ∃ s, c = .acquire s

/-- The calls that can block. -/
def Call.Blocks (c : Call) : Prop := c.IsAcquire ∨ ∃ q, c = .wait q

/-- The call in which a task starts to wait. -/
def Obj.call : Obj → Call
  | .sem s => .acquire s
  | .queue q => .wait q

/-- The current task at a place in the code, with the task switch lock, the postponed
switches and its state. If it is blocked, a switch is postponed and not forgotten. -/
def CurOk (lock postponed : ℕ) (st : TaskState) : Pc → Prop
  | .user => st = .block → 0 < lock ∧ 0 < postponed
  | .call .lock _ => st = .block → 0 < lock ∧ 0 < postponed
  | .call .body c =>
    0 < lock ∧ (c.IsAcquire → lock = 1) ∧ (c.Blocks → st = .running) ∧ (st = .block → 0 < postponed)
  | .call .block c => 0 < lock ∧ (c.IsAcquire → lock = 1) ∧ st = .running
  | .call .unlock c => 0 < lock ∧ (c.IsAcquire → lock = 1) ∧ (st = .block → 0 < postponed)
  | .call .test c => (c.IsAcquire → lock = 0) ∧ (st = .block → 0 < postponed)
  | .call .reset _ => lock = 0
  | .call .yield _ => lock = 0
  | .call .ret c => (c.IsAcquire → lock = 0) ∧ (st = .block → 0 < lock ∧ 0 < postponed)

theorem CurOk.mono {l n n' : ℕ} {st : TaskState} {p : Pc} (h : CurOk l n st p) (hn : n ≤ n') :
    CurOk l n' st p := by
  cases p with
  | user => exact fun hb => ⟨(h hb).1, by have := (h hb).2; omega⟩
  | call g c =>
    cases g with
    | lock => exact fun hb => ⟨(h hb).1, by have := (h hb).2; omega⟩
    | body => exact ⟨h.1, h.2.1, h.2.2.1, fun hb => by have := h.2.2.2 hb; omega⟩
    | block => exact h
    | unlock => exact ⟨h.1, h.2.1, fun hb => by have := h.2.2 hb; omega⟩
    | test => exact ⟨h.1, fun hb => by have := h.2 hb; omega⟩
    | reset => exact h
    | yield => exact h
    | ret => exact ⟨h.1, fun hb => ⟨(h.2 hb).1, by have := (h.2 hb).2; omega⟩⟩

/-- With no lock held the current task is at a place where it can be switched from. -/
theorem CurOk.not_locked {n : ℕ} {st : TaskState} {p : Pc} (h : CurOk 0 n st p) : ¬ p.Locked := by
  rintro ⟨g, c, rfl, rfl | rfl | rfl⟩
  · exact absurd h.1 (Nat.lt_irrefl 0)
  · exact absurd h.1 (Nat.lt_irrefl 0)
  · exact absurd h.1 (Nat.lt_irrefl 0)

/-- A task that was switched from can be switched to. -/
theorem curOk_of_not_locked {n : ℕ} {p : Pc} (h : ¬ p.Locked) : CurOk 0 n .running p := by
  cases p with
  | user => intro hb; cases hb
  | call g c =>
    cases g with
    | lock => intro hb; cases hb
    | body => exact absurd ⟨_, _, rfl, Or.inl rfl⟩ h
    | block => exact absurd ⟨_, _, rfl, Or.inr (Or.inl rfl)⟩ h
    | unlock => exact absurd ⟨_, _, rfl, Or.inr (Or.inr rfl)⟩ h
    | test => exact ⟨fun _ => rfl, fun hb => by cases hb⟩
    | reset => rfl
    | yield => rfl
    | ret => exact ⟨fun _ => rfl, fun hb => by cases hb⟩

/-! ## The four parts -/

structure CoreInv (k : Kernel) (R : List ℕ) : Prop where
  sched : SchedInv k.sched k.idle k.tasks R
  schedLock : k.sched.schedLock = 0
  addr : ∀ t ∈ k.tasks, t < 2 ^ 64
  fresh : ∀ t, t ∉ k.tasks → k.pc t = .user
  idle_user : k.pc k.idle = .user
  cur_ok : CurOk k.sched.taskSwitchLock k.sched.taskSwitchPostponed (k.sched.state k.cur) (k.pc k.cur)
  other : ∀ t, t ≠ k.cur → ¬ (k.pc t).Locked

theorem CoreInv.cur_mem (h : CoreInv k R) : k.cur ∈ k.tasks := h.sched.current_mem

/-- The first task of a waiting list. -/
def Kernel.first (k : Kernel) : Obj → ℕ
  | .sem s => (k.sem s).firstWaitingTask
  | .queue q => (k.queue q).firstTask

/-- The last task of a waiting list. -/
def Kernel.last (k : Kernel) : Obj → ℕ
  | .sem s => (k.sem s).lastWaitingTask
  | .queue q => (k.queue q).lastTask

/-- `W o` is the list of `o` in memory. The boot task's `next` is the boot task itself at
first, so that nothing is said about `next` of the last task. -/
structure ListInv (k : Kernel) (W : Obj → List ℕ) : Prop where
  list : ∀ o, ∃ e, Fifo k.sched.next NULL (k.first o) (k.last o) (W o) e
  sub : ∀ o, ∀ t ∈ W o, t ∈ k.waiting o
  mem : ∀ o, ∀ t ∈ k.waiting o, t ∈ k.tasks
  blocked : ∀ o, ∀ t ∈ k.waiting o, k.sched.state t = .block ∨ k.pc t = .call .block o.call
  unique : ∀ o o' t, t ∈ k.waiting o → t ∈ k.waiting o' → o = o'
  nodup : ∀ o, (k.waiting o).Nodup

structure SemInv (k : Kernel) : Prop where
  wait : ∀ s, ∀ t ∈ k.waiting (.sem s), k.granted t = false ∧ (k.pc t).DecidedFor s
  decided : ∀ s t, (k.pc t).DecidedFor s → k.granted t = true ∨ t ∈ k.waiting (.sem s)
  pending : ∀ s t, k.pc t = .call .body (.acquire s) → k.granted t = false
  holds : ∀ s t, k.pc t = .call .body (.release s) → t ∈ k.held s
  count : ∀ s, (k.held s).length = (k.sem s).currentCount
  le : ∀ s, (k.sem s).currentCount ≤ (k.sem s).maxCount
  max : ∀ s, (k.sem s).maxCount < 2 ^ 31

/-- In `signal_queue` of `q`, before the task on the list is woken. -/
def Pc.Signals (p : Pc) (q : ℕ) : Prop := p = .call .lock (.signal q) ∨ p = .call .body (.signal q)

def SigInv (k : Kernel) : Prop := ∀ q t, (k.pc t).Signals q → t ∉ k.waiting (.queue q)

structure SyncInv (k : Kernel) (R : List ℕ) (W : Obj → List ℕ) : Prop where
  core : CoreInv k R
  lists : ListInv k W
  sems : SemInv k
  sigs : SigInv k

/-! ## Frames -/

theorem ListInv.frame (h : ListInv k W) (hf : ∀ o, k'.first o = k.first o)
    (hl : ∀ o, k'.last o = k.last o) (hw : k'.waiting = k.waiting) (ht : ∀ t ∈ k.tasks, t ∈ k'.tasks)
    (hn : ∀ o, ∀ t ∈ k.waiting o, k'.sched.next t = k.sched.next t)
    (hb : ∀ o, ∀ t ∈ k.waiting o, k'.sched.state t = .block ∨ k'.pc t = .call .block o.call) :
    ListInv k' W := by
  refine ⟨fun o => ?_, ?_, ?_, ?_, ?_, ?_⟩
  · obtain ⟨e, he⟩ := h.list o
    refine ⟨e, ?_⟩
    rw [hf, hl]
    exact he.congr fun t ht => hn o t (h.sub o t ht)
  all_goals rw [hw]
  · exact h.sub
  · exact fun o t ho => ht t (h.mem o t ho)
  · exact hb
  · exact h.unique
  · exact h.nodup

theorem SemInv.frame (h : SemInv k) (hw : k'.waiting = k.waiting) (hg : k'.granted = k.granted)
    (hh : k'.held = k.held) (hs : k'.sem = k.sem)
    (h1 : ∀ s, ∀ t ∈ k.waiting (.sem s), (k'.pc t).DecidedFor s)
    (h2 : ∀ s t, (k'.pc t).DecidedFor s → (k.pc t).DecidedFor s)
    (h3 : ∀ s t, k'.pc t = .call .body (.acquire s) → k.granted t = false)
    (h4 : ∀ s t, k'.pc t = .call .body (.release s) → t ∈ k.held s) : SemInv k' := by
  refine ⟨?_, ?_, ?_, ?_, ?_, ?_, ?_⟩
  · rw [hw, hg]
    exact fun s t ht => ⟨(h.wait s t ht).1, h1 s t ht⟩
  · rw [hw, hg]
    exact fun s t ht => h.decided s t (h2 s t ht)
  · rw [hg]; exact h3
  · rw [hh]; exact h4
  · rw [hh, hs]; exact h.count
  · rw [hs]; exact h.le
  · rw [hs]; exact h.max

/-- A place that the current task can move to in the waiting lists' eyes: it does not get in
or out of the second half of an `acquire_semaphore`, releases what it holds, and does
not signal itself. -/
structure MoveOk (k : Kernel) (p : Pc) : Prop where
  stay : ∀ s, k.cur ∈ k.waiting (.sem s) → p.DecidedFor s
  decided : ∀ s, p.DecidedFor s → (k.pc k.cur).DecidedFor s
  pending : ∀ s, p = .call .body (.acquire s) → k.granted k.cur = false
  holds : ∀ s, p = .call .body (.release s) → k.cur ∈ k.held s
  signals : ∀ q, p.Signals q → k.cur ∉ k.waiting (.queue q)

/-- The place where the task is is one. -/
theorem SyncInv.moveOk_self (h : SyncInv k R W) : MoveOk k (k.pc k.cur) :=
  ⟨fun s hs => (h.sems.wait s _ hs).2, fun _ hs => hs, fun s hs => h.sems.pending s _ hs,
    fun s hs => h.sems.holds s _ hs, fun q hq => h.sigs q _ hq⟩

theorem SemInv.move (h : SemInv k) {p : Pc} (hp : MoveOk k p) (hw : k'.waiting = k.waiting)
    (hg : k'.granted = k.granted) (hh : k'.held = k.held) (hs : k'.sem = k.sem)
    (hpc : k'.pc = Function.update k.pc k.cur p) : SemInv k' := by
  refine h.frame hw hg hh hs (fun s t ht => ?_) (fun s t ht => ?_) (fun s t ht => ?_) (fun s t ht => ?_)
  all_goals rw [hpc, Function.update_apply] at *
  · split_ifs with htc
    · exact hp.stay s (htc ▸ ht)
    · exact (h.wait s t ht).2
  · split_ifs at ht with htc
    · rw [htc]; exact hp.decided s ht
    · exact ht
  · split_ifs at ht with htc
    · rw [htc]; exact hp.pending s ht
    · exact h.pending s t ht
  · split_ifs at ht with htc
    · rw [htc]; exact hp.holds s ht
    · exact h.holds s t ht

theorem SigInv.move (h : SigInv k) {p : Pc} (hp : MoveOk k p) (hw : k'.waiting = k.waiting)
    (hpc : k'.pc = Function.update k.pc k.cur p) : SigInv k' := by
  intro q t ht
  rw [hpc, Function.update_apply] at ht
  rw [hw]
  split_ifs at ht with htc
  · rw [htc]; exact hp.signals q ht
  · exact h q t ht

/-! ## Steps of the scheduler alone -/

/-- A waiting task other than the current one is blocked: it cannot stand before
`block_task`, which is called with task switches locked. -/
theorem SyncInv.blocked_of_ne (h : SyncInv k R W) (ht : t ∈ k.waiting o) (htc : t ≠ k.cur) :
    k.sched.state t = .block := by
  refine (h.lists.blocked o t ht).resolve_right fun hpc => ?_
  exact h.core.other t htc ⟨_, _, hpc, Or.inr (Or.inl rfl)⟩

/-- The current task has not just been put on a list: it waits only if it is blocked. -/
theorem SyncInv.blocked_of_waiting (h : SyncInv k R W) (hb : ∀ c, k.pc k.cur ≠ .call .block c)
    (ht : t ∈ k.waiting o) : k.sched.state t = .block := by
  by_cases htc : t = k.cur
  · exact (h.lists.blocked o t ht).resolve_right (htc ▸ hb _)
  · exact h.blocked_of_ne ht htc

/-- **New tasks and the ticks of the timer.** -/
theorem SyncInv.quiet (h : SyncInv k R W) {s' : Sched} {T' : List ℕ} (hs : SchedInv s' k.idle T' R')
    (hc : s'.currentTask = k.cur) (hsl : s'.schedLock = k.sched.schedLock)
    (hl : s'.taskSwitchLock = k.sched.taskSwitchLock)
    (hp : k.sched.taskSwitchPostponed ≤ s'.taskSwitchPostponed)
    (hst : s'.state k.cur = k.sched.state k.cur) (hT : ∀ t ∈ k.tasks, t ∈ T')
    (ha : ∀ t ∈ T', t < 2 ^ 64)
    (hw : ∀ o, ∀ t ∈ k.waiting o, s'.next t = k.sched.next t ∧ s'.state t = k.sched.state t) :
    SyncInv { k with sched := s', tasks := T' } R' W := by
  have hcur : ({ k with sched := s', tasks := T' } : Kernel).cur = k.cur := hc
  refine ⟨⟨hs, hsl.trans h.core.schedLock, ha, fun t ht => h.core.fresh t fun h' => ht (hT t h'),
    h.core.idle_user, ?_, ?_⟩, ?_, ?_, h.sigs⟩
  · rw [hcur]
    show CurOk s'.taskSwitchLock s'.taskSwitchPostponed (s'.state k.cur) (k.pc k.cur)
    rw [hl, hst]
    exact h.core.cur_ok.mono hp
  · rw [hcur]; exact h.core.other
  · refine h.lists.frame (fun o => by cases o <;> rfl) (fun o => by cases o <;> rfl) rfl hT
      (fun o t ht => (hw o t ht).1) fun o t ht => ?_
    show s'.state t = _ ∨ _
    rw [(hw o t ht).2]
    exact h.lists.blocked o t ht
  · exact h.sems.frame rfl rfl rfl rfl (fun s t ht => (h.sems.wait s t ht).2) (fun _ _ ht => ht)
      h.sems.pending h.sems.holds

/-- **The current task moves on**, with new values of the lock and of the postponed switches. -/
theorem SyncInv.move (h : SyncInv k R W) {l n : ℕ} {p : Pc} (hp : CurOk l n (k.sched.state k.cur) p)
    (hidle : k.cur ≠ k.idle) (hb : ∀ c, k.pc k.cur ≠ .call .block c) (hm : MoveOk k p) :
    SyncInv { k with
      sched := { k.sched with taskSwitchLock := l, taskSwitchPostponed := n }
      pc := Function.update k.pc k.cur p } R W := by
  set k' : Kernel := { k with
      sched := { k.sched with taskSwitchLock := l, taskSwitchPostponed := n }
      pc := Function.update k.pc k.cur p } with hk'
  have hcur : k'.cur = k.cur := rfl
  have hpc : ∀ t, k'.pc t = if t = k.cur then p else k.pc t := fun t => Function.update_apply _ _ _ _
  refine ⟨⟨?_, h.core.schedLock, h.core.addr, fun t ht => ?_, ?_, ?_, fun t ht => ?_⟩, ?_, ?_, ?_⟩
  · exact h.core.sched.congr rfl rfl rfl (fun _ => rfl) fun _ _ => rfl
  · have htc : t ≠ k.cur := fun he => ht (he ▸ h.core.sched.current_mem)
    rw [hpc, if_neg htc]
    exact h.core.fresh t ht
  · rw [hpc, if_neg (Ne.symm hidle)]; exact h.core.idle_user
  · rw [hcur, hpc, if_pos rfl]; exact hp
  · rw [hcur] at ht
    rw [hpc, if_neg ht]; exact h.core.other t ht
  · exact h.lists.frame (fun o => by cases o <;> rfl) (fun o => by cases o <;> rfl) rfl
      (fun _ ht => ht) (fun _ _ _ => rfl) fun o t ht => Or.inl (h.blocked_of_waiting hb ht)
  · exact h.sems.move hm rfl rfl rfl rfl rfl
  · exact h.sigs.move hm rfl rfl

/-- **A switch of tasks**: the current task goes to `p`, and the first task of the ready list
goes on where it was. -/
theorem SyncInv.switch (h : SyncInv k R W) (h0 : k.sched.taskSwitchLock = 0) {p : Pc} (hp : ¬ p.Locked)
    (hidle : k.cur = k.idle → p = .user) (hm : MoveOk k p) :
    ∃ R', SyncInv { k with sched := yield k.sched, pc := Function.update k.pc k.cur p } R' W := by
  set k' : Kernel := { k with sched := yield k.sched, pc := Function.update k.pc k.cur p } with hk'
  have hpc : ∀ t, k'.pc t = if t = k.cur then p else k.pc t := fun t => Function.update_apply _ _ _ _
  have hnl : ∀ t, ¬ (k'.pc t).Locked := by
    intro t
    rw [hpc]
    split_ifs with htc
    · exact hp
    · exact h.core.other t htc
  have hb : ∀ c, k.pc k.cur ≠ .call .block c := by
    intro c hc
    have := h.core.cur_ok
    rw [h0, hc] at this
    exact this.not_locked ⟨_, _, rfl, Or.inr (Or.inl rfl)⟩
  have hfresh : ∀ t, t ∉ k.tasks → k'.pc t = .user := by
    intro t ht
    have htc : t ≠ k.cur := fun he => ht (he ▸ h.core.sched.current_mem)
    rw [hpc, if_neg htc]
    exact h.core.fresh t ht
  have hidle' : k'.pc k.idle = .user := by
    rw [hpc]
    split_ifs with hi
    · exact hidle hi.symm
    · exact h.core.idle_user
  have hsems : SemInv k' := h.sems.move hm rfl rfl rfl rfl rfl
  have hsigs : SigInv k' := h.sigs.move hm rfl rfl
  cases R with
  | nil =>
    -- the ready list is empty: the current task, which is the idle task, goes on
    have hy : yield k.sched = k.sched := yield_of_nil h.core.sched h0
    have hst := h.core.sched.running_of_nil
    have hsched : k'.sched = k.sched := hy
    have hcur : k'.cur = k.cur := congrArg Sched.currentTask hy
    refine ⟨[], ⟨hsched ▸ h.core.sched, hsched ▸ h.core.schedLock, h.core.addr, hfresh, hidle', ?_,
      fun t _ => hnl t⟩, ?_, hsems, hsigs⟩
    · rw [hsched, hcur, h0]
      have : k.sched.state k.cur = .running := hst
      rw [this]
      exact curOk_of_not_locked (hnl _)
    · refine h.lists.frame (fun o => by cases o <;> rfl) (fun o => by cases o <;> rfl) rfl
        (fun _ ht => ht) (fun _ _ _ => by rw [hsched]) fun o t ht => Or.inl ?_
      rw [hsched]
      exact h.blocked_of_waiting hb ht
  | cons a R =>
    -- the first ready task becomes the current one; the waiting tasks are left alone
    have hy := h.core.sched.yield h0
    have hcur : k'.cur = a := hy.current
    refine ⟨_, ⟨hy.inv, hy.schedLock.trans h.core.schedLock, h.core.addr, hfresh, hidle', ?_,
      fun t _ => hnl t⟩, ?_, hsems, hsigs⟩
    · have hl : k'.sched.taskSwitchLock = 0 := hy.taskSwitchLock.trans h0
      have hs : k'.sched.state a = .running := hy.started
      rw [hcur, hl, hs]
      exact curOk_of_not_locked (hnl _)
    · have hblk : ∀ o, ∀ t ∈ k.waiting o, k'.sched.task t = k.sched.task t := fun o t ht =>
        hy.blocked t (h.lists.mem o t ht) (h.blocked_of_waiting hb ht)
      refine h.lists.frame (fun o => by cases o <;> rfl) (fun o => by cases o <;> rfl) rfl
        (fun _ ht => ht) (fun o t ht => ?_) fun o t ht => Or.inl ?_
      · rw [next, next, hblk o t ht]
      · rw [state, hblk o t ht]
        exact h.blocked_of_waiting hb ht

end Nettapus
