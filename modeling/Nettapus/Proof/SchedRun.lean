import Nettapus.Proof.Sched
import Mathlib.Data.List.Nodup

/-!
# Runs of the scheduler

* `SchedReach`: the states that creating, copying, blocking and unblocking tasks and the
  timer lead to from `init_scheduler`, with no task switch lock held.
* `ready_list_invariant`: in each of them every task is the current one, blocked, or on
  the ready list once, and a task that blocks is switched away from.
-/

namespace Nettapus

open Links Sched

variable {s : Sched} {t idle : ℕ} {T R R' : List ℕ}

/-- The scheduler, its idle task, and all tasks that were created or copied so far. -/
structure SchedSys where
  sched : Sched
  idle : ℕ
  tasks : List ℕ

/-- The states reached from `init_scheduler`. New tasks are at addresses that no task has;
the locks are zero at first, like everything in `.bss`. -/
inductive SchedReach : SchedSys → Prop
  | init {s : Sched} {terminatorMain idleMain boot term idle : ℕ} (qterm qidle : ℕ)
      (hlock : s.schedLock = 0 ∧ s.taskSwitchLock = 0 ∧ s.taskSwitchPostponed = 0)
      (hmain : terminatorMain ≠ NULL ∧ idleMain ≠ NULL)
      (hnull : boot ≠ NULL ∧ term ≠ NULL ∧ idle ≠ NULL)
      (hne : term ≠ boot ∧ idle ≠ boot ∧ idle ≠ term) :
      SchedReach ⟨(initScheduler s terminatorMain idleMain boot term idle qterm qidle).2, idle,
        [idle, term, boot]⟩
  | create {c : SchedSys} {main t : ℕ} (hs : SchedReach c) (q ring : ℕ) (hm : main ≠ NULL)
      (ht : t ∉ c.tasks) (h0 : t ≠ NULL) :
      SchedReach ⟨(createTask c.sched main t q ring).2, c.idle, t :: c.tasks⟩
  | copy {c : SchedSys} {t nt : ℕ} (hs : SchedReach c) (q : ℕ) (ht : t ∈ c.tasks)
      (hnt : nt ∉ c.tasks) (h0 : nt ≠ NULL) :
      SchedReach ⟨(copyTask c.sched t nt q).2, c.idle, nt :: c.tasks⟩
  | irq0 {c : SchedSys} (hs : SchedReach c) : SchedReach ⟨schedulerIrq0 c.sched, c.idle, c.tasks⟩
  | idleRound {c : SchedSys} (hs : SchedReach c) (hc : c.sched.currentTask = c.idle) :
      SchedReach ⟨idleTaskMain c.sched, c.idle, c.tasks⟩
  | block {c : SchedSys} (hs : SchedReach c) (hc : c.sched.currentTask ≠ c.idle) :
      SchedReach ⟨blockTask c.sched, c.idle, c.tasks⟩
  | unblock {c : SchedSys} {t : ℕ} (hs : SchedReach c) (ht : t ∈ c.tasks)
      (hb : c.sched.state t = .block) : SchedReach ⟨unblockTask c.sched t, c.idle, c.tasks⟩

/-! ## Steps -/

/-- The invariant of these runs: the current task runs, and no lock is held. -/
structure RunInv (c : SchedSys) (R : List ℕ) : Prop where
  inv : SchedInv c.sched c.idle c.tasks R
  running : c.sched.state c.sched.currentTask = .running
  schedLock : c.sched.schedLock = 0
  taskSwitchLock : c.sched.taskSwitchLock = 0
  postponed : c.sched.taskSwitchPostponed = 0

/-- The invariant does not depend on the counters of ticks. -/
theorem RunInv.ticks {c : SchedSys} (hR : RunInv c R) {s' : Sched} (h : SameButTicks c.sched s') :
    RunInv ⟨s', c.idle, c.tasks⟩ R := by
  refine ⟨hR.inv.ticks h, ?_, h.schedLock.trans hR.schedLock, h.taskSwitchLock.trans hR.taskSwitchLock,
    h.postponed.trans hR.postponed⟩
  rw [h.state, h.current]
  exact hR.running

/-- A task that is not the current one may be put at the end of the list. -/
theorem RunInv.append {c : SchedSys} (hR : RunInv c R) {s' : Sched} (h : Appended c.sched s' c.idle t T R')
    (hc : t ≠ c.sched.currentTask) : RunInv ⟨s', c.idle, T⟩ R' := by
  refine ⟨h.inv, ?_, h.schedLock.trans hR.schedLock, h.taskSwitchLock.trans hR.taskSwitchLock,
    h.postponed.trans hR.postponed⟩
  rw [h.current, h.state, if_neg hc.symm]
  exact hR.running

theorem state_setState (s : Sched) (t u : ℕ) (st : TaskState) :
    (s.setState t st).state u = if u = t then st else s.state u := by
  simp only [state, setState, task_modify]
  split_ifs <;> rfl

theorem next_setState (s : Sched) (t u : ℕ) (st : TaskState) : (s.setState t st).next u = s.next u := by
  simp only [next, setState, task_modify]
  split_ifs with h
  · rw [h]
  · rfl

/-- A current task other than the idle one may be set to blocked. -/
theorem SchedInv.setBlock (hi : SchedInv s idle T R) (hc : s.currentTask ≠ idle) :
    SchedInv (s.setState s.currentTask .block) idle T R := by
  have hcR := hi.current_notMem
  refine ⟨hi.ready.congr rfl rfl fun u _ => next_setState s _ u _, hi.sub, ?_, hi.current_mem, ?_, ?_,
    hi.idle_mem, ?_, hi.null_notMem⟩
  · intro u hu
    rw [state_setState]
    split_ifs with huc
    · subst huc
      refine ⟨fun h => absurd h hcR, fun h => ?_⟩
      rcases h with h | h <;> cases h
    · exact hi.mem_iff u hu
  · exact Or.inr ((state_setState s s.currentTask s.currentTask .block).trans (if_pos rfl))
  · intro u hu hr
    rw [state_setState] at hr
    split_ifs at hr
    exact hi.running u hu hr
  · rw [state_setState, if_neg (Ne.symm hc)]
    exact hi.idle_state

theorem blockTask_eq (s : Sched) : blockTask s = yield (s.setState s.currentTask .block) :=
  unlock_yield_lock (s.setState s.currentTask .block)

/-- **`yield` with no task switch lock** leaves a running current task. -/
theorem SchedInv.yield_run (hi : SchedInv s idle T R) (h0 : s.taskSwitchLock = 0) :
    ∃ R', SchedInv (Nettapus.yield s) idle T R' ∧
      (Nettapus.yield s).state (Nettapus.yield s).currentTask = .running ∧
      (Nettapus.yield s).schedLock = s.schedLock ∧
      (Nettapus.yield s).taskSwitchLock = s.taskSwitchLock ∧
      (Nettapus.yield s).taskSwitchPostponed = s.taskSwitchPostponed := by
  cases R with
  | nil =>
    rw [yield_of_nil hi h0]
    exact ⟨[], hi, hi.running_of_nil, rfl, rfl, rfl⟩
  | cons a R =>
    have hy := hi.yield h0
    exact ⟨_, hy.inv, by rw [hy.current]; exact hy.started, hy.schedLock, hy.taskSwitchLock, hy.postponed⟩

/-- **`block_task` switches away** from a task other than the idle one. -/
theorem SchedInv.block_switches (hi : SchedInv s idle T R) (h0 : s.taskSwitchLock = 0)
    (hc : s.currentTask ≠ idle) : (blockTask s).currentTask ∈ R := by
  have hi' := hi.setBlock hc
  rw [blockTask_eq]
  cases R with
  | nil => exact absurd rfl (hi.ne_nil hc)
  | cons a R =>
    rw [(hi'.yield h0).current]
    exact List.mem_cons_self

/-- The state that `init_scheduler` builds. -/
theorem runInv_init {terminatorMain idleMain boot term : ℕ} (qterm qidle : ℕ)
    (hlock : s.schedLock = 0 ∧ s.taskSwitchLock = 0 ∧ s.taskSwitchPostponed = 0)
    (hmain : terminatorMain ≠ NULL ∧ idleMain ≠ NULL)
    (hnull : boot ≠ NULL ∧ term ≠ NULL ∧ idle ≠ NULL)
    (hne : term ≠ boot ∧ idle ≠ boot ∧ idle ≠ term) :
    RunInv ⟨(initScheduler s terminatorMain idleMain boot term idle qterm qidle).2, idle,
      [idle, term, boot]⟩ [idle, term] := by
  unfold initScheduler
  dsimp only
  rw [if_neg hnull.1]
  dsimp only
  set s₀ : Sched := { ({ lockScheduler s with currentTask := boot } : Sched).modify boot
    (fun _ => ⟨TASK_DEFAULT_TIME, .running, 0, 0, 0, boot⟩) with lastTask := NULL, firstTask := NULL }
    with hs₀
  -- the boot task runs; the terminator and then the idle task go to the front of the list
  have c1 := createTask_created s₀ qterm 0 hmain.1 hnull.2.1
  set s₁ := (createTask s₀ terminatorMain term qterm 0).2
  have c2 := createTask_created s₁ qidle 0 hmain.2 hnull.2.2
  set s₂ := (createTask s₁ idleMain idle qidle 0).2
  have hr0 : Ready s₀ [] := Fifo.nil _ _ _
  have hr1 : Ready s₁ [term] := c1.push hr0 (by simp) hnull.2.1
  have hr2 : Ready s₂ [idle, term] := c2.push hr1 (by simpa using hne.2.2) hnull.2.2
  have hboot : s₂.state boot = .running := by
    rw [state, c2.other boot hne.2.1.symm, c1.other boot hne.1.symm]
    simp [hs₀, task_modify]
  have hterm : s₂.state term = .zero := by
    rw [state, c2.other term hne.2.2.symm]
    exact c1.state
  have hcur : s₂.currentTask = boot := c2.current.trans c1.current
  rw [unlockScheduler_eq]
  refine ⟨⟨hr2.congr rfl rfl fun _ _ => rfl, ?_, ?_, ?_, ?_, ?_, ?_, ?_, ?_⟩, ?_, ?_, ?_, ?_⟩
  · intro u hu
    simp only [List.mem_cons, List.not_mem_nil, or_false] at hu ⊢
    exact hu.elim Or.inl fun h => Or.inr (Or.inl h)
  · intro u hu
    simp only [List.mem_cons, List.not_mem_nil, or_false] at hu ⊢
    show _ ↔ (s₂.state u).Runnable
    rcases hu with rfl | rfl | rfl
    · rw [c2.state]
      exact ⟨fun _ => Or.inl rfl, fun _ => Or.inl rfl⟩
    · rw [hterm]
      exact ⟨fun _ => Or.inl rfl, fun _ => Or.inr rfl⟩
    · rw [hboot]
      constructor
      · rintro (h | h)
        · exact absurd h.symm hne.2.1
        · exact absurd h.symm hne.1
      · rintro (h | h) <;> cases h
  · show s₂.currentTask ∈ _
    rw [hcur]; simp
  · show s₂.state s₂.currentTask = _ ∨ _
    rw [hcur]; exact Or.inl hboot
  · intro u hu hr
    show u = s₂.currentTask
    have hr' : s₂.state u = .running := hr
    simp only [List.mem_cons, List.not_mem_nil, or_false] at hu
    rcases hu with rfl | rfl | rfl
    · rw [c2.state] at hr'; cases hr'
    · rw [hterm] at hr'; cases hr'
    · exact hcur.symm
  · simp
  · show s₂.state idle ≠ _
    rw [c2.state]; simp
  · simp only [List.mem_cons, List.not_mem_nil, or_false, not_or]
    exact ⟨hnull.2.2.symm, hnull.2.1.symm, hnull.1.symm⟩
  · show s₂.state s₂.currentTask = _
    rw [hcur]; exact hboot
  · show s₂.schedLock - 1 = 0
    rw [c2.schedLock, c1.schedLock]
    show s.schedLock + 1 - 1 = 0
    rw [hlock.1]
  · show s₂.taskSwitchLock = 0
    rw [c2.taskSwitchLock, c1.taskSwitchLock]
    exact hlock.2.1
  · show s₂.taskSwitchPostponed = 0
    rw [c2.postponed, c1.postponed]
    exact hlock.2.2

/-- **The invariant holds in every state reached.** -/
theorem SchedReach.inv {c : SchedSys} (hs : SchedReach c) : ∃ R, RunInv c R := by
  induction hs with
  | init qterm qidle hlock hmain hnull hne => exact ⟨_, runInv_init qterm qidle hlock hmain hnull hne⟩
  | @create c main t _ q ring hm ht h0 ih =>
    obtain ⟨R, hR⟩ := ih
    have hc := createTask_created c.sched q ring hm h0
    refine ⟨_, hR.inv.create hc ht h0, ?_, hc.schedLock.trans hR.schedLock,
      hc.taskSwitchLock.trans hR.taskSwitchLock, hc.postponed.trans hR.postponed⟩
    rw [hc.current, state, hc.other _ fun h => ht (h ▸ hR.inv.current_mem)]
    exact hR.running
  | @copy c t nt _ q ht hnt h0 ih =>
    obtain ⟨R, hR⟩ := ih
    have hne : nt ≠ c.sched.currentTask := fun h => hnt (h ▸ hR.inv.current_mem)
    exact ⟨_, hR.append (hR.inv.copy q (hR.inv.ne_null ht) hnt h0) hne⟩
  | @irq0 c _ ih =>
    obtain ⟨R, hR⟩ := ih
    obtain ⟨s₁, h1, h2 | ⟨-, h2⟩⟩ := schedulerIrq0_cases c.sched
    · refine ⟨R, ?_⟩
      rw [h2]
      exact hR.ticks h1
    · -- the time of the current task is up
      have hT := hR.ticks h1
      obtain ⟨R', y1, y2, y3, y4, y5⟩ := hT.inv.yield_run hT.taskSwitchLock
      refine ⟨R', ?_⟩
      rw [h2]
      exact ⟨y1, y2, y3.trans hT.schedLock, y4.trans hT.taskSwitchLock, y5.trans hT.postponed⟩
  | @idleRound c _ _ ih =>
    obtain ⟨R, hR⟩ := ih
    have h1 : SameButTicks c.sched (idleTaskMain c.sched) :=
      sameButTicks_modify c.sched c.sched.currentTask fun _ => 1
    exact ⟨R, hR.ticks h1⟩
  | @block c _ hc ih =>
    obtain ⟨R, hR⟩ := ih
    -- the list is not empty, since the idle task is on it: the blocked task does not go on
    obtain ⟨R', y1, y2, y3, y4, y5⟩ := (hR.inv.setBlock hc).yield_run hR.taskSwitchLock
    refine ⟨R', ?_⟩
    rw [blockTask_eq]
    exact ⟨y1, y2, y3.trans hR.schedLock, y4.trans hR.taskSwitchLock, y5.trans hR.postponed⟩
  | @unblock c t _ ht hb ih =>
    obtain ⟨R, hR⟩ := ih
    -- the current task runs, so a blocked one is another
    have hc : t ≠ c.sched.currentTask := by
      rintro rfl
      rw [hR.running] at hb
      cases hb
    exact ⟨_, hR.append (hR.inv.unblock ht hb hc) hc⟩

/-- **The ready list.** In every state reached: `first_task` is `NULL` iff `last_task` is; the
list from `first_task` through `next` has finitely many tasks, all distinct, and ends at
`last_task`, whose `next` is `NULL`; the current task runs and is not on the list; no task
on the list is running or blocked; every other task that is not blocked is on the list
once; and unless the idle task runs the list is not empty, and `block_task` switches. -/
theorem ready_list_invariant {c : SchedSys} (hs : SchedReach c) :
    (c.sched.firstTask = NULL ↔ c.sched.lastTask = NULL) ∧
    ∃ R : List ℕ, Fifo c.sched.next NULL c.sched.firstTask c.sched.lastTask R NULL ∧
      c.sched.currentTask ∉ R ∧ c.sched.state c.sched.currentTask = .running ∧
      (∀ t ∈ R, c.sched.state t ≠ .running ∧ c.sched.state t ≠ .block) ∧
      (∀ t ∈ c.tasks, t ≠ c.sched.currentTask → c.sched.state t ≠ .block → R.count t = 1) ∧
      (c.sched.currentTask ≠ c.idle →
        R ≠ [] ∧ (blockTask c.sched).currentTask ≠ c.sched.currentTask) := by
  obtain ⟨R, hR⟩ := hs.inv
  have hi := hR.inv
  have hcR := hi.current_notMem
  refine ⟨(Fifo.first_eq_null_iff hi.ready).trans (Fifo.last_eq_null_iff hi.ready).symm, R, hi.ready,
    hcR, hR.running, fun t ht => ⟨fun h => ?_, fun h => hi.blocked_notMem h ht⟩, ?_, ?_⟩
  · exact hcR (hi.running t (hi.sub t ht) h ▸ ht)
  · intro t ht hc hb
    exact List.count_eq_one_of_mem (Fifo.nodup hi.ready) (hi.mem_of_state ht hc hb)
  · intro hc
    refine ⟨hi.ne_nil hc, fun he => hcR ?_⟩
    rw [← he]
    exact hi.block_switches hR.taskSwitchLock hc

/-- The variables of `task.c` before `init_scheduler`. -/
def Sched.zero : Sched := ⟨fun _ => ⟨0, .zero, 0, 0, 0, 0⟩, 0, 0, 0, 0, 0, 0, 0⟩

/-- `init_scheduler` with the boot task at 1, the terminator at 2 and the idle task at 3. -/
def booted : SchedSys := ⟨(initScheduler Sched.zero 8 9 1 2 3 10 11).2, 3, [3, 2, 1]⟩

theorem schedReach_booted : SchedReach booted :=
  SchedReach.init 10 11 ⟨rfl, rfl, rfl⟩ ⟨by decide, by decide⟩ ⟨by decide, by decide, by decide⟩
    ⟨by decide, by decide, by decide⟩

/-- A user task is created at 4 and the boot task blocks: the user task, created last, is the
first of the list and becomes current. -/
theorem ready_list_invariant_block : ∃ c : SchedSys, SchedReach c ∧ c.sched.currentTask = 4 ∧
    c.sched.state 1 = .block ∧ ∃ R : List ℕ, Fifo c.sched.next NULL 3 2 R NULL ∧ 4 ∉ R ∧
      R.count 2 = 1 ∧ R.count 3 = 1 := by
  have h1 := schedReach_booted.create (t := 4) 13 1 (show 12 ≠ NULL by decide) (by decide) (by decide)
  have h2 := h1.block (by decide)
  obtain ⟨-, R, r1, r2, -, -, r3, -⟩ := ready_list_invariant h2
  exact ⟨_, h2, by decide, by decide, R, r1, r2, r3 2 (by decide) (by decide) (by decide),
    r3 3 (by decide) (by decide) (by decide)⟩

end Nettapus
