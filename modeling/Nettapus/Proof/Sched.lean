import Nettapus.Code.Sched
import Nettapus.Lib.Links

/-!
# The ready list

* `Ready`: the list from `first_task` through `next`, with its two end pointers.
* `SchedInv`: what holds between the list, the states of the tasks and the current task.
* `SchedInv.yield`, `SchedInv.unblock`, `SchedInv.irq0`, `SchedInv.create`,
  `SchedInv.copy`: the operations keep it, and say what happens to the list.
* `ready_list_invariant`: it holds in every state reached from `init_scheduler`.
-/

namespace Nettapus

open Links

variable {s : Sched} {t u idle : ℕ} {T R : List ℕ}

/-! ## Assignments to fields -/

namespace Sched

theorem task_modify (s : Sched) (t u : ℕ) (f : Task → Task) :
    (s.modify t f).task u = if u = t then f (s.task t) else s.task u := by
  simp only [modify, Function.update_apply]

theorem state_setNext (s : Sched) (t n u : ℕ) : (s.setNext t n).state u = s.state u := by
  simp only [state, setNext, task_modify]
  split_ifs with h
  · rw [h]
  · rfl

theorem next_setNext (s : Sched) (t n u : ℕ) :
    (s.setNext t n).next u = if u = t then n else s.next u := by
  simp only [next, setNext, task_modify]
  split_ifs <;> rfl

theorem task_setNext_of_ne (s : Sched) (n : ℕ) (h : u ≠ t) : (s.setNext t n).task u = s.task u := by
  simp only [setNext, task_modify, if_neg h]

end Sched

open Sched

theorem unlockScheduler_eq (s : Sched) : unlockScheduler s = { s with schedLock := s.schedLock - 1 } := by
  unfold unlockScheduler
  split_ifs with h
  · rw [h, Nat.zero_sub, ← h]
  · rfl

/-! ## The list -/

/-- The list from `first_task` is `R`: it ends at `last_task`, whose `next` is `NULL`. -/
def Ready (s : Sched) (R : List ℕ) : Prop := Fifo s.next NULL s.firstTask s.lastTask R NULL

/-- The list depends on the two pointers and on `next` of its tasks. -/
theorem Ready.congr {s' : Sched} (h : Ready s R) (h1 : s'.firstTask = s.firstTask)
    (h2 : s'.lastTask = s.lastTask) (hn : ∀ u ∈ R, s'.next u = s.next u) : Ready s' R := by
  unfold Ready
  rw [h1, h2]
  exact Fifo.congr h hn

theorem Ready.single (h0 : t ≠ NULL) (hn : s.next t = NULL) :
    Ready { s with firstTask := t, lastTask := t } [t] :=
  ⟨rfl, rfl, ⟨hn, trivial⟩, by simp, by simpa using h0.symm⟩

/-- **A task put at the end of a list that is not empty.** -/
theorem Ready.push (h : Ready s R) (hne : R ≠ []) (ht : t ∉ R) (h0 : t ≠ NULL) (hn : s.next t = NULL) :
    Ready (pushTask s t) (R ++ [t]) := by
  have hl := Fifo.last_mem h hne
  have hlt : t ≠ s.lastTask := fun he => ht (he ▸ hl)
  have hlast : (pushTask s t).lastTask = t := by
    simp only [pushTask]
    rw [next_setNext]
    exact if_pos rfl
  have hfirst : (pushTask s t).firstTask = front R t := by
    show s.firstTask = _
    rw [Fifo.first_eq h]
    exact front_of_ne_nil _ _ hne
  have hnext : ∀ u, (pushTask s t).next u = if u = s.lastTask then t else s.next u :=
    fun u => next_setNext s s.lastTask t u
  unfold Ready
  rw [hlast, hfirst]
  refine Fifo.push h ht h0 (fun u _ hu => ?_) (fun _ => ?_) ?_
  · rw [hnext, if_neg hu]
  · rw [hnext, if_pos rfl]
  · rw [hnext, if_neg hlt, hn]

/-- The task put at the end changes only `next` of the last task. -/
theorem task_pushTask (h : u ≠ s.lastTask) : (pushTask s t).task u = s.task u :=
  task_setNext_of_ne s t h

theorem state_pushTask : (pushTask s t).state u = s.state u := state_setNext s s.lastTask t u

/-- What `yield` makes of the task it switches to. -/
def started (k : Task) : Task :=
  { k with state := .running, ticksRemaining := TASK_DEFAULT_TIME, next := NULL }

theorem popTask_eq (s : Sched) : popTask s =
    { s with
      currentTask := s.firstTask
      firstTask := if s.firstTask = s.lastTask then NULL else s.next s.firstTask
      lastTask := if s.firstTask = s.lastTask then NULL else s.lastTask
      task := Function.update s.task s.firstTask (started (s.task s.firstTask)) } := by
  unfold popTask
  dsimp only
  split_ifs <;> rfl

theorem task_popTask : (popTask s).task u =
    if u = s.firstTask then started (s.task s.firstTask) else s.task u := by
  rw [popTask_eq]
  exact Function.update_apply _ _ _ _

/-- **The first task taken off the list.** -/
theorem Ready.pop {a : ℕ} (h : Ready s (a :: R)) : Ready (popTask s) R ∧ s.firstTask = a := by
  have hfa : s.firstTask = a := Fifo.first_eq h
  have haR : a ∉ R := (List.nodup_cons.1 (Fifo.nodup h)).1
  have hpop : Fifo (popTask s).next NULL (front R NULL) (back R NULL) R NULL := by
    refine Fifo.pop h fun u hu => ?_
    have hua : u ≠ s.firstTask := fun he => haR (hfa ▸ he ▸ hu)
    simp only [next, task_popTask, if_neg hua]
  refine ⟨?_, hfa⟩
  unfold Ready
  have hl := Fifo.first_eq_last_iff h
  have hlast : s.lastTask = back (a :: R) NULL := Fifo.last_eq h
  have hnext : s.next a = front R NULL := (Fifo.linked h).1
  have h1 : (popTask s).firstTask = front R NULL := by
    rw [popTask_eq]
    dsimp only
    split_ifs with he
    · rw [hl.1 he]; rfl
    · rw [hfa, hnext]
  have h2 : (popTask s).lastTask = back R NULL := by
    rw [popTask_eq]
    dsimp only
    split_ifs with he
    · rw [hl.1 he]; rfl
    · rw [hlast, back_cons]
      exact back_of_ne_nil _ _ fun hnil => he (hl.2 hnil)
  rw [h1, h2]
  exact hpop

/-! ## The invariant -/

/-- The states of the tasks on the ready list. -/
def TaskState.Runnable (st : TaskState) : Prop := st = .zero ∨ st = .ready

/-- Between the operations of the scheduler: `R` is the ready list, `T` are all the tasks. -/
structure SchedInv (s : Sched) (idle : ℕ) (T R : List ℕ) : Prop where
  ready : Ready s R
  sub : ∀ t ∈ R, t ∈ T
  mem_iff : ∀ t ∈ T, t ∈ R ↔ (s.state t).Runnable
  current_mem : s.currentTask ∈ T
  current_state : s.state s.currentTask = .running ∨ s.state s.currentTask = .block
  running : ∀ t ∈ T, s.state t = .running → t = s.currentTask
  idle_mem : idle ∈ T
  idle_state : s.state idle ≠ .block
  null_notMem : NULL ∉ T

namespace SchedInv

theorem current_notMem (hi : SchedInv s idle T R) : s.currentTask ∉ R := by
  intro h
  have hr := (hi.mem_iff _ hi.current_mem).1 h
  rcases hi.current_state with hc | hc <;> rw [hc] at hr <;> rcases hr with hr | hr <;> cases hr

theorem blocked_notMem (hi : SchedInv s idle T R) (ht : s.state t = .block) : t ∉ R := by
  intro h
  have hr := (hi.mem_iff t (hi.sub t h)).1 h
  rw [ht] at hr
  rcases hr with hr | hr <;> cases hr

theorem ne_null (hi : SchedInv s idle T R) (ht : t ∈ T) : t ≠ NULL := fun h => hi.null_notMem (h ▸ ht)

/-- A task that does not run and is not blocked is on the list. -/
theorem mem_of_state (hi : SchedInv s idle T R) (ht : t ∈ T) (hc : t ≠ s.currentTask)
    (hb : s.state t ≠ .block) : t ∈ R := by
  rw [hi.mem_iff t ht]
  cases h : s.state t with
  | zero => exact Or.inl rfl
  | running => exact absurd (hi.running t ht h) hc
  | ready => exact Or.inr rfl
  | block => exact absurd h hb

/-- **Unless the idle task runs, it is on the list.** -/
theorem ne_nil (hi : SchedInv s idle T R) (hc : s.currentTask ≠ idle) : R ≠ [] :=
  List.ne_nil_of_mem (hi.mem_of_state hi.idle_mem (Ne.symm hc) hi.idle_state)

/-- When the list is empty the current task runs. -/
theorem running_of_nil (hi : SchedInv s idle T []) : s.state s.currentTask = .running := by
  have hc : s.currentTask = idle := by
    by_contra hne
    exact hi.ne_nil hne rfl
  refine hi.current_state.resolve_right fun hb => ?_
  rw [hc] at hb
  exact hi.idle_state hb

/-- The invariant does not depend on the locks, the counters and the process ids. -/
theorem congr {s' : Sched} (hi : SchedInv s idle T R) (hc : s'.currentTask = s.currentTask)
    (h1 : s'.firstTask = s.firstTask) (h2 : s'.lastTask = s.lastTask)
    (hst : ∀ u, s'.state u = s.state u) (hn : ∀ u ∈ R, s'.next u = s.next u) :
    SchedInv s' idle T R := by
  refine ⟨hi.ready.congr h1 h2 hn, hi.sub, fun u hu => ?_, ?_, ?_, fun u hu => ?_, hi.idle_mem, ?_,
    hi.null_notMem⟩
  · rw [hst]; exact hi.mem_iff u hu
  · rw [hc]; exact hi.current_mem
  · rw [hc, hst]; exact hi.current_state
  · rw [hc, hst]; exact hi.running u hu
  · rw [hst]; exact hi.idle_state

end SchedInv

/-! ## `yield` -/

/-- In the middle of `yield`: the task switched from does not run any more, and the one
switched to does not run yet. -/
structure SwitchInv (s : Sched) (idle : ℕ) (T R : List ℕ) : Prop where
  ready : Ready s R
  sub : ∀ t ∈ R, t ∈ T
  mem_iff : ∀ t ∈ T, t ∈ R ↔ (s.state t).Runnable
  none_running : ∀ t ∈ T, s.state t ≠ .running
  idle_mem : idle ∈ T
  idle_state : s.state idle ≠ .block
  null_notMem : NULL ∉ T

/-- A blocked task is switched from as it is. -/
theorem SchedInv.switch_blocked (hi : SchedInv s idle T R) (hb : s.state s.currentTask = .block) :
    SwitchInv s idle T R := by
  refine ⟨hi.ready, hi.sub, hi.mem_iff, fun t ht hr => ?_, hi.idle_mem, hi.idle_state, hi.null_notMem⟩
  rw [hi.running t ht hr, hb] at hr
  cases hr

/-- What `yield` makes of a running task. -/
def preempted (k : Task) : Task :=
  { k with next := NULL, ticksRemaining := TASK_DEFAULT_TIME, state := .ready }

/-- A running task goes to the end of the list. -/
theorem SchedInv.switch_running (hi : SchedInv s idle T R) (hne : R ≠ []) :
    SwitchInv (pushTask (s.modify s.currentTask preempted) s.currentTask) idle T
      (R ++ [s.currentTask]) := by
  have hcR := hi.current_notMem
  have hst : ∀ u, (pushTask (s.modify s.currentTask preempted) s.currentTask).state u =
      if u = s.currentTask then .ready else s.state u := by
    intro u
    rw [state_pushTask]
    simp only [state, task_modify]
    split_ifs <;> rfl
  have hready : Ready (s.modify s.currentTask preempted) R := by
    refine hi.ready.congr rfl rfl fun u hu => ?_
    have huc : u ≠ s.currentTask := fun he => hcR (he ▸ hu)
    simp only [next, task_modify, if_neg huc]
  refine ⟨hready.push hne hcR (hi.ne_null hi.current_mem) ?_, ?_, ?_, ?_, hi.idle_mem, ?_,
    hi.null_notMem⟩
  · simp only [next, task_modify, if_true]; rfl
  · intro u hu
    rcases List.mem_append.1 hu with hu | hu
    · exact hi.sub u hu
    · rw [List.mem_singleton.1 hu]; exact hi.current_mem
  · intro u hu
    rw [hst, List.mem_append, List.mem_singleton]
    split_ifs with huc
    · exact ⟨fun _ => Or.inr rfl, fun _ => Or.inr huc⟩
    · rw [hi.mem_iff u hu]; simp only [huc, or_false]
  · intro u hu
    rw [hst]
    split_ifs with huc
    · simp
    · exact fun hr => huc (hi.running u hu hr)
  · rw [hst]
    split_ifs
    · simp
    · exact hi.idle_state

theorem state_popTask : (popTask s).state u = if u = s.firstTask then .running else s.state u := by
  simp only [state, task_popTask]
  split_ifs <;> rfl

/-- The first task of the list becomes the current one. -/
theorem SwitchInv.pop {a : ℕ} (hi : SwitchInv s idle T (a :: R)) : SchedInv (popTask s) idle T R := by
  obtain ⟨hready, hfa⟩ := hi.ready.pop
  have haR : a ∉ R := (List.nodup_cons.1 (Fifo.nodup hi.ready)).1
  have hc : (popTask s).currentTask = a := by rw [popTask_eq]; exact hfa
  have hst : ∀ u, (popTask s).state u = if u = a then .running else s.state u := by
    intro u; rw [state_popTask, hfa]
  refine ⟨hready, fun u hu => hi.sub u (List.mem_cons_of_mem _ hu), ?_, ?_, ?_, ?_, hi.idle_mem, ?_,
    hi.null_notMem⟩
  · intro u hu
    rw [hst]
    split_ifs with hua
    · subst hua
      refine ⟨fun h => absurd h haR, fun h => ?_⟩
      rcases h with h | h <;> cases h
    · rw [← hi.mem_iff u hu, List.mem_cons]
      simp only [hua, false_or]
  · rw [hc]; exact hi.sub a List.mem_cons_self
  · rw [hc, hst, if_pos rfl]; exact Or.inl rfl
  · intro u hu hr
    rw [hst] at hr
    rw [hc]
    by_contra hua
    rw [if_neg hua] at hr
    exact hi.none_running u hu hr
  · rw [hst]
    split_ifs
    · simp
    · exact hi.idle_state

/-- **What `yield` does** when the list is not empty: `s'` has the first task `a` as the
current one, the running task at the end of the list, and the blocked ones as they were. -/
structure Yielded (s s' : Sched) (idle : ℕ) (T R : List ℕ) (a : ℕ) : Prop where
  inv : SchedInv s' idle T R
  current : s'.currentTask = a
  started : s'.state a = .running
  blocked : ∀ u ∈ T, s.state u = .block → s'.task u = s.task u
  of_blocked : ∀ u ∈ T, s'.state u = .block → s.state u = .block
  schedLock : s'.schedLock = s.schedLock
  taskSwitchLock : s'.taskSwitchLock = s.taskSwitchLock
  postponed : s'.taskSwitchPostponed = s.taskSwitchPostponed

/-- The task that `yield` puts back, if any. -/
def putBack (s : Sched) : List ℕ := if s.state s.currentTask = .running then [s.currentTask] else []

theorem yield_of_nil (hi : SchedInv s idle T []) (h0 : s.taskSwitchLock = 0) : yield s = s := by
  have hf : s.firstTask = NULL := (Fifo.first_eq_null_iff hi.ready).2 rfl
  unfold yield
  rw [if_neg (by simpa using h0), if_pos (Or.inl hf)]

/-- **`yield` keeps the invariant.** -/
theorem SchedInv.yield {a : ℕ} (hi : SchedInv s idle T (a :: R)) (h0 : s.taskSwitchLock = 0) :
    Yielded s (yield s) idle T (R ++ putBack s) a := by
  have hne : a :: R ≠ [] := by simp
  have hfa : s.firstTask = a := Fifo.first_eq hi.ready
  have hf : s.firstTask ≠ NULL := fun h => hne ((Fifo.first_eq_null_iff hi.ready).1 h)
  have hl : s.lastTask ≠ NULL := fun h => hne ((Fifo.last_eq_null_iff hi.ready).1 h)
  have hlast : s.lastTask ∈ a :: R := Fifo.last_mem hi.ready hne
  have haT : a ∈ T := hi.sub a List.mem_cons_self
  have hab : s.state a ≠ .block := fun h => hi.blocked_notMem h List.mem_cons_self
  unfold Nettapus.yield putBack
  rw [if_neg (by simpa using h0), if_neg (by simp [hf, hl])]
  dsimp only
  by_cases hr : s.state s.currentTask = .running
  · -- preempted: it goes to the end of the list before the first task is taken from it
    rw [if_pos hr, if_pos hr]
    show Yielded s (popTask (pushTask (s.modify s.currentTask preempted) s.currentTask)) _ _ _ _
    have hsw := hi.switch_running hne
    rw [List.cons_append] at hsw
    have hfirst : (pushTask (s.modify s.currentTask preempted) s.currentTask).firstTask = a := hfa
    refine ⟨hsw.pop, by rw [popTask_eq]; exact hfa, by rw [state_popTask, if_pos hfirst.symm], ?_, ?_,
      ?_, ?_, ?_⟩
    · intro u hu hb
      have hua : u ≠ a := fun h => hab (h ▸ hb)
      have hul : u ≠ (s.modify s.currentTask preempted).lastTask :=
        fun h => hi.blocked_notMem hb (h ▸ hlast)
      have huc : u ≠ s.currentTask := by rintro rfl; rw [hr] at hb; cases hb
      rw [task_popTask, hfirst, if_neg hua, task_pushTask hul, task_modify, if_neg huc]
    · intro u hu hb
      rw [state_popTask, hfirst] at hb
      split_ifs at hb with hua
      rw [state_pushTask] at hb
      simp only [state, task_modify] at hb
      split_ifs at hb with huc
      · cases hb
      · exact hb
    all_goals rw [popTask_eq]; rfl
  · -- blocked: it is on no list that the scheduler walks
    rw [if_neg hr, if_neg hr, List.append_nil]
    have hsw := hi.switch_blocked (hi.current_state.resolve_left hr)
    refine ⟨hsw.pop, by rw [popTask_eq]; exact hfa, by rw [state_popTask, if_pos hfa.symm], ?_, ?_,
      ?_, ?_, ?_⟩
    · intro u hu hb
      have hua : u ≠ a := fun h => hab (h ▸ hb)
      rw [task_popTask, hfa, if_neg hua]
    · intro u hu hb
      rw [state_popTask, hfa] at hb
      split_ifs at hb
      exact hb
    all_goals rw [popTask_eq]

/-! ## Tasks that join the list -/

/-- A task appended to the list, through the branch that its end takes. -/
def appendTask (s : Sched) (t : ℕ) : Sched :=
  if s.lastTask = NULL then { s with firstTask := t, lastTask := t } else pushTask s t

theorem state_appendTask : (appendTask s t).state u = s.state u := by
  unfold appendTask
  split_ifs
  · rfl
  · exact state_pushTask

/-- `s₁` is `s` with the task `t` made ready, but not on the list yet. -/
structure MadeReady (s s₁ : Sched) (t : ℕ) : Prop where
  current : s₁.currentTask = s.currentTask
  first : s₁.firstTask = s.firstTask
  last : s₁.lastTask = s.lastTask
  self : s₁.state t = .ready ∧ s₁.next t = NULL
  other : ∀ u, u ≠ t → s₁.task u = s.task u
  schedLock : s₁.schedLock = s.schedLock
  taskSwitchLock : s₁.taskSwitchLock = s.taskSwitchLock
  postponed : s₁.taskSwitchPostponed = s.taskSwitchPostponed

/-- `s'` is `s` with the task `t` made ready and put at the end of the list, which is `R`
then. Blocked tasks are left alone. -/
structure Appended (s s' : Sched) (idle t : ℕ) (T R : List ℕ) : Prop where
  inv : SchedInv s' idle T R
  current : s'.currentTask = s.currentTask
  state : ∀ u, s'.state u = if u = t then .ready else s.state u
  next : s'.next t = NULL
  blocked : ∀ u, u ≠ t → s.state u = .block → s'.task u = s.task u
  schedLock : s'.schedLock = s.schedLock
  taskSwitchLock : s'.taskSwitchLock = s.taskSwitchLock
  postponed : s'.taskSwitchPostponed = s.taskSwitchPostponed

/-- **Appending keeps the invariant.** -/
theorem SchedInv.append {s₁ : Sched} {T' : List ℕ} (hi : SchedInv s idle T R) (hm : MadeReady s s₁ t)
    (hc : t ≠ s.currentTask) (htR : t ∉ R) (h0 : t ≠ NULL) (hT : ∀ u, u ∈ T' ↔ u = t ∨ u ∈ T) :
    Appended s (appendTask s₁ t) idle t T' (R ++ [t]) := by
  have hst : ∀ u, (appendTask s₁ t).state u = if u = t then .ready else s.state u := by
    intro u
    rw [state_appendTask]
    split_ifs with hut
    · rw [hut]; exact hm.self.1
    · simp only [state, hm.other u hut]
  have hready : Ready s₁ R := by
    refine hi.ready.congr hm.first hm.last fun u hu => ?_
    have hut : u ≠ t := fun he => htR (he ▸ hu)
    simp only [next, hm.other u hut]
  have hlast : s₁.lastTask ≠ NULL → s₁.lastTask ∈ R :=
    fun hl => Fifo.last_mem hready fun h => hl ((Fifo.last_eq_null_iff hready).2 h)
  have htask : ∀ u, u ∉ R → (appendTask s₁ t).task u = s₁.task u := by
    intro u hu
    unfold appendTask
    split_ifs with hl
    · rfl
    · exact task_pushTask fun he => hu (he ▸ hlast hl)
  have hcur : (appendTask s₁ t).currentTask = s.currentTask := by
    unfold appendTask
    split_ifs <;> exact hm.current
  refine ⟨⟨?_, ?_, ?_, ?_, ?_, ?_, ?_, ?_, ?_⟩, hcur, hst, ?_, ?_, ?_, ?_, ?_⟩
  · -- the list is empty, or its last task gets a link
    unfold appendTask
    split_ifs with hl
    · rw [(Fifo.last_eq_null_iff hready).1 hl]
      exact Ready.single h0 hm.self.2
    · exact hready.push (fun h => hl ((Fifo.last_eq_null_iff hready).2 h)) htR h0 hm.self.2
  · intro u hu
    rw [hT]
    rcases List.mem_append.1 hu with hu | hu
    · exact Or.inr (hi.sub u hu)
    · exact Or.inl (List.mem_singleton.1 hu)
  · intro u hu
    rw [hst, List.mem_append, List.mem_singleton]
    split_ifs with hut
    · exact ⟨fun _ => Or.inr rfl, fun _ => Or.inr hut⟩
    · rw [hi.mem_iff u (((hT u).1 hu).resolve_left hut)]; simp only [hut, or_false]
  · rw [hcur, hT]; exact Or.inr hi.current_mem
  · rw [hcur, hst, if_neg (Ne.symm hc)]; exact hi.current_state
  · intro u hu hr
    rw [hst] at hr
    split_ifs at hr with hut
    rw [hcur]
    exact hi.running u (((hT u).1 hu).resolve_left hut) hr
  · rw [hT]; exact Or.inr hi.idle_mem
  · rw [hst]
    split_ifs
    · simp
    · exact hi.idle_state
  · rw [hT]
    rintro (h | h)
    · exact h0 h.symm
    · exact hi.null_notMem h
  · rw [Sched.next, htask t htR]
    exact hm.self.2
  · intro u hut hu
    rw [htask u (hi.blocked_notMem hu)]
    exact hm.other u hut
  · unfold appendTask
    split_ifs <;> exact hm.schedLock
  · unfold appendTask
    split_ifs <;> exact hm.taskSwitchLock
  · unfold appendTask
    split_ifs <;> exact hm.postponed

theorem unblockTask_eq (s : Sched) (t : ℕ) :
    unblockTask s t = appendTask ((s.setState t .ready).setNext t NULL) t := by
  unfold unblockTask appendTask
  dsimp only
  have hl : (((lockScheduler s).setState t .ready).setNext t NULL).lastTask = s.lastTask := rfl
  have hl' : ((s.setState t .ready).setNext t NULL).lastTask = s.lastTask := rfl
  rw [hl, hl']
  split_ifs <;> rw [unlockScheduler_eq] <;> rfl

theorem madeReady_unblock (s : Sched) (t : ℕ) :
    MadeReady s ((s.setState t .ready).setNext t NULL) t := by
  refine ⟨rfl, rfl, rfl, ⟨?_, ?_⟩, fun u hu => ?_, rfl, rfl, rfl⟩
  · rw [state_setNext]
    simp only [state, setState, task_modify, if_true]
  · rw [next_setNext, if_pos rfl]
  · rw [task_setNext_of_ne _ _ hu]
    simp only [setState, task_modify, if_neg hu]

/-- **`unblock_task`** of a blocked task puts it at the end of the list. -/
theorem SchedInv.unblock (hi : SchedInv s idle T R) (ht : t ∈ T) (hb : s.state t = .block)
    (hc : t ≠ s.currentTask) : Appended s (unblockTask s t) idle t T (R ++ [t]) := by
  rw [unblockTask_eq]
  refine hi.append (madeReady_unblock s t) hc (hi.blocked_notMem hb) (hi.ne_null ht) fun u => ⟨Or.inr, ?_⟩
  rintro (rfl | h)
  · exact ht
  · exact h

/-! ## `create_task` and `copy_task` -/

/-- **What `create_task` does**: the new task goes to the front of the list. -/
structure Created (s s' : Sched) (t : ℕ) : Prop where
  current : s'.currentTask = s.currentTask
  first : s'.firstTask = t
  last : s'.lastTask = if s.firstTask = NULL then t else s.lastTask
  state : s'.state t = .zero
  next : s'.next t = s.firstTask
  other : ∀ u, u ≠ t → s'.task u = s.task u
  schedLock : s'.schedLock = s.schedLock
  taskSwitchLock : s'.taskSwitchLock = s.taskSwitchLock
  postponed : s'.taskSwitchPostponed = s.taskSwitchPostponed

/-- The link step makes a cleared task the first one. -/
theorem created_linkTask {r : Sched} (h1 : r.currentTask = s.currentTask)
    (h2 : r.firstTask = s.firstTask) (h3 : r.lastTask = s.lastTask) (h4 : r.state t = .zero)
    (h5 : r.next t = NULL) (h6 : ∀ u, u ≠ t → r.task u = s.task u)
    (h7 : r.schedLock = s.schedLock + 1) (h8 : r.taskSwitchLock = s.taskSwitchLock)
    (h9 : r.taskSwitchPostponed = s.taskSwitchPostponed) :
    Created s (unlockScheduler (linkTask r t)) t := by
  have hlock : r.schedLock - 1 = s.schedLock := by rw [h7]; rfl
  unfold linkTask
  rw [unlockScheduler_eq]
  by_cases h0 : r.firstTask = NULL
  · rw [if_neg (by simpa using h0)]
    exact ⟨h1, rfl, by rw [← h2, if_pos h0], h4, by rw [← h2, h0]; exact h5, h6, hlock, h8, h9⟩
  · rw [if_pos h0]
    refine ⟨h1, rfl, by rw [← h2, if_neg h0]; exact h3, ?_, ?_, fun u hu => ?_, hlock, h8, h9⟩
    · exact (state_setNext r t r.firstTask t).trans h4
    · exact (next_setNext r t r.firstTask t).trans ((if_pos rfl).trans h2)
    · exact (task_setNext_of_ne r r.firstTask hu).trans (h6 u hu)

theorem createTask_created (s : Sched) {main t : ℕ} (q ring : ℕ) (hm : main ≠ NULL) (ht : t ≠ NULL) :
    Created s (createTask s main t q ring).2 t := by
  unfold createTask
  rw [if_neg hm, if_neg ht]
  dsimp only
  -- with and without a new process id
  by_cases hr : ring ≠ 0
  · rw [if_pos hr]
    refine created_linkTask rfl rfl rfl ?_ ?_ (fun u hu => ?_) rfl rfl rfl
    · simp [Sched.state, task_modify, initialiseTask]
    · simp [Sched.next, task_modify, initialiseTask]
    · simp [task_modify, lockScheduler, hu]
  · rw [if_neg hr]
    refine created_linkTask rfl rfl rfl ?_ ?_ (fun u hu => ?_) rfl rfl rfl
    · simp [Sched.state, task_modify, initialiseTask]
    · simp [Sched.next, task_modify, initialiseTask]
    · simp [task_modify, lockScheduler, hu]

theorem Created.push {s' : Sched} (hc : Created s s' t) (hr : Ready s R) (ht : t ∉ R) (h0 : t ≠ NULL) :
    Ready s' (t :: R) := by
  unfold Ready
  have hl : s'.lastTask = back R t := by
    rw [hc.last, Fifo.last_eq hr]
    split_ifs with hf
    · rw [(Fifo.first_eq_null_iff hr).1 hf]; rfl
    · exact back_of_ne_nil _ _ fun hnil => hf ((Fifo.first_eq_null_iff hr).2 hnil)
  rw [hc.first, hl]
  refine Fifo.cons hr ht h0 (fun u hu => ?_) (hc.next.trans (Fifo.first_eq hr))
  have hut : u ≠ t := fun he => ht (he ▸ hu)
  simp only [Sched.next, hc.other u hut]

/-- **`create_task` keeps the invariant.** -/
theorem SchedInv.create {s' : Sched} (hi : SchedInv s idle T R) (hc : Created s s' t) (ht : t ∉ T)
    (h0 : t ≠ NULL) : SchedInv s' idle (t :: T) (t :: R) := by
  have hne : ∀ u ∈ T, u ≠ t := fun u hu he => ht (he ▸ hu)
  have hst : ∀ u ∈ T, s'.state u = s.state u := by
    intro u hu
    simp only [Sched.state, hc.other u (hne u hu)]
  refine ⟨hc.push hi.ready (fun h => ht (hi.sub t h)) h0, ?_, ?_, ?_, ?_, ?_, ?_, ?_, ?_⟩
  · intro u hu
    rcases List.mem_cons.1 hu with rfl | hu
    · exact List.mem_cons_self
    · exact List.mem_cons_of_mem _ (hi.sub u hu)
  · intro u hu
    rcases List.mem_cons.1 hu with rfl | hu
    · rw [hc.state]
      exact ⟨fun _ => Or.inl rfl, fun _ => List.mem_cons_self⟩
    · rw [hst u hu, ← hi.mem_iff u hu, List.mem_cons]
      simp only [hne u hu, false_or]
  · rw [hc.current]; exact List.mem_cons_of_mem _ hi.current_mem
  · rw [hc.current, hst _ hi.current_mem]; exact hi.current_state
  · intro u hu hr
    rw [hc.current]
    rcases List.mem_cons.1 hu with rfl | hu
    · rw [hc.state] at hr; cases hr
    · rw [hst u hu] at hr; exact hi.running u hu hr
  · exact List.mem_cons_of_mem _ hi.idle_mem
  · rw [hst _ hi.idle_mem]; exact hi.idle_state
  · rintro (_ | ⟨_, h⟩)
    · exact h0 rfl
    · exact hi.null_notMem h

/-- **`copy_task`** puts the copy at the end of the list. -/
theorem SchedInv.copy {nt : ℕ} (hi : SchedInv s idle T R) (q : ℕ) (ht : t ≠ NULL) (hnt : nt ∉ T)
    (h0 : nt ≠ NULL) : Appended s (copyTask s t nt q).2 idle nt (nt :: T) (R ++ [nt]) := by
  set s₁ : Sched := { s.modify nt (fun _ => { s.task t with
      next := NULL, ticksRemaining := TASK_DEFAULT_TIME, state := .ready, pid := s.lastPid,
      waitQueue := q }) with lastPid := u64 (s.lastPid + 1) } with hs₁
  have hm : MadeReady s s₁ nt := by
    refine ⟨rfl, rfl, rfl, ⟨?_, ?_⟩, fun u hu => ?_, rfl, rfl, rfl⟩
    · simp [hs₁, state, task_modify]
    · simp [hs₁, next, task_modify]
    · simp [hs₁, task_modify, hu]
  have heq : (copyTask s t nt q).2 = appendTask s₁ nt := by
    -- `copy_task` tests the other end of the list
    have hend : s.firstTask = NULL ↔ s.lastTask = NULL :=
      (Fifo.first_eq_null_iff hi.ready).trans (Fifo.last_eq_null_iff hi.ready).symm
    unfold copyTask appendTask
    rw [if_neg ht, if_neg h0]
    show unlockScheduler (if s.firstTask = NULL then _ else _) = if s.lastTask = NULL then _ else _
    rw [if_congr hend rfl rfl, unlockScheduler_eq]
    split_ifs <;> rfl
  rw [heq]
  exact hi.append hm (fun h => hnt (h ▸ hi.current_mem)) (fun h => hnt (hi.sub nt h)) h0
    fun u => List.mem_cons

/-! ## The timer -/

/-- `s'` is `s` but for the counters of ticks. -/
structure SameButTicks (s s' : Sched) : Prop where
  current : s'.currentTask = s.currentTask
  first : s'.firstTask = s.firstTask
  last : s'.lastTask = s.lastTask
  state : ∀ u, s'.state u = s.state u
  next : ∀ u, s'.next u = s.next u
  schedLock : s'.schedLock = s.schedLock
  taskSwitchLock : s'.taskSwitchLock = s.taskSwitchLock
  postponed : s'.taskSwitchPostponed = s.taskSwitchPostponed

theorem sameButTicks_modify (s : Sched) (t : ℕ) (f : Task → ℕ) :
    SameButTicks s (s.modify t fun k => { k with ticksRemaining := f k }) := by
  refine ⟨rfl, rfl, rfl, fun u => ?_, fun u => ?_, rfl, rfl, rfl⟩
  · simp only [Sched.state, task_modify]
    split_ifs with h
    · rw [h]
    · rfl
  · simp only [Sched.next, task_modify]
    split_ifs with h
    · rw [h]
    · rfl

theorem SchedInv.ticks {s' : Sched} (hi : SchedInv s idle T R) (h : SameButTicks s s') :
    SchedInv s' idle T R :=
  hi.congr h.current h.first h.last h.state fun u _ => h.next u

theorem unlock_yield_lock (s : Sched) : unlockScheduler (yield (lockScheduler s)) = yield s := by
  have h1 : (lockScheduler s).taskSwitchLock = s.taskSwitchLock := rfl
  have h2 : (lockScheduler s).firstTask = s.firstTask := rfl
  have h3 : (lockScheduler s).lastTask = s.lastTask := rfl
  have h4 : (lockScheduler s).state (lockScheduler s).currentTask = s.state s.currentTask := rfl
  rw [unlockScheduler_eq]
  unfold yield
  rw [h1, h2, h3, h4]
  split_ifs
  · rfl
  · rfl
  · rw [popTask_eq, popTask_eq]; rfl
  · rw [popTask_eq, popTask_eq]; rfl

/-- **The timer** counts, and yields when the time is up and the scheduler is not locked. -/
theorem schedulerIrq0_cases (s : Sched) : ∃ s₁, SameButTicks s s₁ ∧
    (schedulerIrq0 s = s₁ ∨ s.schedLock = 0 ∧ schedulerIrq0 s = yield s₁) := by
  have hrefl : SameButTicks s s := ⟨rfl, rfl, rfl, fun _ => rfl, fun _ => rfl, rfl, rfl, rfl⟩
  unfold schedulerIrq0
  by_cases h0 : s.currentTask = NULL
  · rw [if_pos h0]
    exact ⟨s, hrefl, Or.inl rfl⟩
  rw [if_neg h0]
  dsimp only
  generalize hs₁ : (if (s.task s.currentTask).ticksRemaining ≠ 0 then
      unlockScheduler ((lockScheduler s).modify s.currentTask fun k =>
        { k with ticksRemaining := k.ticksRemaining - 1 })
    else s) = s₁
  have h1 : SameButTicks s s₁ := by
    rw [← hs₁]
    split_ifs
    · rw [unlockScheduler_eq]
      exact sameButTicks_modify s s.currentTask fun k => k.ticksRemaining - 1
    · exact hrefl
  refine ⟨s₁, h1, ?_⟩
  split_ifs with hl ht
  · exact Or.inl rfl
  · refine Or.inr ⟨?_, unlock_yield_lock s₁⟩
    rw [← h1.schedLock]
    simpa using hl
  · exact Or.inl rfl

end Nettapus
