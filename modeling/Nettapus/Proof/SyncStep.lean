import Nettapus.Proof.Sync

/-!
# Steps of the waiting lists

* `SyncInv.block`, `JoinStep.inv`: a task gets on a list and blocks.
* `SyncInv.acquired`, `SyncInv.released`: the semaphore is granted or given up at once.
* `SyncInv.signalled`, `SyncInv.handedOver`: the first task of a list is woken. `unblock_task` clears its `next`
  before the list goes on to it, so that the list is empty then, whoever else waits.
-/

namespace Nettapus

open Links Sched

variable {k k' : Kernel} {s t u : ℕ} {o : Obj} {R R' : List ℕ} {W W' : Obj → List ℕ}

/-! ## Blocking -/

theorem blockTask_of_locked {c : Sched} (h : c.taskSwitchLock ≠ 0) : blockTask c =
    { c.setState c.currentTask .block with taskSwitchPostponed := c.taskSwitchPostponed + 1 } := by
  rw [blockTask_eq]
  unfold yield
  rw [if_pos (show (c.setState c.currentTask .block).taskSwitchLock ≠ 0 from h)]
  rfl

/-- A task inside a call is not the idle task. -/
theorem CoreInv.cur_ne_idle (h : CoreInv k R) (hpc : k.pc k.cur ≠ .user) : k.cur ≠ k.idle := by
  intro hi
  have := h.idle_user
  rw [← hi] at this
  exact hpc this

/-- **The current task goes on from a place in a call**; what is left to show is about the scheduler. -/
theorem CoreInv.goOn {p : Pc} {R' : List ℕ} (h : CoreInv k R) (hbody : k.pc k.cur ≠ .user) (hidle : k'.idle = k.idle)
    (htasks : k'.tasks = k.tasks) (hcur : k'.cur = k.cur) (hpc : ∀ t, k'.pc t = if t = k.cur then p else k.pc t)
    (hsched : SchedInv k'.sched k.idle k.tasks R') (hlock : k'.sched.schedLock = k.sched.schedLock)
    (hok : CurOk k'.sched.taskSwitchLock k'.sched.taskSwitchPostponed (k'.sched.state k.cur) p) : CoreInv k' R' := by
  have hne : k.cur ≠ k.idle := h.cur_ne_idle hbody
  refine ⟨?_, hlock.trans h.schedLock, ?_, fun t ht => ?_, ?_, ?_, fun t ht => ?_⟩
  · rw [hidle, htasks]
    exact hsched
  · rw [htasks]
    exact h.addr
  · rw [htasks] at ht
    have htc : t ≠ k.cur := fun he => ht (he ▸ h.sched.current_mem)
    rw [hpc, if_neg htc]
    exact h.fresh t ht
  · rw [hidle, hpc, if_neg (Ne.symm hne)]
    exact h.idle_user
  · rw [hcur, hpc, if_pos rfl]
    exact hok
  · rw [hcur] at ht
    rw [hpc, if_neg ht]
    exact h.other t ht

/-- Who is in the body of a call was there before, if the current task has left its own. -/
theorem body_of_left {c c' : Call} (hpc : ∀ t, k'.pc t = if t = k.cur then .call .unlock c else k.pc t)
    (ht : k'.pc t = .call .body c') : t ≠ k.cur ∧ k.pc t = .call .body c' := by
  rw [hpc] at ht
  split_ifs at ht with htc
  · cases ht
  · exact ⟨htc, ht⟩

/-- **`block_task` under the lock** marks the task and postpones the switch. -/
theorem SyncInv.block (h : SyncInv k R W) {c : Call} (hpc : k.pc k.cur = .call .block c) :
    SyncInv { k with
      sched := blockTask k.sched
      pc := Function.update k.pc k.cur (.call .unlock c) } R W := by
  have hok := h.core.cur_ok
  rw [hpc] at hok
  obtain ⟨hl, ha, -⟩ := hok
  have hidle : k.cur ≠ k.idle := h.core.cur_ne_idle (by rw [hpc]; simp)
  rw [blockTask_of_locked (by omega)]
  set k' : Kernel := { k with
    sched := { k.sched.setState k.sched.currentTask .block with
      taskSwitchPostponed := k.sched.taskSwitchPostponed + 1 }
    pc := Function.update k.pc k.cur (.call .unlock c) } with hk'
  have hcur : k'.cur = k.cur := rfl
  have hpc' : ∀ t, k'.pc t = if t = k.cur then .call .unlock c else k.pc t :=
    fun t => Function.update_apply _ _ _ _
  have hst : ∀ t, k'.sched.state t = if t = k.cur then .block else k.sched.state t :=
    fun t => state_setState k.sched k.cur t .block
  -- the task stays in the part of its call in which it may wait
  have hm : MoveOk k (.call .unlock c) := by
    refine ⟨fun s hs => ?_, fun s hs => ?_, fun s hs => (by cases hs), fun s hs => (by cases hs),
      fun q hq => ?_⟩
    · obtain ⟨g, -, hg⟩ := (h.sems.wait s _ hs).2
      rw [hpc] at hg
      cases hg
      exact ⟨.unlock, ⟨by simp, by simp⟩, rfl⟩
    · obtain ⟨g, -, hg⟩ := hs
      cases hg
      exact ⟨.block, ⟨by simp, by simp⟩, hpc⟩
    · rcases hq with hq | hq <;> cases hq
  refine ⟨⟨?_, h.core.schedLock, h.core.addr, fun t ht => ?_, ?_, ?_, fun t ht => ?_⟩, ?_, ?_, ?_⟩
  · exact (h.core.sched.setBlock hidle).congr rfl rfl rfl (fun _ => rfl) fun _ _ => rfl
  · have htc : t ≠ k.cur := fun he => ht (he ▸ h.core.sched.current_mem)
    rw [hpc', if_neg htc]
    exact h.core.fresh t ht
  · rw [hpc', if_neg (Ne.symm hidle)]; exact h.core.idle_user
  · rw [hcur, hpc', if_pos rfl]
    exact ⟨hl, ha, fun _ => Nat.succ_pos _⟩
  · rw [hcur] at ht
    rw [hpc', if_neg ht]; exact h.core.other t ht
  · refine h.lists.frame (fun o => by cases o <;> rfl) (fun o => by cases o <;> rfl) rfl
      (fun _ ht => ht) (fun _ t _ => next_setState k.sched k.cur t .block) fun o t ht => ?_
    rw [hst, hpc']
    split_ifs
    · exact Or.inl rfl
    · exact h.lists.blocked o t ht
  · exact h.sems.move hm rfl rfl rfl rfl rfl
  · exact h.sigs.move hm rfl rfl

/-! ## Getting on a list -/

/-- A task that does not wait for anything. -/
theorem SyncInv.not_waiting (h : SyncInv k R W) (hb : ∀ c, k.pc k.cur ≠ .call .block c)
    (hr : k.sched.state k.cur = .running) (o : Obj) : k.cur ∉ k.waiting o := by
  intro hw
  have := h.blocked_of_waiting hb hw
  rw [hr] at this
  cases this

/-- `s'` is the scheduler, and `f`, `l` are the ends of the list of `o`, after the current
task was put on it. -/
structure Joined (k : Kernel) (W : Obj → List ℕ) (o : Obj) (s' : Sched) (f l : ℕ) : Prop where
  current : s'.currentTask = k.cur
  first : s'.firstTask = k.sched.firstTask
  last : s'.lastTask = k.sched.lastTask
  schedLock : s'.schedLock = k.sched.schedLock
  taskSwitchLock : s'.taskSwitchLock = k.sched.taskSwitchLock
  postponed : s'.taskSwitchPostponed = k.sched.taskSwitchPostponed
  state : ∀ t, s'.state t = k.sched.state t
  next : ∀ t, t ≠ k.cur → t ≠ k.last o ∨ W o = [] → s'.next t = k.sched.next t
  link : W o ≠ [] → s'.next (k.last o) = k.cur
  ends : f = front (W o) k.cur ∧ l = k.cur

theorem SyncInv.semEnqueue (h : SyncInv k R W) (s : ℕ) :
    Joined k W (.sem s) (semEnqueue k.sched (k.sem s)).1
      (semEnqueue k.sched (k.sem s)).2.firstWaitingTask
      (semEnqueue k.sched (k.sem s)).2.lastWaitingTask := by
  obtain ⟨e, he⟩ := h.lists.list (.sem s)
  unfold Nettapus.semEnqueue
  by_cases hl : (k.sem s).lastWaitingTask = NULL
  · rw [if_pos hl]
    have hnil : W (.sem s) = [] := he.last_eq_null_iff.1 hl
    refine ⟨rfl, rfl, rfl, rfl, rfl, rfl, fun _ => rfl, fun _ _ _ => rfl, fun hne => absurd hnil hne, ?_, rfl⟩
    rw [hnil]; rfl
  · rw [if_neg hl]
    have hne : W (.sem s) ≠ [] := fun hnil => hl (he.last_eq_null_iff.2 hnil)
    refine ⟨rfl, rfl, rfl, rfl, rfl, rfl, fun t => state_setNext _ _ _ _, fun t _ ht => ?_, fun _ => ?_, ?_, rfl⟩
    · exact (next_setNext _ _ _ _).trans (if_neg (ht.resolve_right hne))
    · exact (next_setNext _ _ _ _).trans (if_pos rfl)
    · exact he.first_eq.trans (front_of_ne_nil _ _ hne)

theorem SyncInv.queueEnqueue (h : SyncInv k R W) {q : ℕ} (hw : k.cur ∉ k.waiting (.queue q)) :
    Joined k W (.queue q) (queueEnqueue k.sched (k.queue q)).1
      (queueEnqueue k.sched (k.queue q)).2.firstTask (queueEnqueue k.sched (k.queue q)).2.lastTask := by
  obtain ⟨e, he⟩ := h.lists.list (.queue q)
  unfold Nettapus.queueEnqueue
  dsimp only
  by_cases hf : (k.queue q).firstTask = NULL
  · rw [if_pos hf]
    have hnil : W (.queue q) = [] := he.first_eq_null_iff.1 hf
    refine ⟨rfl, rfl, rfl, rfl, rfl, rfl, fun t => state_setNext _ _ _ _, fun t ht _ => ?_,
      fun hne => absurd hnil hne, ?_, rfl⟩
    · exact (next_setNext _ _ _ _).trans (if_neg ht)
    · rw [hnil]; rfl
  · rw [if_neg hf]
    have hne : W (.queue q) ≠ [] := fun hnil => hf (he.first_eq_null_iff.2 hnil)
    have hlc : k.last (.queue q) ≠ k.cur := fun hc => hw (h.lists.sub _ _ (hc ▸ he.last_mem hne))
    have hlast : (k.sched.setNext (k.queue q).lastTask k.sched.currentTask).next (k.queue q).lastTask =
        k.sched.currentTask := (next_setNext _ _ _ _).trans (if_pos rfl)
    refine ⟨rfl, rfl, rfl, rfl, rfl, rfl, fun t => ?_, fun t htc ht => ?_, fun _ => ?_, ?_, hlast⟩
    · exact (state_setNext _ _ _ _).trans (state_setNext _ _ _ _)
    · rw [hlast]
      exact (next_setNext _ _ _ _).trans ((if_neg htc).trans
        ((next_setNext _ _ _ _).trans (if_neg (ht.resolve_right hne))))
    · rw [hlast]
      exact (next_setNext _ _ _ _).trans ((if_neg hlc).trans hlast)
    · exact he.first_eq.trans (front_of_ne_nil _ _ hne)

/-- The step from `k` to `k'` in which the current task gets on the list of `o`. -/
structure JoinStep (k k' : Kernel) (W : Obj → List ℕ) (o : Obj) : Prop where
  body : k.pc k.cur = .call .body o.call
  running : k.sched.state k.cur = .running
  joined : Joined k W o k'.sched (k'.first o) (k'.last o)
  first : ∀ o', o' ≠ o → k'.first o' = k.first o'
  last : ∀ o', o' ≠ o → k'.last o' = k.last o'
  waiting : ∀ o', k'.waiting o' = if o' = o then k.waiting o ++ [k.cur] else k.waiting o'
  pc : ∀ t, k'.pc t = if t = k.cur then .call .block o.call else k.pc t
  count : ∀ s, (k'.sem s).currentCount = (k.sem s).currentCount
  max : ∀ s, (k'.sem s).maxCount = (k.sem s).maxCount
  idle : k'.idle = k.idle
  tasks : k'.tasks = k.tasks
  held : k'.held = k.held
  granted : k'.granted = k.granted

namespace JoinStep

theorem no_block (hs : JoinStep k k' W o) (c : Call) : k.pc k.cur ≠ .call .block c := by
  rw [hs.body]; simp

/-- Before the step the current task waits for nothing. -/
theorem not_waiting (h : SyncInv k R W) (hs : JoinStep k k' W o) (o' : Obj) : k.cur ∉ k.waiting o' :=
  h.not_waiting hs.no_block hs.running o'

theorem cur (hs : JoinStep k k' W o) : k'.cur = k.cur := hs.joined.current

/-- Among the tasks that wait after the step, those other than the current one waited before. -/
theorem waiting_of_ne (hs : JoinStep k k' W o) {o' : Obj} (ht : t ∈ k'.waiting o') (hc : t ≠ k.cur) :
    t ∈ k.waiting o' := by
  rw [hs.waiting] at ht
  split_ifs at ht with ho
  · rw [ho]
    exact (List.mem_append.1 ht).resolve_right fun hx => hc (List.mem_singleton.1 hx)
  · exact ht

/-- The current task waits for `o` and nothing else after the step. -/
theorem cur_waiting (h : SyncInv k R W) (hs : JoinStep k k' W o) (o' : Obj)
    (ho : k.cur ∈ k'.waiting o') : o' = o := by
  by_contra hne
  rw [hs.waiting, if_neg hne] at ho
  exact hs.not_waiting h o' ho

theorem mem_waiting (hs : JoinStep k k' W o) {o' : Obj} (ht : t ∈ k.waiting o') : t ∈ k'.waiting o' := by
  rw [hs.waiting]
  split_ifs with ho
  · exact List.mem_append_left _ (ho ▸ ht)
  · exact ht

/-- The link that changes, besides that of the current task, is that of the last task of the
list, which is blocked and waits for nothing else. -/
theorem next_eq (h : SyncInv k R W) (hs : JoinStep k k' W o) (htc : t ≠ k.cur)
    (ht : t ∉ k.waiting o) : k'.sched.next t = k.sched.next t := by
  obtain ⟨e, he⟩ := h.lists.list o
  refine hs.joined.next t htc ?_
  by_cases hne : W o = []
  · exact Or.inr hne
  · exact Or.inl fun hc => ht (h.lists.sub o t (hc ▸ he.last_mem hne))

theorem core (h : SyncInv k R W) (hs : JoinStep k k' W o) : CoreInv k' R := by
  have hj := hs.joined
  have hok := h.core.cur_ok
  rw [hs.body] at hok
  refine h.core.goOn (by rw [hs.body]; simp) hs.idle hs.tasks hs.cur hs.pc ?_ hj.schedLock ?_
  · refine h.core.sched.congr hj.current hj.first hj.last hj.state fun t ht => ?_
    refine hs.next_eq h (fun hc => h.core.sched.current_notMem (show k.cur ∈ R from hc ▸ ht)) fun hw => ?_
    exact h.core.sched.blocked_notMem (h.blocked_of_waiting hs.no_block hw) ht
  · rw [hj.taskSwitchLock, hj.postponed, hj.state]
    exact ⟨hok.1, hok.2.1, hs.running⟩

theorem lists (h : SyncInv k R W) (hs : JoinStep k k' W o) :
    ListInv k' (Function.update W o (W o ++ [k.cur])) := by
  have hj := hs.joined
  have hcw := hs.not_waiting h
  refine ⟨fun o' => ?_, fun o' t ht => ?_, fun o' t ht => ?_, fun o' t ht => ?_, ?_, fun o' => ?_⟩
  · rw [Function.update_apply]
    obtain ⟨e, he⟩ := h.lists.list o'
    split_ifs with ho
    · -- the list of `o` gets a new end; its other links are not the current task's
      subst ho
      rw [hj.ends.1, hj.ends.2]
      refine ⟨_, he.push (fun hc => hcw o' (h.lists.sub o' _ hc)) (h.core.sched.ne_null
        h.core.sched.current_mem) (fun t ht htl => ?_) hj.link rfl⟩
      refine hj.next t (fun hc => hcw o' ?_) (Or.inl htl)
      rw [← hc]
      exact h.lists.sub o' t ht
    · -- a task of another list is not on this one, so that its link stays
      rw [hs.first o' ho, hs.last o' ho]
      refine ⟨e, he.congr fun t ht => ?_⟩
      have htw := h.lists.sub o' t ht
      exact hs.next_eq h (fun hc => hcw o' (hc ▸ htw)) fun hw => ho (h.lists.unique o' o t htw hw)
  · rw [Function.update_apply] at ht
    split_ifs at ht with ho
    · subst ho
      rcases List.mem_append.1 ht with ht | ht
      · exact hs.mem_waiting (h.lists.sub o' t ht)
      · rw [hs.waiting, if_pos rfl]
        exact List.mem_append_right _ ht
    · exact hs.mem_waiting (h.lists.sub o' t ht)
  · rw [hs.tasks]
    by_cases htc : t = k.cur
    · rw [htc]; exact h.core.sched.current_mem
    · exact h.lists.mem o' t (hs.waiting_of_ne ht htc)
  · rw [hj.state, hs.pc]
    split_ifs with htc
    · rw [hs.cur_waiting h o' (htc ▸ ht)]
      exact Or.inr rfl
    · exact h.lists.blocked o' t (hs.waiting_of_ne ht htc)
  · intro o₁ o₂ t h1 h2
    by_cases htc : t = k.cur
    · rw [hs.cur_waiting h o₁ (htc ▸ h1), hs.cur_waiting h o₂ (htc ▸ h2)]
    · exact h.lists.unique o₁ o₂ t (hs.waiting_of_ne h1 htc) (hs.waiting_of_ne h2 htc)
  · rw [hs.waiting]
    split_ifs
    · rw [List.nodup_append]
      refine ⟨h.lists.nodup o, by simp, fun a ha b hb => ?_⟩
      rintro rfl
      exact hcw o (List.mem_singleton.1 hb ▸ ha)
    · exact h.lists.nodup o'

theorem sems (h : SyncInv k R W) (hs : JoinStep k k' W o) : SemInv k' := by
  refine ⟨fun s t ht => ?_, fun s t ht => ?_, fun s t ht => ?_, fun s t ht => ?_, fun s => ?_,
    fun s => ?_, fun s => ?_⟩
  · rw [hs.granted, hs.pc]
    split_ifs with htc
    · subst htc
      have ho := hs.cur_waiting h _ ht
      subst ho
      exact ⟨h.sems.pending s _ hs.body, .block, ⟨by simp, by simp⟩, rfl⟩
    · exact h.sems.wait s t (hs.waiting_of_ne ht htc)
  · rw [hs.granted]
    rw [hs.pc] at ht
    split_ifs at ht with htc
    · obtain ⟨g, -, hg⟩ := ht
      have ho : o = .sem s := by
        cases o <;> cases hg
        rfl
      refine Or.inr ?_
      rw [hs.waiting, if_pos ho.symm, htc]
      simp
    · exact (h.sems.decided s t ht).imp id hs.mem_waiting
  · rw [hs.granted]
    rw [hs.pc] at ht
    split_ifs at ht with htc
    · cases ht
    · exact h.sems.pending s t ht
  · rw [hs.held]
    rw [hs.pc] at ht
    split_ifs at ht with htc
    · cases ht
    · exact h.sems.holds s t ht
  · rw [hs.held, hs.count]; exact h.sems.count s
  · rw [hs.count, hs.max]; exact h.sems.le s
  · rw [hs.max]; exact h.sems.max s

theorem sigs (h : SyncInv k R W) (hs : JoinStep k k' W o) : SigInv k' := by
  intro q t ht hw
  rw [hs.pc] at ht
  split_ifs at ht with htc
  · rcases ht with ht | ht <;> cases ht
  · exact h.sigs q t ht (hs.waiting_of_ne hw htc)

/-- **A task gets on a list**, at the end. -/
theorem inv (h : SyncInv k R W) (hs : JoinStep k k' W o) :
    SyncInv k' R (Function.update W o (W o ++ [k.cur])) :=
  ⟨hs.core h, hs.lists h, hs.sems h, hs.sigs h⟩

end JoinStep

/-! ## Grants without waiting -/

/-- The current task leaves the critical section of `c`, and the scheduler stays. -/
structure LeaveStep (k k' : Kernel) (c : Call) : Prop where
  body : k.pc k.cur = .call .body c
  sched : k'.sched = k.sched
  first : ∀ o, k'.first o = k.first o
  last : ∀ o, k'.last o = k.last o
  waiting : k'.waiting = k.waiting
  pc : ∀ t, k'.pc t = if t = k.cur then .call .unlock c else k.pc t
  idle : k'.idle = k.idle
  tasks : k'.tasks = k.tasks

namespace LeaveStep

variable {c : Call}

theorem cur (hs : LeaveStep k k' c) : k'.cur = k.cur := congrArg Sched.currentTask hs.sched

theorem core (h : SyncInv k R W) (hs : LeaveStep k k' c) : CoreInv k' R := by
  have hok := h.core.cur_ok
  rw [hs.body] at hok
  refine h.core.goOn (by rw [hs.body]; simp) hs.idle hs.tasks hs.cur hs.pc ?_ (by rw [hs.sched]) ?_
  · rw [hs.sched]
    exact h.core.sched
  · rw [hs.sched]
    exact ⟨hok.1, hok.2.1, hok.2.2.2⟩

theorem lists (h : SyncInv k R W) (hs : LeaveStep k k' c) : ListInv k' W := by
  refine h.lists.frame hs.first hs.last hs.waiting (fun t ht => by rw [hs.tasks]; exact ht)
    (fun _ _ _ => by rw [hs.sched]) fun o t ht => Or.inl ?_
  rw [hs.sched]
  exact h.blocked_of_waiting (fun c' => by rw [hs.body]; simp) ht

theorem sigs (h : SyncInv k R W) (hs : LeaveStep k k' c) : SigInv k' := by
  intro q t ht
  rw [hs.waiting]
  rw [hs.pc] at ht
  split_ifs at ht with htc
  · rcases ht with ht | ht <;> cases ht
  · exact h.sigs q t ht

end LeaveStep

/-- The count changes nothing else of a semaphore. -/
theorem setCount_fields (m : Semaphore) (n : ℕ) : (m.setCount n).currentCount = n ∧
    (m.setCount n).maxCount = m.maxCount ∧ (m.setCount n).firstWaitingTask = m.firstWaitingTask ∧
    (m.setCount n).lastWaitingTask = m.lastWaitingTask := ⟨rfl, rfl, rfl, rfl⟩

/-- **The semaphore is granted at once.** -/
theorem SyncInv.acquired (h : SyncInv k R W) (hs : LeaveStep k k' (.acquire s))
    (hlt : (k.sem s).currentCount < (k.sem s).maxCount)
    (hsem : k'.sem = Function.update k.sem s ((k.sem s).setCount (u64 ((k.sem s).currentCount + 1))))
    (hheld : k'.held = Function.update k.held s (k.held s ++ [k.cur]))
    (hgr : k'.granted = Function.update k.granted k.cur true) : SyncInv k' R W := by
  have hok := h.core.cur_ok
  rw [hs.body] at hok
  have hcw := h.not_waiting (fun c' => by rw [hs.body]; simp) (hok.2.2.1 (Or.inl ⟨s, rfl⟩))
  have hmax := h.sems.max s
  have hcount : u64 ((k.sem s).currentCount + 1) = (k.sem s).currentCount + 1 := u64_of_lt (by omega)
  refine ⟨hs.core h, hs.lists h, ⟨fun s' t ht => ?_, fun s' t ht => ?_, fun s' t ht => ?_,
    fun s' t ht => ?_, fun s' => ?_, fun s' => ?_, fun s' => ?_⟩, hs.sigs h⟩
  · rw [hs.waiting] at ht
    have htc : t ≠ k.cur := fun he => hcw _ (he ▸ ht)
    rw [hgr, Function.update_of_ne htc, hs.pc, if_neg htc]
    exact h.sems.wait s' t ht
  · rw [hgr, hs.waiting]
    rw [hs.pc] at ht
    split_ifs at ht with htc
    · rw [htc, Function.update_self]; exact Or.inl rfl
    · rw [Function.update_of_ne htc]; exact h.sems.decided s' t ht
  · obtain ⟨htc, ht⟩ := body_of_left hs.pc ht
    rw [hgr, Function.update_of_ne htc]
    exact h.sems.pending s' t ht
  · have hold := h.sems.holds s' t (body_of_left hs.pc ht).2
    rw [hheld, Function.update_apply]
    split_ifs with hss
    · exact List.mem_append_left _ (hss ▸ hold)
    · exact hold
  · rw [hheld, hsem, Function.update_apply, Function.update_apply]
    split_ifs with hss
    · have := h.sems.count s
      rw [List.length_append, (setCount_fields _ _).1, hcount, this]
      rfl
    · exact h.sems.count s'
  · rw [hsem, Function.update_apply]
    split_ifs with hss
    · rw [(setCount_fields _ _).1, (setCount_fields _ _).2.1, hcount]
      exact hlt
    · exact h.sems.le s'
  · rw [hsem, Function.update_apply]
    split_ifs with hss
    · rw [(setCount_fields _ _).2.1]; exact hmax
    · exact h.sems.max s'

/-- **The semaphore is given up**, and nobody is on the list. -/
theorem SyncInv.released (h : SyncInv k R W) (hs : LeaveStep k k' (.release s))
    (hsem : k'.sem = Function.update k.sem s ((k.sem s).setCount (sub64 (k.sem s).currentCount 1)))
    (hheld : k'.held = Function.update k.held s ((k.held s).erase k.cur))
    (hgr : k'.granted = k.granted) : SyncInv k' R W := by
  have hmem := h.sems.holds s k.cur hs.body
  have hpos : 0 < (k.held s).length := List.length_pos_of_mem hmem
  have hc := h.sems.count s
  have hle := h.sems.le s
  have hmax := h.sems.max s
  have hsub : sub64 (k.sem s).currentCount 1 = (k.sem s).currentCount - 1 :=
    sub64_of_le (by omega) (by omega)
  refine ⟨hs.core h, hs.lists h, ⟨fun s' t ht => ?_, fun s' t ht => ?_, fun s' t ht => ?_,
    fun s' t ht => ?_, fun s' => ?_, fun s' => ?_, fun s' => ?_⟩, hs.sigs h⟩
  · rw [hs.waiting] at ht
    obtain ⟨h1, h2⟩ := h.sems.wait s' t ht
    have htc : t ≠ k.cur := by
      rintro rfl
      obtain ⟨g, -, hg⟩ := h2
      rw [hs.body] at hg
      cases hg
    rw [hgr, hs.pc, if_neg htc]
    exact ⟨h1, h2⟩
  · rw [hgr, hs.waiting]
    rw [hs.pc] at ht
    split_ifs at ht with htc
    · obtain ⟨g, -, hg⟩ := ht
      cases hg
    · exact h.sems.decided s' t ht
  · rw [hgr]
    exact h.sems.pending s' t (body_of_left hs.pc ht).2
  · obtain ⟨htc, ht⟩ := body_of_left hs.pc ht
    have hold := h.sems.holds s' t ht
    rw [hheld, Function.update_apply]
    split_ifs with hss
    · exact (List.mem_erase_of_ne htc).2 (hss ▸ hold)
    · exact hold
  · rw [hheld, hsem, Function.update_apply, Function.update_apply]
    split_ifs with hss
    · rw [(setCount_fields _ _).1, hsub, List.length_erase_of_mem hmem, hc]
    · exact h.sems.count s'
  · rw [hsem, Function.update_apply]
    split_ifs with hss
    · rw [(setCount_fields _ _).1, (setCount_fields _ _).2.1, hsub]
      omega
    · exact h.sems.le s'
  · rw [hsem, Function.update_apply]
    split_ifs with hss
    · rw [(setCount_fields _ _).2.1]; exact hmax
    · exact h.sems.max s'

/-! ## Waking a task -/

/-- The step from `k` to `k'` in which the current task, in the call `c`, wakes the task `f` of
the list of `o`. The list is empty afterwards. -/
structure WakeStep (k k' : Kernel) (o : Obj) (c : Call) (f : ℕ) : Prop where
  body : k.pc k.cur = .call .body c
  mem : f ∈ k.waiting o
  ne : f ≠ k.cur
  sched : k'.sched = unblockTask k.sched f
  ends : k'.first o = NULL ∧ k'.last o = NULL
  first : ∀ o', o' ≠ o → k'.first o' = k.first o'
  last : ∀ o', o' ≠ o → k'.last o' = k.last o'
  waiting : ∀ o', k'.waiting o' = if o' = o then (k.waiting o).erase f else k.waiting o'
  pc : ∀ t, k'.pc t = if t = k.cur then .call .unlock c else k.pc t
  idle : k'.idle = k.idle
  tasks : k'.tasks = k.tasks

namespace WakeStep

variable {c : Call} {f : ℕ}

theorem no_block (hs : WakeStep k k' o c f) (c' : Call) : k.pc k.cur ≠ .call .block c' := by
  rw [hs.body]; simp

theorem appended (h : SyncInv k R W) (hs : WakeStep k k' o c f) :
    Appended k.sched k'.sched k.idle f k.tasks (R ++ [f]) := by
  rw [hs.sched]
  exact h.core.sched.unblock (h.lists.mem o f hs.mem) (h.blocked_of_waiting hs.no_block hs.mem) hs.ne

theorem cur (h : SyncInv k R W) (hs : WakeStep k k' o c f) : k'.cur = k.cur := (hs.appended h).current

/-- The tasks that wait after the step waited before, and are not `f`. -/
theorem waiting_before (h : SyncInv k R W) (hs : WakeStep k k' o c f) {o' : Obj}
    (ht : t ∈ k'.waiting o') : t ∈ k.waiting o' ∧ t ≠ f := by
  rw [hs.waiting] at ht
  split_ifs at ht with ho
  · subst ho
    exact ((List.Nodup.mem_erase_iff (h.lists.nodup o')).1 ht).symm
  · exact ⟨ht, fun he => ho (h.lists.unique o' o t ht (he ▸ hs.mem))⟩

theorem core (h : SyncInv k R W) (hs : WakeStep k k' o c f) : CoreInv k' (R ++ [f]) := by
  have ha := hs.appended h
  have hok := h.core.cur_ok
  rw [hs.body] at hok
  refine h.core.goOn (by rw [hs.body]; simp) hs.idle hs.tasks (hs.cur h) hs.pc ha.inv ha.schedLock ?_
  rw [ha.taskSwitchLock, ha.postponed, ha.state, if_neg (Ne.symm hs.ne)]
  exact ⟨hok.1, hok.2.1, hok.2.2.2⟩

theorem lists (h : SyncInv k R W) (hs : WakeStep k k' o c f) : ListInv k' (Function.update W o []) := by
  have ha := hs.appended h
  have hblk : ∀ o', ∀ t ∈ k'.waiting o', k'.sched.task t = k.sched.task t := by
    intro o' t ht
    obtain ⟨h1, h2⟩ := hs.waiting_before h ht
    exact ha.blocked t h2 (h.blocked_of_waiting hs.no_block h1)
  refine ⟨fun o' => ?_, fun o' t ht => ?_, fun o' t ht => ?_, fun o' t ht => ?_, ?_, fun o' => ?_⟩
  · rw [Function.update_apply]
    split_ifs with ho
    · rw [ho, hs.ends.1, hs.ends.2]
      exact ⟨NULL, Fifo.nil _ _ _⟩
    · obtain ⟨e, he⟩ := h.lists.list o'
      rw [hs.first o' ho, hs.last o' ho]
      refine ⟨e, he.congr fun t ht => ?_⟩
      have htw : t ∈ k'.waiting o' := by
        rw [hs.waiting, if_neg ho]
        exact h.lists.sub o' t ht
      rw [next, next, hblk o' t htw]
  · rw [Function.update_apply] at ht
    split_ifs at ht with ho
    · cases ht
    · rw [hs.waiting, if_neg ho]; exact h.lists.sub o' t ht
  · rw [hs.tasks]; exact h.lists.mem o' t (hs.waiting_before h ht).1
  · refine Or.inl ?_
    rw [state, hblk o' t ht]
    exact h.blocked_of_waiting hs.no_block (hs.waiting_before h ht).1
  · exact fun o₁ o₂ t h1 h2 =>
      h.lists.unique o₁ o₂ t (hs.waiting_before h h1).1 (hs.waiting_before h h2).1
  · rw [hs.waiting]
    split_ifs
    · exact (h.lists.nodup o).erase f
    · exact h.lists.nodup o'

theorem sigs (h : SyncInv k R W) (hs : WakeStep k k' o c f) : SigInv k' := by
  intro q t ht hw
  rw [hs.pc] at ht
  split_ifs at ht with htc
  · rcases ht with ht | ht <;> cases ht
  · exact h.sigs q t ht (hs.waiting_before h hw).1

/-- A task that wakes another one waits for no semaphore. -/
theorem decided_iff (hs : WakeStep k k' o c f) (hc : ∀ s, c ≠ .acquire s) (s t : ℕ) :
    (k'.pc t).DecidedFor s ↔ (k.pc t).DecidedFor s := by
  rw [hs.pc]
  split_ifs with htc
  · rw [htc, hs.body]
    constructor
    · rintro ⟨g, -, hg⟩
      exact absurd (Pc.call.inj hg).2 (hc s)
    · rintro ⟨g, -, hg⟩
      exact absurd (Pc.call.inj hg).2 (hc s)
  · rfl

end WakeStep

/-- **A task of a queue is woken.** -/
theorem SyncInv.signalled {q f : ℕ} (h : SyncInv k R W) (hs : WakeStep k k' (.queue q) (.signal q) f)
    (hsem : k'.sem = k.sem) (hheld : k'.held = k.held) (hgr : k'.granted = k.granted) :
    SyncInv k' (R ++ [f]) (Function.update W (.queue q) []) := by
  have hdec := hs.decided_iff fun _ => nofun
  have hw : ∀ s, k'.waiting (.sem s) = k.waiting (.sem s) := by
    intro s
    rw [hs.waiting, if_neg (by simp)]
  refine ⟨hs.core h, hs.lists h, ⟨fun s t ht => ?_, fun s t ht => ?_, fun s t ht => ?_,
    fun s t ht => ?_, ?_, ?_, ?_⟩, hs.sigs h⟩
  · rw [hgr, hdec]
    exact h.sems.wait s t (hw s ▸ ht)
  · rw [hgr, hw]
    exact h.sems.decided s t ((hdec s t).1 ht)
  · rw [hgr]
    exact h.sems.pending s t (body_of_left hs.pc ht).2
  · rw [hheld]
    exact h.sems.holds s t (body_of_left hs.pc ht).2
  · rw [hheld, hsem]; exact h.sems.count
  · rw [hsem]; exact h.sems.le
  · rw [hsem]; exact h.sems.max

/-- **A semaphore is handed over.** The count stays, and one grant replaces another. -/
theorem SyncInv.handedOver {f : ℕ} (h : SyncInv k R W) (hs : WakeStep k k' (.sem s) (.release s) f)
    (hcount : ∀ s', (k'.sem s').currentCount = (k.sem s').currentCount ∧
      (k'.sem s').maxCount = (k.sem s').maxCount)
    (hheld : k'.held = Function.update k.held s ((k.held s).erase k.cur ++ [f]))
    (hgr : k'.granted = Function.update k.granted f true) :
    SyncInv k' (R ++ [f]) (Function.update W (.sem s) []) := by
  have hdec := hs.decided_iff fun _ => nofun
  have hmem := h.sems.holds s k.cur hs.body
  have hpos : 0 < (k.held s).length := List.length_pos_of_mem hmem
  refine ⟨hs.core h, hs.lists h, ⟨fun s' t ht => ?_, fun s' t ht => ?_, fun s' t ht => ?_,
    fun s' t ht => ?_, fun s' => ?_, fun s' => ?_, fun s' => ?_⟩, hs.sigs h⟩
  · obtain ⟨h1, h2⟩ := hs.waiting_before h ht
    rw [hgr, Function.update_of_ne h2, hdec]
    exact h.sems.wait s' t h1
  · rw [hgr]
    by_cases htf : t = f
    · rw [htf, Function.update_self]; exact Or.inl rfl
    · rw [Function.update_of_ne htf]
      refine (h.sems.decided s' t ((hdec s' t).1 ht)).imp id fun hx => ?_
      rw [hs.waiting]
      split_ifs with ho
      · exact (List.mem_erase_of_ne htf).2 (ho ▸ hx)
      · exact hx
  · obtain ⟨-, ht⟩ := body_of_left hs.pc ht
    have htf : t ≠ f := by
      rintro rfl
      obtain ⟨g, hg, hg'⟩ := (h.sems.wait s t hs.mem).2
      rw [ht] at hg'
      cases hg'
      exact hg.2 rfl
    rw [hgr, Function.update_of_ne htf]
    exact h.sems.pending s' t ht
  · obtain ⟨htc, ht⟩ := body_of_left hs.pc ht
    have hold := h.sems.holds s' t ht
    rw [hheld, Function.update_apply]
    split_ifs with hss
    · exact List.mem_append_left _ ((List.mem_erase_of_ne htc).2 (hss ▸ hold))
    · exact hold
  · rw [hheld, (hcount s').1, Function.update_apply]
    split_ifs with hss
    · rw [hss, List.length_append, List.length_erase_of_mem hmem, ← h.sems.count s]
      simp only [List.length_singleton]
      omega
    · exact h.sems.count s'
  · rw [(hcount s').1, (hcount s').2]; exact h.sems.le s'
  · rw [(hcount s').2]; exact h.sems.max s'

end Nettapus
