import Nettapus.Proof.SyncStep

/-!
# Runs of semaphores and queues

* `SyncInv.step`: every step of the machine keeps the invariant, and changes the waiting
  lists in one of three ways (`Effect`).
-/

namespace Nettapus

open Links Sched Runs

variable {k k' : Kernel} {s t q : ℕ} {o : Obj} {R R' : List ℕ} {W W' : Obj → List ℕ} {e : Event}

/-- The call that wakes the tasks that wait for an object. -/
def Obj.waker : Obj → Call
  | .sem s => .release s
  | .queue q => .signal q

/-- What a step does to the waiting lists: `W` are the lists in memory, next to the tasks that
really wait. Waking empties the list in memory. -/
inductive Effect (k k' : Kernel) (e : Event) (W W' : Obj → List ℕ) : Prop
  | same (hW : W' = W) (hw : k'.waiting = k.waiting)
      (hq : ∀ q, (k'.queue q).amountWaiting = (k.queue q).amountWaiting)
  | join (o : Obj) (hW : W' = Function.update W o (W o ++ [k.cur]))
      (hw : ∀ o', k'.waiting o' = if o' = o then k.waiting o ++ [k.cur] else k.waiting o')
      (hq : ∀ q, (k'.queue q).amountWaiting =
        if Obj.queue q = o then u64 ((k.queue q).amountWaiting + 1) else (k.queue q).amountWaiting)
  | wake (o : Obj) (f : ℕ) (L : List ℕ) (he : e = .run) (hpc : k.pc k.cur = .call .body o.waker)
      (hL : W o = f :: L) (hf : f = k.first o) (hW : W' = Function.update W o [])
      (hw : ∀ o', k'.waiting o' = if o' = o then (k.waiting o).erase f else k.waiting o')
      (hq : ∀ q, (k'.queue q).amountWaiting =
        if Obj.queue q = o then sub64 (k.queue q).amountWaiting 1 else (k.queue q).amountWaiting)

/-! ## Calls -/

/-- At the start of a call the current task is not in the middle of another. -/
theorem SyncInv.moveOk_of_user (h : SyncInv k R W) (hpc : k.pc k.cur = .user) {p : Pc}
    (hp : ∀ s, ¬ p.DecidedFor s) (h1 : ∀ s, p = .call .body (.acquire s) → k.granted k.cur = false)
    (h2 : ∀ s, p = .call .body (.release s) → k.cur ∈ k.held s)
    (h3 : ∀ q, p.Signals q → k.cur ∉ k.waiting (.queue q)) : MoveOk k p := by
  refine ⟨fun s hs => ?_, fun s hs => absurd hs (hp s), h1, h2, h3⟩
  obtain ⟨g, -, hg⟩ := (h.sems.wait s _ hs).2
  rw [hpc] at hg
  cases hg

/-- A call that starts may forget the grants of earlier ones. -/
theorem SyncInv.forget (h : SyncInv k R W) (hpc : k.pc k.cur = .user) :
    SyncInv { k with granted := Function.update k.granted k.cur false } R W := by
  refine ⟨⟨h.core.sched, h.core.schedLock, h.core.addr, h.core.fresh, h.core.idle_user, h.core.cur_ok,
    h.core.other⟩, ?_, ⟨fun s t ht => ?_, fun s t ht => ?_, fun s t ht => ?_, h.sems.holds, h.sems.count,
    h.sems.le, h.sems.max⟩, h.sigs⟩
  · exact h.lists.frame (fun o => by cases o <;> rfl) (fun o => by cases o <;> rfl) rfl
      (fun _ ht => ht) (fun _ _ _ => rfl) h.lists.blocked
  · refine ⟨?_, (h.sems.wait s t ht).2⟩
    show Function.update k.granted k.cur false t = false
    rw [Function.update_apply]
    split_ifs
    · rfl
    · exact (h.sems.wait s t ht).1
  · have htc : t ≠ k.cur := by
      rintro rfl
      obtain ⟨g, -, hg⟩ := ht
      have hg' : k.pc k.cur = _ := hg
      rw [hpc] at hg'
      cases hg'
    show Function.update k.granted k.cur false t = true ∨ _
    rw [Function.update_of_ne htc]
    exact h.sems.decided s t ht
  · show Function.update k.granted k.cur false t = false
    rw [Function.update_apply]
    split_ifs
    · rfl
    · exact h.sems.pending s t ht

/-- **The start of a call.** -/
theorem SyncInv.enter (h : SyncInv k R W) (hidle : k.cur ≠ k.idle) (hpc : k.pc k.cur = .user) {c : Call}
    (hs : k.enter c = some k') : SyncInv k' R W ∧ k'.waiting = k.waiting ∧ k'.queue = k.queue := by
  have hb : ∀ c, k.pc k.cur ≠ .call .block c := fun c => by rw [hpc]; simp
  have hok := h.core.cur_ok
  rw [hpc] at hok
  have hblk : k.sched.state k.cur = .block →
      0 < k.sched.taskSwitchLock ∧ 0 < k.sched.taskSwitchPostponed := hok
  cases c with
  | acquire s =>
    simp only [Kernel.enter] at hs
    split_ifs at hs with h0 hl
    · obtain rfl := Option.some.inj hs; exact ⟨h, rfl, rfl⟩
    obtain rfl := Option.some.inj hs
    have h' := h.forget hpc
    -- outside of the lock a blocked task does not run
    have hr : k.sched.state k.cur = .running := by
      refine h.core.sched.current_state.resolve_right fun hst => ?_
      have := (hblk hst).1
      omega
    refine ⟨h'.move (p := .call .body (.acquire s)) ⟨Nat.succ_pos _, fun _ => by rw [hl], fun _ => hr,
      fun hst => (hblk hst).2⟩ hidle hb (h'.moveOk_of_user hpc ?_ ?_ ?_ ?_), rfl, rfl⟩
    · rintro s' ⟨g, hg, hg'⟩
      cases hg'
      exact hg.2 rfl
    · exact fun _ _ => Function.update_self _ _ _
    · intro s' hs'; cases hs'
    · rintro q (hq | hq) <;> cases hq
  | release s =>
    simp only [Kernel.enter] at hs
    split_ifs at hs with h0 hh
    · obtain rfl := Option.some.inj hs; exact ⟨h, rfl, rfl⟩
    obtain rfl := Option.some.inj hs
    refine ⟨h.move (p := .call .body (.release s)) ⟨Nat.succ_pos _, fun ha => ?_, fun ha => ?_,
      fun hst => (hblk hst).2⟩ hidle hb (h.moveOk_of_user hpc ?_ ?_ ?_ ?_), rfl, rfl⟩
    · obtain ⟨s', hs'⟩ := ha; cases hs'
    · rcases ha with ⟨s', hs'⟩ | ⟨q, hq⟩
      · cases hs'
      · cases hq
    · rintro s' ⟨g, hg, hg'⟩; cases hg'
    · intro s' hs'; cases hs'
    · intro s' hs'; cases hs'; exact hh
    · rintro q (hq | hq) <;> cases hq
  | wait q =>
    simp only [Kernel.enter] at hs
    split_ifs at hs with h0 hr
    · obtain rfl := Option.some.inj hs; exact ⟨h, rfl, rfl⟩
    obtain rfl := Option.some.inj hs
    refine ⟨h.move (p := .call .body (.wait q)) ⟨Nat.succ_pos _, fun ha => ?_, fun _ => hr,
      fun hst => (hblk hst).2⟩ hidle hb (h.moveOk_of_user hpc ?_ ?_ ?_ ?_), rfl, rfl⟩
    · obtain ⟨s', hs'⟩ := ha; cases hs'
    · rintro s' ⟨g, hg, hg'⟩; cases hg'
    · intro s' hs'; cases hs'
    · intro s' hs'; cases hs'
    · rintro q (hq | hq) <;> cases hq
  | signal q =>
    simp only [Kernel.enter] at hs
    split_ifs at hs with h0 ha hw
    · obtain rfl := Option.some.inj hs; exact ⟨h, rfl, rfl⟩
    · obtain rfl := Option.some.inj hs; exact ⟨h, rfl, rfl⟩
    obtain rfl := Option.some.inj hs
    refine ⟨h.move (l := k.sched.taskSwitchLock) (n := k.sched.taskSwitchPostponed)
      (p := .call .lock (.signal q)) hblk hidle hb (h.moveOk_of_user hpc ?_ ?_ ?_ ?_), rfl, rfl⟩
    · rintro s' ⟨g, hg, hg'⟩; cases hg'
    · intro s' hs'; cases hs'
    · intro s' hs'; cases hs'
    · -- nobody signals a queue that he waits on
      rintro q' (hq | hq) <;> cases hq
      exact hw
  | unlock =>
    simp only [Kernel.enter] at hs
    split_ifs at hs with h0
    · obtain rfl := Option.some.inj hs; exact ⟨h, rfl, rfl⟩
    obtain rfl := Option.some.inj hs
    refine ⟨h.move (p := .call .test .unlock) ⟨fun ha => ?_, fun hst => (hblk hst).2⟩ hidle hb
      (h.moveOk_of_user hpc ?_ ?_ ?_ ?_), rfl, rfl⟩
    · obtain ⟨s', hs'⟩ := ha; cases hs'
    · rintro s' ⟨g, hg, hg'⟩; cases hg'
    · intro s' hs'; cases hs'
    · intro s' hs'; cases hs'
    · rintro q (hq | hq) <;> cases hq

/-! ## Critical sections -/

section Fields

variable (k : Kernel) (s q t : ℕ) (o o' : Obj) (p : Pc)

@[simp] theorem first_setPc : (k.setPc t p).first o = k.first o := by cases o <;> rfl

@[simp] theorem last_setPc : (k.setPc t p).last o = k.last o := by cases o <;> rfl

@[simp] theorem first_join : (k.join o' t).first o = k.first o := by cases o <;> rfl

@[simp] theorem last_join : (k.join o' t).last o = k.last o := by cases o <;> rfl

@[simp] theorem first_leave : (k.leave o' t).first o = k.first o := by cases o <;> rfl

@[simp] theorem last_leave : (k.leave o' t).last o = k.last o := by cases o <;> rfl

@[simp] theorem first_grant : (k.grant s t).first o = k.first o := by cases o <;> rfl

@[simp] theorem last_grant : (k.grant s t).last o = k.last o := by cases o <;> rfl

@[simp] theorem first_giveUp : (k.giveUp s t).first o = k.first o := by cases o <;> rfl

@[simp] theorem last_giveUp : (k.giveUp s t).last o = k.last o := by cases o <;> rfl

theorem first_setSem (r : Sched × Semaphore) :
    (k.setSem s r).first o = if o = .sem s then r.2.firstWaitingTask else k.first o := by
  cases o with
  | sem s' =>
    simp only [Kernel.first, Kernel.setSem, Function.update_apply, Obj.sem.injEq]
    split_ifs <;> rfl
  | queue q => rfl

theorem last_setSem (r : Sched × Semaphore) :
    (k.setSem s r).last o = if o = .sem s then r.2.lastWaitingTask else k.last o := by
  cases o with
  | sem s' =>
    simp only [Kernel.last, Kernel.setSem, Function.update_apply, Obj.sem.injEq]
    split_ifs <;> rfl
  | queue q => rfl

theorem first_setQueue (r : Sched × Queue) :
    (k.setQueue q r).first o = if o = .queue q then r.2.firstTask else k.first o := by
  cases o with
  | sem s => rfl
  | queue q' =>
    simp only [Kernel.first, Kernel.setQueue, Function.update_apply, Obj.queue.injEq]
    split_ifs <;> rfl

theorem last_setQueue (r : Sched × Queue) :
    (k.setQueue q r).last o = if o = .queue q then r.2.lastTask else k.last o := by
  cases o with
  | sem s => rfl
  | queue q' =>
    simp only [Kernel.last, Kernel.setQueue, Function.update_apply, Obj.queue.injEq]
    split_ifs <;> rfl

end Fields

theorem semEnqueue_counts (c : Sched) (m : Semaphore) :
    (semEnqueue c m).2.currentCount = m.currentCount ∧ (semEnqueue c m).2.maxCount = m.maxCount := by
  unfold semEnqueue
  split_ifs <;> exact ⟨rfl, rfl⟩

theorem amountWaiting_queueEnqueue (c : Sched) (q : Queue) :
    (queueEnqueue c q).2.amountWaiting = u64 (q.amountWaiting + 1) := by
  unfold queueEnqueue
  dsimp only
  split_ifs <;> rfl

/-- **The critical section of `acquire_semaphore`.** -/
theorem SyncInv.body_acquire (h : SyncInv k R W) (hpc : k.pc k.cur = .call .body (.acquire s))
    (hs : k.body (.acquire s) = some k') : ∃ R' W', SyncInv k' R' W' ∧ Effect k k' .run W W' := by
  have hok := h.core.cur_ok
  rw [hpc] at hok
  have hr : k.sched.state k.cur = .running := hok.2.2.1 (Or.inl ⟨s, rfl⟩)
  simp only [Kernel.body] at hs
  split_ifs at hs with hc
  · -- all of it is taken: the task gets on the list
    obtain rfl := Option.some.inj hs
    refine ⟨R, _, JoinStep.inv h ?_, .join (.sem s) rfl (fun o' => Function.update_apply _ _ _ _)
      fun q => (if_neg (by simp)).symm⟩
    refine ⟨hpc, hr, ?_, fun o' ho => ?_, fun o' ho => ?_, fun o' => Function.update_apply _ _ _ _,
      fun t => Function.update_apply _ _ _ _, fun s' => ?_, fun s' => ?_, rfl, rfl, rfl, rfl⟩
    · simp only [first_setPc, first_join, first_setSem, last_setPc, last_join, last_setSem, if_true]
      exact h.semEnqueue s
    · simp only [first_setPc, first_join, first_setSem, if_neg ho]
    · simp only [last_setPc, last_join, last_setSem, if_neg ho]
    · simp only [Kernel.setPc, Kernel.join, Kernel.setSem, Function.update_apply]
      split_ifs with hss
      · rw [hss]; exact (semEnqueue_counts _ _).1
      · rfl
    · simp only [Kernel.setPc, Kernel.join, Kernel.setSem, Function.update_apply]
      split_ifs with hss
      · rw [hss]; exact (semEnqueue_counts _ _).2
      · rfl
  · -- the count goes up, and the lists stay
    obtain rfl := Option.some.inj hs
    refine ⟨R, W, h.acquired ⟨hpc, rfl, fun o => ?_, fun o => ?_, rfl, fun t => Function.update_apply _ _ _ _,
      rfl, rfl⟩ (by omega) rfl rfl rfl, .same rfl rfl fun _ => rfl⟩
    · simp only [first_setPc, first_grant, first_setSem]
      split_ifs with ho
      · rw [ho, (setCount_fields _ _).2.2.1, Kernel.first]
      · rfl
    · simp only [last_setPc, last_grant, last_setSem]
      split_ifs with ho
      · rw [ho, (setCount_fields _ _).2.2.2, Kernel.last]
      · rfl

/-- **The critical section of `wait_queue`.** -/
theorem SyncInv.body_wait (h : SyncInv k R W) (hpc : k.pc k.cur = .call .body (.wait q))
    (hs : k.body (.wait q) = some k') : ∃ R' W', SyncInv k' R' W' ∧ Effect k k' .run W W' := by
  have hok := h.core.cur_ok
  rw [hpc] at hok
  have hr : k.sched.state k.cur = .running := hok.2.2.1 (Or.inr ⟨q, rfl⟩)
  have hcw := h.not_waiting (fun c => by rw [hpc]; simp) hr
  obtain rfl := Option.some.inj hs
  refine ⟨R, _, JoinStep.inv h ?_, .join (.queue q) rfl (fun o' => Function.update_apply _ _ _ _) fun q' => ?_⟩
  · refine ⟨hpc, hr, ?_, fun o' ho => ?_, fun o' ho => ?_, fun o' => Function.update_apply _ _ _ _,
      fun t => Function.update_apply _ _ _ _, fun s' => rfl, fun s' => rfl, rfl, rfl, rfl, rfl⟩
    · simp only [first_setPc, first_join, first_setQueue, last_setPc, last_join, last_setQueue, if_true]
      exact h.queueEnqueue (hcw _)
    · simp only [first_setPc, first_join, first_setQueue, if_neg ho]
    · simp only [last_setPc, last_join, last_setQueue, if_neg ho]
  · simp only [Kernel.setPc, Kernel.join, Kernel.setQueue, Function.update_apply, Obj.queue.injEq]
    split_ifs with hq
    · rw [hq, amountWaiting_queueEnqueue]
    · rfl

/-- The first task of a list that is not empty: it is blocked, and waits. -/
theorem SyncInv.first_waits (h : SyncInv k R W) (hf : k.first o ≠ NULL) :
    ∃ L, W o = k.first o :: L ∧ k.first o ∈ k.waiting o := by
  obtain ⟨e, he⟩ := h.lists.list o
  cases hW : W o with
  | nil => exact absurd (he.first_eq_null_iff.2 hW) hf
  | cons a L =>
    have ha : k.first o = a := by rw [he.first_eq, hW]; rfl
    rw [ha]
    exact ⟨L, rfl, h.lists.sub o a (by rw [hW]; simp)⟩

/-- After `unblock_task` the link of the task is `NULL`. -/
theorem SyncInv.next_unblock (h : SyncInv k R W) {f : ℕ} (hb : ∀ c, k.pc k.cur ≠ .call .block c)
    (hf : f ∈ k.waiting o) (hne : f ≠ k.cur) : (unblockTask k.sched f).next f = NULL :=
  (h.core.sched.unblock (h.lists.mem o f hf) (h.blocked_of_waiting hb hf) hne).next

/-- `release_semaphore` reads `next` of the task that it has just made ready: it is `NULL`. -/
theorem semHandOver_eq {c : Sched} {m : Semaphore}
    (hn : (unblockTask c m.firstWaitingTask).next m.firstWaitingTask = NULL) :
    semHandOver c m = (unblockTask c m.firstWaitingTask,
      { m with firstWaitingTask := NULL, lastWaitingTask := NULL }) := by
  unfold semHandOver
  dsimp only
  rw [hn, if_pos rfl]

/-- **The critical section of `release_semaphore`.** -/
theorem SyncInv.body_release (h : SyncInv k R W) (hpc : k.pc k.cur = .call .body (.release s))
    (hs : k.body (.release s) = some k') : ∃ R' W', SyncInv k' R' W' ∧ Effect k k' .run W W' := by
  have hb : ∀ c, k.pc k.cur ≠ .call .block c := fun c => by rw [hpc]; simp
  simp only [Kernel.body] at hs
  split_ifs at hs with hf
  · -- nobody is on the list: the count goes down
    obtain rfl := Option.some.inj hs
    refine ⟨R, W, h.released ⟨hpc, rfl, fun o => ?_, fun o => ?_, rfl, fun t => Function.update_apply _ _ _ _,
      rfl, rfl⟩ rfl rfl rfl, .same rfl rfl fun _ => rfl⟩
    · simp only [first_setPc, first_giveUp, first_setSem]
      split_ifs with ho
      · rw [ho, (setCount_fields _ _).2.2.1, Kernel.first]
      · rfl
    · simp only [last_setPc, last_giveUp, last_setSem]
      split_ifs with ho
      · rw [ho, (setCount_fields _ _).2.2.2, Kernel.last]
      · rfl
  · -- the first task of the list is woken, and the code's read of its link finds `NULL`
    obtain rfl := Option.some.inj hs
    obtain ⟨L, hL, hw⟩ := h.first_waits (o := .sem s) hf
    have hL' : W (.sem s) = (k.sem s).firstWaitingTask :: L := hL
    have hw' : (k.sem s).firstWaitingTask ∈ k.waiting (.sem s) := hw
    generalize hfd : (k.sem s).firstWaitingTask = f at *
    -- a task that waits is in `acquire_semaphore`, and the current one is not
    have hne : f ≠ k.cur := by
      rintro rfl
      obtain ⟨g, hg, hg'⟩ := (h.sems.wait s _ hw').2
      rw [hpc] at hg'
      cases hg'
    have hnext : (unblockTask k.sched f).next f = NULL := h.next_unblock hb hw' hne
    have hho : semHandOver k.sched (k.sem s) =
        (unblockTask k.sched f, { k.sem s with firstWaitingTask := NULL, lastWaitingTask := NULL }) := by
      rw [semHandOver_eq (by rw [hfd]; exact hnext), hfd]
    refine ⟨_, _, h.handedOver (f := f) ?_ (fun s' => ?_) ?_ rfl, .wake (.sem s) f L rfl hpc hL' hfd.symm rfl
      (fun o' => Function.update_apply _ _ _ _) fun q => (if_neg (by simp)).symm⟩
    · rw [hho]
      refine ⟨hpc, hw', hne, rfl, ?_, fun o' ho => ?_, fun o' ho => ?_,
        fun o' => Function.update_apply _ _ _ _, fun t => Function.update_apply _ _ _ _, rfl, rfl⟩
      · simp only [first_setPc, first_leave, first_grant, first_giveUp, first_setSem, last_setPc, last_leave,
          last_grant, last_giveUp, last_setSem, if_true, and_self]
      · simp only [first_setPc, first_leave, first_grant, first_giveUp, first_setSem, if_neg ho]
      · simp only [last_setPc, last_leave, last_grant, last_giveUp, last_setSem, if_neg ho]
    · rw [hho]
      simp only [Kernel.setPc, Kernel.leave, Kernel.grant, Kernel.giveUp, Kernel.setSem,
        Function.update_apply]
      split_ifs with hss
      · rw [hss]; exact ⟨rfl, rfl⟩
      · exact ⟨rfl, rfl⟩
    · rw [hho]
      simp only [Kernel.setPc, Kernel.leave, Kernel.grant, Kernel.giveUp, Kernel.setSem,
        Function.update_self, Function.update_idem]

theorem queueWake_eq {c : Sched} {q : Queue} (hf : q.firstTask ≠ NULL)
    (hn : (unblockTask c q.firstTask).next q.firstTask = NULL) :
    queueWake c q = (unblockTask c q.firstTask, ⟨sub64 q.amountWaiting 1, NULL, NULL⟩) := by
  unfold queueWake
  rw [if_pos hf]
  dsimp only
  rw [hn, if_pos rfl]

/-- The stages after the test of `acquire_semaphore` may follow each other. -/
theorem SyncInv.moveOk_stage (h : SyncInv k R W) {g g' : Stage} {c : Call} (hpc : k.pc k.cur = .call g c)
    (hg : g.Decided) (hg' : g'.Decided) : MoveOk k (.call g' c) := by
  refine ⟨fun s hs => ?_, fun s hs => ?_, fun s hs => ?_, fun s hs => ?_, fun q hq => ?_⟩
  · obtain ⟨g₁, -, h1⟩ := (h.sems.wait s _ hs).2
    rw [hpc] at h1
    cases h1
    exact ⟨g', hg', rfl⟩
  · obtain ⟨g₁, -, h1⟩ := hs
    cases h1
    exact ⟨g, hg, hpc⟩
  · cases hs; exact absurd rfl hg'.2
  · cases hs; exact absurd rfl hg'.2
  · rcases hq with hq | hq
    · cases hq; exact absurd rfl hg'.1
    · cases hq; exact absurd rfl hg'.2

/-- **The critical section of `signal_queue`.** -/
theorem SyncInv.body_signal (h : SyncInv k R W) (hpc : k.pc k.cur = .call .body (.signal q))
    (hs : k.body (.signal q) = some k') : ∃ R' W', SyncInv k' R' W' ∧ Effect k k' .run W W' := by
  have hb : ∀ c, k.pc k.cur ≠ .call .block c := fun c => by rw [hpc]; simp
  obtain rfl := Option.some.inj hs
  by_cases hf : (k.queue q).firstTask = NULL
  · -- nobody is on the list
    have hk' : ((k.setQueue q (queueWake k.sched (k.queue q))).leave (.queue q)
        (k.queue q).firstTask).setPc k.cur (.call .unlock (.signal q)) =
        k.setPc k.cur (.call .unlock (.signal q)) := by
      have hnull : NULL ∉ k.waiting (.queue q) :=
        fun hw => h.core.sched.null_notMem (h.lists.mem _ _ hw)
      have hq : queueWake k.sched (k.queue q) = (k.sched, k.queue q) := by
        unfold queueWake
        rw [if_neg (by simpa using hf)]
      rw [hq, hf]
      simp only [Kernel.setQueue, Kernel.leave, List.erase_of_not_mem hnull, Function.update_eq_self]
    rw [hk']
    have hok := h.core.cur_ok
    rw [hpc] at hok
    refine ⟨R, W, h.move (l := k.sched.taskSwitchLock) (n := k.sched.taskSwitchPostponed)
      (p := .call .unlock (.signal q)) ⟨hok.1, hok.2.1, hok.2.2.2⟩ (h.core.cur_ne_idle (by rw [hpc]; simp)) hb
      ?_, .same rfl rfl fun _ => rfl⟩
    refine ⟨fun s hs => ?_, fun s hs => ?_, fun s hs => (by cases hs), fun s hs => (by cases hs), ?_⟩
    · obtain ⟨g, -, hg⟩ := (h.sems.wait s _ hs).2
      rw [hpc] at hg
      cases hg
    · obtain ⟨g, -, hg⟩ := hs
      cases hg
    · rintro q' (hq | hq) <;> cases hq
  · -- the first task is woken, and the rest of the list is lost
    obtain ⟨L, hL, hw⟩ := h.first_waits (o := .queue q) hf
    have hL' : W (.queue q) = (k.queue q).firstTask :: L := hL
    have hw' : (k.queue q).firstTask ∈ k.waiting (.queue q) := hw
    have hne : (k.queue q).firstTask ≠ k.cur := by
      intro he
      exact h.sigs q k.cur (Or.inr hpc) (he ▸ hw')
    rw [queueWake_eq hf (h.next_unblock hb hw' hne)]
    refine ⟨_, _, h.signalled (q := q) (f := (k.queue q).firstTask) ?_ rfl rfl rfl,
      .wake (.queue q) (k.queue q).firstTask L rfl hpc hL' rfl rfl
        (fun o' => Function.update_apply _ _ _ _) fun q' => ?_⟩
    · refine ⟨hpc, hw', hne, rfl, ?_, fun o' ho => ?_, fun o' ho => ?_,
        fun o' => Function.update_apply _ _ _ _, fun t => Function.update_apply _ _ _ _, rfl, rfl⟩
      · simp only [first_setPc, first_leave, first_setQueue, last_setPc, last_leave, last_setQueue, if_true,
          and_self]
      · simp only [first_setPc, first_leave, first_setQueue, if_neg ho]
      · simp only [last_setPc, last_leave, last_setQueue, if_neg ho]
    · simp only [Kernel.setPc, Kernel.leave, Kernel.setQueue, Function.update_apply, Obj.queue.injEq]
      split_ifs with hq
      · rw [hq]
      · rfl

/-! ## All steps -/

/-- **The current task goes on.** -/
theorem SyncInv.advance (h : SyncInv k R W) (hs : k.advance (k.pc k.cur) = some k') :
    ∃ R' W', SyncInv k' R' W' ∧ Effect k k' .run W W' := by
  cases hpc : k.pc k.cur with
  | user => rw [hpc] at hs; cases hs
  | call g c =>
    rw [hpc] at hs
    have hidle : k.cur ≠ k.idle := h.core.cur_ne_idle (by rw [hpc]; simp)
    have hok := h.core.cur_ok
    rw [hpc] at hok
    cases g with
    | lock =>
      -- only `signal_queue` takes the lock in a step of its own
      cases c with
      | signal q =>
        obtain rfl := Option.some.inj hs
        refine ⟨R, W, h.move (p := .call .body (.signal q)) ⟨Nat.succ_pos _, fun ha => ?_, fun ha => ?_,
          fun hst => (hok hst).2⟩ hidle (fun c => by rw [hpc]; simp) ?_, .same rfl rfl fun _ => rfl⟩
        · obtain ⟨s', hs'⟩ := ha; cases hs'
        · rcases ha with ⟨s', hs'⟩ | ⟨q', hq'⟩
          · cases hs'
          · cases hq'
        · refine ⟨fun s hs => ?_, fun s hs => ?_, fun s hs => (by cases hs), fun s hs => (by cases hs), ?_⟩
          · obtain ⟨g, -, hg⟩ := (h.sems.wait s _ hs).2
            rw [hpc] at hg
            cases hg
          · obtain ⟨g, -, hg⟩ := hs
            cases hg
          · rintro q' (hq | hq) <;> cases hq
            exact h.sigs q k.cur (Or.inl hpc)
      | acquire s => cases hs
      | release s => cases hs
      | wait q => cases hs
      | unlock => cases hs
    | body =>
      cases c with
      | acquire s => exact h.body_acquire hpc hs
      | release s => exact h.body_release hpc hs
      | wait q => exact h.body_wait hpc hs
      | signal q => exact h.body_signal hpc hs
      | unlock => cases hs
    | block =>
      obtain rfl := Option.some.inj hs
      exact ⟨R, W, h.block hpc, .same rfl rfl fun _ => rfl⟩
    | unlock =>
      have hl : k.sched.taskSwitchLock ≠ 0 := Nat.pos_iff_ne_zero.1 hok.1
      simp only [Kernel.advance, if_neg hl] at hs
      obtain rfl := Option.some.inj hs
      refine ⟨R, W, h.move (p := .call .test c) ⟨fun ha => by rw [hok.2.1 ha], hok.2.2⟩ hidle
        (fun c => by rw [hpc]; simp) (h.moveOk_stage hpc ⟨by simp, by simp⟩ ⟨by simp, by simp⟩),
        .same rfl rfl fun _ => rfl⟩
    | test =>
      simp only [Kernel.advance] at hs
      split_ifs at hs with hl
      · obtain rfl := Option.some.inj hs
        exact ⟨R, W, h.move (l := k.sched.taskSwitchLock) (n := k.sched.taskSwitchPostponed)
          (p := .call .reset c) hl.1 hidle (fun c => by rw [hpc]; simp)
          (h.moveOk_stage hpc ⟨by simp, by simp⟩ ⟨by simp, by simp⟩), .same rfl rfl fun _ => rfl⟩
      · -- a blocked task has a switch postponed, so that it does not get past the test unlocked
        obtain rfl := Option.some.inj hs
        refine ⟨R, W, h.move (l := k.sched.taskSwitchLock) (n := k.sched.taskSwitchPostponed)
          (p := .call .ret c) ⟨hok.1, fun hst => ?_⟩ hidle (fun c => by rw [hpc]; simp)
          (h.moveOk_stage hpc ⟨by simp, by simp⟩ ⟨by simp, by simp⟩), .same rfl rfl fun _ => rfl⟩
        have := hok.2 hst
        omega
    | reset =>
      obtain rfl := Option.some.inj hs
      exact ⟨R, W, h.move (l := k.sched.taskSwitchLock) (n := 0) (p := .call .yield c) hok hidle
        (fun c => by rw [hpc]; simp) (h.moveOk_stage hpc ⟨by simp, by simp⟩ ⟨by simp, by simp⟩),
        .same rfl rfl fun _ => rfl⟩
    | yield =>
      -- the call goes on after `yield` when the task runs again
      obtain rfl := Option.some.inj hs
      rw [unlock_yield_lock]
      have hnl : ¬ (Pc.call .ret c).Locked := by
        rintro ⟨g, c, hg, hl | hl | hl⟩ <;> cases hg <;> cases hl
      obtain ⟨R', h'⟩ := h.switch hok hnl (fun hi => absurd hi hidle)
        (h.moveOk_stage hpc ⟨by simp, by simp⟩ ⟨by simp, by simp⟩)
      exact ⟨R', W, h', .same rfl rfl fun _ => rfl⟩
    | ret =>
      obtain rfl := Option.some.inj hs
      refine ⟨R, W, h.move (l := k.sched.taskSwitchLock) (n := k.sched.taskSwitchPostponed) (p := .user)
        hok.2 hidle (fun c => by rw [hpc]; simp) ⟨fun s hw => ?_, fun s hs => ?_, fun s hs => (by cases hs),
        fun s hs => (by cases hs), ?_⟩, .same rfl rfl fun _ => rfl⟩
      · -- a task that returns is not blocked, so that it does not wait
        obtain ⟨g, -, hg⟩ := (h.sems.wait s _ hw).2
        rw [hpc] at hg
        cases hg
        have h0 : k.sched.taskSwitchLock = 0 := hok.1 ⟨s, rfl⟩
        have := (hok.2 (h.blocked_of_waiting (fun c => by rw [hpc]; simp) hw)).1
        omega
      · obtain ⟨g, -, hg⟩ := hs
        cases hg
      · rintro q' (hq | hq) <;> cases hq

/-- The idle task's turn and the ticks of the timer. -/
theorem SyncInv.ticks (h : SyncInv k R W) {s' : Sched} (ht : SameButTicks k.sched s') :
    SyncInv { k with sched := s' } R W :=
  h.quiet (h.core.sched.ticks ht) ht.current ht.schedLock ht.taskSwitchLock (le_of_eq ht.postponed.symm)
    (ht.state _) (fun _ hx => hx) h.core.addr fun _ t _ => ⟨ht.next t, ht.state t⟩

/-- **The timer.** -/
theorem SyncInv.timer (h : SyncInv k R W) :
    ∃ R', SyncInv { k with sched := schedulerIrq0 k.sched } R' W := by
  obtain ⟨s₁, h1, h2 | ⟨-, h2⟩⟩ := schedulerIrq0_cases k.sched
  · rw [h2]
    exact ⟨R, h.ticks h1⟩
  · rw [h2]
    have h' := h.ticks h1
    by_cases hl : s₁.taskSwitchLock = 0
    · -- the timer may switch: the task is in no critical section
      have hnl : ¬ (k.pc s₁.currentTask).Locked := by
        have hok : CurOk s₁.taskSwitchLock s₁.taskSwitchPostponed (s₁.state s₁.currentTask)
          (k.pc s₁.currentTask) := h'.core.cur_ok
        rw [hl] at hok
        exact hok.not_locked
      have hidle : s₁.currentTask = k.idle → k.pc s₁.currentTask = .user := by
        intro hi
        rw [hi]
        exact h.core.idle_user
      obtain ⟨R', hR⟩ := h'.switch hl hnl hidle h'.moveOk_self
      have hself : Function.update k.pc s₁.currentTask (k.pc s₁.currentTask) = k.pc :=
        Function.update_eq_self _ _
      have hR' : SyncInv { k with
        sched := Nettapus.yield s₁
        pc := Function.update k.pc s₁.currentTask (k.pc s₁.currentTask) } R' W := hR
      rw [hself] at hR'
      exact ⟨R', hR'⟩
    · -- the switch is postponed
      refine ⟨R, ?_⟩
      unfold Nettapus.yield
      rw [if_pos hl]
      exact h'.quiet (h'.core.sched.congr rfl rfl rfl (fun _ => rfl) fun _ _ => rfl) rfl rfl rfl
        (Nat.le_succ _) rfl (fun _ hx => hx) h.core.addr fun _ _ _ => ⟨rfl, rfl⟩

/-- **Every step keeps the invariant.** -/
theorem SyncInv.step (h : SyncInv k R W) (hs : k.step e = some k') :
    ∃ R' W', SyncInv k' R' W' ∧ Effect k k' e W W' := by
  cases e with
  | call c =>
    simp only [Kernel.step] at hs
    split_ifs at hs with hg
    obtain ⟨h1, h2, h3⟩ := h.enter hg.1 hg.2 hs
    exact ⟨R, W, h1, .same rfl h2 fun q => by rw [h3]⟩
  | lock =>
    simp only [Kernel.step] at hs
    split_ifs at hs with hg
    obtain rfl := Option.some.inj hs
    have hok := h.core.cur_ok
    rw [hg.2] at hok
    have hself : Function.update k.pc k.cur .user = k.pc := by
      rw [← hg.2]; exact Function.update_eq_self _ _
    have hm : MoveOk k .user := hg.2 ▸ h.moveOk_self
    have h' := h.move (l := k.sched.taskSwitchLock + 1) (n := k.sched.taskSwitchPostponed) (p := .user)
      (fun hst => ⟨Nat.succ_pos _, (hok hst).2⟩) hg.1 (fun c => by rw [hg.2]; simp) hm
    rw [hself] at h'
    exact ⟨R, W, h', .same rfl rfl fun _ => rfl⟩
  | run =>
    exact h.advance hs
  | timer =>
    obtain rfl := Option.some.inj hs
    obtain ⟨R', h'⟩ := h.timer
    exact ⟨R', W, h', .same rfl rfl fun _ => rfl⟩
  | idle =>
    simp only [Kernel.step] at hs
    split_ifs at hs with hg
    obtain rfl := Option.some.inj hs
    exact ⟨R, W, h.ticks (sameButTicks_modify k.sched k.sched.currentTask fun _ => 1),
      .same rfl rfl fun _ => rfl⟩
  | create main t q ring =>
    simp only [Kernel.step] at hs
    split_ifs at hs with hg
    obtain rfl := Option.some.inj hs
    obtain ⟨hpc, hm, h0, hlt, ht⟩ := hg
    have hc := createTask_created k.sched q ring hm h0
    -- the new task is not one of those there are, so that their lists stay
    have hne : ∀ u ∈ k.tasks, u ≠ t := fun u hu he => ht (he ▸ hu)
    have htask : ∀ u ∈ k.tasks, (createTask k.sched main t q ring).2.task u = k.sched.task u :=
      fun u hu => hc.other u (hne u hu)
    refine ⟨_, W, h.quiet (h.core.sched.create hc ht h0) hc.current hc.schedLock hc.taskSwitchLock
      (le_of_eq hc.postponed.symm) ?_ (fun _ hx => List.mem_cons_of_mem _ hx) ?_ fun o u hu => ?_,
      .same rfl rfl fun _ => rfl⟩
    · rw [state, htask _ h.core.cur_mem]; rfl
    · intro u hu
      rcases List.mem_cons.1 hu with rfl | hu
      · exact hlt
      · exact h.core.addr u hu
    · rw [next, state, htask u (h.lists.mem o u hu)]
      exact ⟨rfl, rfl⟩
  | copy t nt q =>
    simp only [Kernel.step] at hs
    split_ifs at hs with hg
    obtain rfl := Option.some.inj hs
    obtain ⟨hpc, ht, h0, hlt, hnt⟩ := hg
    have hb : ∀ c, k.pc k.cur ≠ .call .block c := fun c => by rw [hpc]; simp
    have hc := h.core.sched.copy q (h.core.sched.ne_null ht) hnt h0
    have hne : ∀ u ∈ k.tasks, u ≠ nt := fun u hu he => hnt (he ▸ hu)
    refine ⟨_, W, h.quiet hc.inv hc.current hc.schedLock hc.taskSwitchLock
      (le_of_eq hc.postponed.symm) ?_ (fun _ hx => List.mem_cons_of_mem _ hx) ?_ fun o u hu => ?_,
      .same rfl rfl fun _ => rfl⟩
    · rw [hc.state, if_neg (hne _ h.core.cur_mem)]
    · intro u hu
      rcases List.mem_cons.1 hu with rfl | hu
      · exact hlt
      · exact h.core.addr u hu
    · rw [next, state, hc.blocked u (hne u (h.lists.mem o u hu)) (h.blocked_of_waiting hb hu)]
      exact ⟨rfl, rfl⟩

end Nettapus
