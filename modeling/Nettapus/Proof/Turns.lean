import Nettapus.Proof.Semaphore

/-!
# Turns of the processor

The ready list as a queue, in the machine of `Code/Sync.lean` with its locks and its timer.

* `Turn`, `SyncInv.turn`: what a step does to the ready list: tasks are put at the end, `create_task` puts
  one in front, and a switch takes the first one and gives it a full time slice.
* `waits_run`: along a run the tasks ahead of a waiting task are used up.
* `ready_task_runs`: **no ready task starves.** It runs before the timer has found the task switches unlocked
  more often than the slices of the tasks ahead of it have ticks, and of those that `create_task` puts there.
-/

namespace Nettapus

open Links Sched Runs

variable {k k' : Kernel} {e : Event} {es : List Event} {t : ℕ} {R R' A B : List ℕ} {W : Obj → List ℕ} {m : ℕ → ℕ}

/-! ## Time slices -/

/-- `t->ticks_remaining`. -/
def Sched.ticks (s : Sched) (t : ℕ) : ℕ := (s.task t).ticksRemaining

/-- The ticks of the timer until the current task is switched from: with none left, the next one does it. -/
def Kernel.slice (k : Kernel) : ℕ := max 1 (k.sched.ticks k.cur)

theorem ticks_setNext (s : Sched) (t n u : ℕ) : (s.setNext t n).ticks u = s.ticks u := by
  unfold Sched.ticks Sched.setNext
  rw [task_modify]
  split_ifs with h
  · rw [h]
  · rfl

theorem ticks_setState (s : Sched) (t : ℕ) (st : TaskState) (u : ℕ) : (s.setState t st).ticks u = s.ticks u := by
  unfold Sched.ticks Sched.setState
  rw [task_modify]
  split_ifs with h
  · rw [h]
  · rfl

theorem ticks_pushTask (s : Sched) (t u : ℕ) : (pushTask s t).ticks u = s.ticks u := ticks_setNext s s.lastTask t u

theorem ticks_unblockTask (s : Sched) (t u : ℕ) : (unblockTask s t).ticks u = s.ticks u := by
  have h : ∀ r : Sched, (∀ u, r.ticks u = s.ticks u) →
      (unlockScheduler (if r.lastTask = NULL then { r with firstTask := t, lastTask := t } else pushTask r t)).ticks u =
        s.ticks u := by
    intro r hr
    rw [unlockScheduler_eq]
    split_ifs
    · exact hr u
    · exact (ticks_pushTask r t u).trans (hr u)
  exact h _ fun u => (ticks_setNext _ _ _ _).trans (ticks_setState _ _ _ _)

theorem ticks_semEnqueue (s : Sched) (m : Semaphore) (u : ℕ) : (semEnqueue s m).1.ticks u = s.ticks u := by
  unfold semEnqueue
  split_ifs
  · rfl
  · exact ticks_setNext _ _ _ _

theorem ticks_queueEnqueue (s : Sched) (q : Queue) (u : ℕ) : (queueEnqueue s q).1.ticks u = s.ticks u := by
  unfold queueEnqueue
  dsimp only
  split_ifs
  · exact ticks_setNext _ _ _ _
  · exact (ticks_setNext _ _ _ _).trans (ticks_setNext _ _ _ _)

/-- A copied task leaves the time of the others alone. -/
theorem ticks_copyTask (s : Sched) {t nt u : ℕ} (q : ℕ) (hu : u ≠ nt) : (copyTask s t nt q).2.ticks u = s.ticks u := by
  have h : ∀ r : Sched, r.ticks u = s.ticks u →
      (unlockScheduler (if r.firstTask = NULL then { r with firstTask := nt, lastTask := nt } else pushTask r nt)).ticks u =
        s.ticks u := by
    intro r hr
    rw [unlockScheduler_eq]
    split_ifs
    · exact hr
    · exact (ticks_pushTask r nt u).trans hr
  unfold copyTask
  split_ifs
  · rfl
  · rfl
  · exact h _ (by simp [Sched.ticks, task_modify, lockScheduler, hu])

/-- A task that is switched to has a full slice. -/
theorem ticks_popTask (s : Sched) : (popTask s).ticks (popTask s).currentTask = TASK_DEFAULT_TIME := by
  have h : (popTask s).currentTask = s.firstTask := by rw [popTask_eq]
  unfold Sched.ticks
  rw [h, task_popTask, if_pos rfl]
  rfl

/-! ## Steps -/

def Event.isCreate : Event → Bool
  | .create .. => true
  | _ => false

/-- The timer fires, and no task holds off the switches. -/
def Free (k : Kernel) (e : Event) : Prop := e = .timer ∧ k.sched.taskSwitchLock = 0

instance (k : Kernel) (e : Event) : Decidable (Free k e) := inferInstanceAs (Decidable (_ ∧ _))

/-- **What a step does to the ready list** `R`. -/
inductive Turn (k k' : Kernel) (e : Event) (R R' : List ℕ) : Prop
  /-- The current task goes on, and tasks may have come to the end of the list. -/
  | stays (L : List ℕ) (hc : k'.cur = k.cur) (hR : R' = R ++ L) (hs : k'.slice ≤ k.slice)
      (ht : Free k e → R ≠ [] → k'.slice + 1 ≤ k.slice)
  /-- `create_task` puts the new task in front. -/
  | front (t : ℕ) (he : e.isCreate = true) (hc : k'.cur = k.cur) (hR : R' = t :: R) (hs : k'.slice ≤ k.slice)
  /-- The first task becomes the current one. -/
  | switch (a : ℕ) (L X : List ℕ) (he : e.isCreate = false) (hR : R = a :: L) (hc : k'.cur = a) (hR' : R' = L ++ X)
      (hs : k'.slice = TASK_DEFAULT_TIME)

/-- A step after which the list is as it was, or longer. -/
theorem Turn.still (he : e ≠ .timer) (L : List ℕ) (hc : k'.cur = k.cur)
    (ht : k'.sched.ticks k.cur = k.sched.ticks k.cur) : Turn k k' e R (R ++ L) := by
  have hs : k'.slice = k.slice := by
    unfold Kernel.slice
    rw [hc, ht]
  exact .stays L hc rfl hs.le fun hf => absurd hf.1 he

theorem Turn.same (he : e ≠ .timer) (hc : k'.cur = k.cur) (ht : k'.sched.ticks k.cur = k.sched.ticks k.cur) :
    Turn k k' e R R := by
  have h := Turn.still (R := R) he [] hc ht
  rwa [List.append_nil] at h

/-- **The start of a call** only counts locks. -/
theorem CoreInv.turn_enter (h : CoreInv k R) {c : Call} (hs : k.enter c = some k') :
    Ready k'.sched R ∧ Turn k k' (.call c) R R := by
  have hr := h.sched.ready
  cases c <;> simp only [Kernel.enter] at hs <;> split_ifs at hs <;> obtain rfl := Option.some.inj hs
  all_goals exact ⟨hr.congr rfl rfl fun _ _ => rfl, .same (by simp) rfl rfl⟩

/-- **The critical sections**: what is put on a waiting list leaves the ready list alone, and who is woken comes to
its end. -/
theorem SyncInv.turn_body (h : SyncInv k R W) {c : Call} (hpc : k.pc k.cur = .call .body c)
    (hs : k.body c = some k') : ∃ R', Ready k'.sched R' ∧ Turn k k' .run R R' := by
  have hok := h.core.cur_ok
  rw [hpc] at hok
  have hr := h.core.sched.ready
  have hb : ∀ c, k.pc k.cur ≠ .call .block c := fun c => by rw [hpc]; simp
  -- the links that change are those of the current task and of a waiting one
  have hjoin : ∀ {o s' f l}, Joined k W o s' f l → Ready s' R := by
    intro o s' f l hj
    refine hr.congr hj.first hj.last fun u hu => hj.next u (fun hc => ?_) ?_
    · exact h.core.sched.current_notMem (show k.cur ∈ R from hc ▸ hu)
    · by_cases hne : W o = []
      · exact Or.inr hne
      · obtain ⟨e, he⟩ := h.lists.list o
        refine Or.inl fun hc => h.core.sched.blocked_notMem ?_ hu
        exact h.blocked_of_waiting hb (h.lists.sub o u (hc ▸ he.last_mem hne))
  have hwake : ∀ {o f}, f ∈ k.waiting o → f ≠ k.cur → Appended k.sched (unblockTask k.sched f) k.idle f k.tasks (R ++ [f]) :=
    fun hf hne => h.core.sched.unblock (h.lists.mem _ _ hf) (h.blocked_of_waiting hb hf) hne
  cases c with
  | acquire s =>
    simp only [Kernel.body] at hs
    split_ifs at hs <;> obtain rfl := Option.some.inj hs
    · exact ⟨R, hjoin (h.semEnqueue s), .same (by simp) (h.semEnqueue s).current (ticks_semEnqueue _ _ _)⟩
    · exact ⟨R, hr, .same (by simp) rfl rfl⟩
  | wait q =>
    obtain rfl := Option.some.inj hs
    have hrun : k.sched.state k.cur = .running := hok.2.2.1 (Or.inr ⟨q, rfl⟩)
    have hj := h.queueEnqueue (q := q) (h.not_waiting hb hrun _)
    exact ⟨R, hjoin hj, .same (by simp) hj.current (ticks_queueEnqueue _ _ _)⟩
  | release s =>
    simp only [Kernel.body] at hs
    split_ifs at hs with hf <;> obtain rfl := Option.some.inj hs
    · exact ⟨R, hr, .same (by simp) rfl rfl⟩
    · obtain ⟨L, -, hw⟩ := h.first_waits (o := .sem s) hf
      have hne : (k.sem s).firstWaitingTask ≠ k.cur := by
        intro he
        obtain ⟨g, -, hg⟩ := (h.sems.wait s _ hw).2
        rw [show k.first (.sem s) = k.cur from he, hpc] at hg
        cases hg
      have ha := hwake hw hne
      exact ⟨_, ha.inv.ready, .still (by simp) _ ha.current (ticks_unblockTask _ _ _)⟩
  | signal q =>
    obtain rfl := Option.some.inj hs
    by_cases hf : (k.queue q).firstTask = NULL
    · have hq : queueWake k.sched (k.queue q) = (k.sched, k.queue q) := if_neg (by simpa using hf)
      refine ⟨R, ?_, .same (by simp) ?_ ?_⟩ <;> simp only [Kernel.setPc, Kernel.leave, Kernel.setQueue, Kernel.cur, hq]
      exact hr
    · obtain ⟨L, -, hw⟩ := h.first_waits (o := .queue q) hf
      have hw' : (k.queue q).firstTask ∈ k.waiting (.queue q) := hw
      have hne : (k.queue q).firstTask ≠ k.cur := fun he => h.sigs q k.cur (Or.inr hpc) (he ▸ hw')
      have ha := hwake hw' hne
      have hq := queueWake_eq hf (h.next_unblock hb hw' hne)
      refine ⟨R ++ [(k.queue q).firstTask], ?_, .still (by simp) _ ?_ ?_⟩ <;>
        simp only [Kernel.setPc, Kernel.leave, Kernel.setQueue, Kernel.cur, hq]
      · exact ha.inv.ready
      · exact ha.current
      · exact ticks_unblockTask _ _ _
  | unlock => cases hs

/-- **A switch**, if there is a task to switch to. -/
theorem turn_yield {s : Sched} {idle : ℕ} {T : List ℕ} (hi : SchedInv s idle T R) (h0 : s.taskSwitchLock = 0)
    (hk : k'.sched = yield s) (he : e.isCreate = false) (hc : s.currentTask = k.cur) (hs : s.ticks k.cur ≤ k.sched.ticks k.cur)
    (hR : Free k e → R ≠ []) : ∃ R', Ready k'.sched R' ∧ Turn k k' e R R' := by
  rw [hk]
  cases R with
  | nil =>
    have hy := yield_of_nil hi h0
    rw [hy]
    refine ⟨[], hi.ready, .stays [] ?_ rfl ?_ fun hf => absurd rfl (hR hf)⟩
    · rw [Kernel.cur, hk, hy, hc]
    · unfold Kernel.slice
      rw [Kernel.cur, hk, hy, hc]
      omega
  | cons a L =>
    have hy := hi.yield h0
    refine ⟨_, hy.inv.ready, .switch a L (putBack s) he rfl (by rw [Kernel.cur, hk, hy.current]) rfl ?_⟩
    have hf : s.firstTask ≠ NULL := fun hf => List.cons_ne_nil a L ((Fifo.first_eq_null_iff hi.ready).1 hf)
    have hl : s.lastTask ≠ NULL := fun hl => List.cons_ne_nil a L ((Fifo.last_eq_null_iff hi.ready).1 hl)
    have ht : (yield s).ticks (yield s).currentTask = TASK_DEFAULT_TIME := by
      unfold yield
      rw [if_neg (by simpa using h0), if_neg (by simp [hf, hl])]
      exact ticks_popTask _
    unfold Kernel.slice
    rw [Kernel.cur, hk, ht]
    rfl

/-- **The current task goes on** inside a call. -/
theorem SyncInv.turn_advance (h : SyncInv k R W) (hs : k.advance (k.pc k.cur) = some k') :
    ∃ R', Ready k'.sched R' ∧ Turn k k' .run R R' := by
  have hr := h.core.sched.ready
  cases hpc : k.pc k.cur with
  | user => rw [hpc] at hs; cases hs
  | call g c =>
    have hok := h.core.cur_ok
    rw [hpc] at hs hok
    cases g with
    | body => exact h.turn_body hpc hs
    | lock =>
      cases c with
      | signal q =>
        obtain rfl := Option.some.inj hs
        exact ⟨R, hr.congr rfl rfl fun _ _ => rfl, .same (by simp) rfl rfl⟩
      | acquire | release | wait | unlock => cases hs
    | block =>
      obtain rfl := Option.some.inj hs
      have hl : k.sched.taskSwitchLock ≠ 0 := Nat.pos_iff_ne_zero.1 hok.1
      -- the lock is held, so that the switch is postponed
      refine ⟨R, ?_, .same (by simp) ?_ ?_⟩ <;> simp only [Kernel.cur, blockTask_of_locked hl]
      · exact hr.congr rfl rfl fun u _ => next_setState _ _ _ _
      · rfl
      · exact ticks_setState _ _ _ _
    | yield =>
      obtain rfl := Option.some.inj hs
      exact turn_yield h.core.sched hok (unlock_yield_lock _) rfl rfl le_rfl fun hf => absurd hf.1 (by simp)
    | unlock | test =>
      simp only [Kernel.advance] at hs
      split_ifs at hs <;> obtain rfl := Option.some.inj hs
      all_goals exact ⟨R, hr.congr rfl rfl fun _ _ => rfl, .same (by simp) rfl rfl⟩
    | reset | ret =>
      obtain rfl := Option.some.inj hs
      exact ⟨R, hr.congr rfl rfl fun _ _ => rfl, .same (by simp) rfl rfl⟩

/-- **The timer** takes a tick from the current task, and switches when none is left. -/
theorem schedulerIrq0_ticks {s : Sched} (h0 : s.currentTask ≠ NULL) (hl : s.schedLock = 0) : ∃ s₁, SameButTicks s s₁ ∧
    s₁.ticks s.currentTask = s.ticks s.currentTask - 1 ∧
      (s₁.ticks s.currentTask ≠ 0 ∧ schedulerIrq0 s = s₁ ∨ s₁.ticks s.currentTask = 0 ∧ schedulerIrq0 s = yield s₁) := by
  have hrefl : SameButTicks s s := ⟨rfl, rfl, rfl, fun _ => rfl, fun _ => rfl, rfl, rfl, rfl⟩
  unfold schedulerIrq0
  rw [if_neg h0]
  dsimp only
  generalize hs₁ : (if (s.task s.currentTask).ticksRemaining ≠ 0 then
      unlockScheduler ((lockScheduler s).modify s.currentTask fun k =>
        { k with ticksRemaining := k.ticksRemaining - 1 })
    else s) = s₁
  have h1 : SameButTicks s s₁ ∧ s₁.ticks s.currentTask = s.ticks s.currentTask - 1 := by
    rw [← hs₁]
    split_ifs with ht
    · rw [unlockScheduler_eq]
      refine ⟨sameButTicks_modify s s.currentTask fun k => k.ticksRemaining - 1, ?_⟩
      simp [Sched.ticks, task_modify, lockScheduler]
    · have ht' : s.ticks s.currentTask = 0 := by simpa [Sched.ticks] using ht
      exact ⟨hrefl, by rw [ht']⟩
  refine ⟨s₁, h1.1, h1.2, ?_⟩
  rw [if_neg (by rw [h1.1.schedLock, hl]; simp), h1.1.current]
  split_ifs with ht
  · exact Or.inr ⟨ht, unlock_yield_lock s₁⟩
  · exact Or.inl ⟨ht, rfl⟩

theorem SyncInv.turn_timer (h : SyncInv k R W) : ∃ R', Ready (schedulerIrq0 k.sched) R' ∧
    Turn k { k with sched := schedulerIrq0 k.sched } .timer R R' := by
  have hi := h.core.sched
  obtain ⟨s₁, h1, ht, h2⟩ := schedulerIrq0_ticks (hi.ne_null hi.current_mem) h.core.schedLock
  have hi₁ := hi.ticks h1
  have ht' : s₁.ticks k.cur = k.sched.ticks k.cur - 1 := ht
  rcases h2 with ⟨hne, h2⟩ | ⟨hz, h2⟩
  · -- there is time left
    have hne' : s₁.ticks k.cur ≠ 0 := hne
    have hc : ({ k with sched := s₁ } : Kernel).cur = k.cur := h1.current
    rw [h2]
    refine ⟨R, hi₁.ready, .stays [] hc (List.append_nil R).symm ?_ fun _ _ => ?_⟩ <;> unfold Kernel.slice <;> rw [hc]
    · show max 1 (s₁.ticks k.cur) ≤ _
      omega
    · show max 1 (s₁.ticks k.cur) + 1 ≤ _
      omega
  · have hz' : s₁.ticks k.cur = 0 := hz
    by_cases hl : k.sched.taskSwitchLock = 0
    · -- the slice is at its end: with nobody on the list the current task goes on
      cases R with
      | nil =>
        have hy := yield_of_nil hi₁ (h1.taskSwitchLock.trans hl)
        have hc : ({ k with sched := s₁ } : Kernel).cur = k.cur := h1.current
        rw [h2, hy]
        refine ⟨[], hi₁.ready, .stays [] hc rfl ?_ fun _ hne => absurd rfl hne⟩
        unfold Kernel.slice
        rw [hc]
        show max 1 (s₁.ticks k.cur) ≤ _
        omega
      | cons a L =>
        have hk : ({ k with sched := schedulerIrq0 k.sched } : Kernel).sched = yield s₁ := h2
        exact turn_yield hi₁ (h1.taskSwitchLock.trans hl) hk rfl h1.current (by omega) fun _ => List.cons_ne_nil a L
    · -- the switch is postponed
      have hy : yield s₁ = { s₁ with taskSwitchPostponed := s₁.taskSwitchPostponed + 1 } := by
        unfold yield
        rw [if_pos (by rw [h1.taskSwitchLock]; exact hl)]
      have hc : ({ k with sched := yield s₁ } : Kernel).cur = k.cur := by
        show (yield s₁).currentTask = _
        rw [hy]
        exact h1.current
      rw [h2]
      refine ⟨R, ?_, .stays [] hc (List.append_nil R).symm ?_ fun hf => absurd hf.2 hl⟩
      · rw [hy]
        exact hi₁.ready.congr rfl rfl fun _ _ => rfl
      · unfold Kernel.slice
        rw [hc]
        show max 1 ((yield s₁).ticks k.cur) ≤ _
        rw [hy]
        show max 1 (s₁.ticks k.cur) ≤ _
        omega

/-- **Every step** is a turn. -/
theorem SyncInv.turn (h : SyncInv k R W) (hs : k.step e = some k') :
    ∃ R' W', SyncInv k' R' W' ∧ Turn k k' e R R' := by
  suffices hT : ∃ R', Ready k'.sched R' ∧ Turn k k' e R R' by
    obtain ⟨R₁, W', h', -⟩ := h.step hs
    obtain ⟨R', hr, ht⟩ := hT
    obtain rfl : R₁ = R' := h'.core.sched.ready.unique hr
    exact ⟨R₁, W', h', ht⟩
  have hi := h.core.sched
  cases e with
  | call c =>
    simp only [Kernel.step] at hs
    split_ifs at hs
    exact ⟨R, h.core.turn_enter hs⟩
  | lock =>
    simp only [Kernel.step] at hs
    split_ifs at hs
    obtain rfl := Option.some.inj hs
    exact ⟨R, hi.ready.congr rfl rfl fun _ _ => rfl, .same (by simp) rfl rfl⟩
  | run => exact h.turn_advance hs
  | timer =>
    obtain rfl := Option.some.inj hs
    exact h.turn_timer
  | idle =>
    simp only [Kernel.step] at hs
    split_ifs at hs
    obtain rfl := Option.some.inj hs
    have h1 := sameButTicks_modify k.sched k.sched.currentTask fun _ => 1
    refine ⟨R, (hi.ticks h1).ready, .stays [] rfl (List.append_nil R).symm ?_ fun hf => absurd hf.1 (by simp)⟩
    have ht : (idleTaskMain k.sched).ticks k.cur = 1 := by simp [Sched.ticks, idleTaskMain, task_modify, Kernel.cur]
    unfold Kernel.slice
    show max 1 ((idleTaskMain k.sched).ticks k.cur) ≤ _
    rw [ht]
    exact le_max_left _ _
  | create main t q ring =>
    simp only [Kernel.step] at hs
    split_ifs at hs with hg
    obtain rfl := Option.some.inj hs
    obtain ⟨-, hm, h0, -, ht⟩ := hg
    have hc := createTask_created k.sched q ring hm h0
    have hne : k.cur ≠ t := fun he => ht (he ▸ hi.current_mem)
    have hcur : Kernel.cur { k with sched := (createTask k.sched main t q ring).2, tasks := t :: k.tasks } = k.cur := hc.current
    refine ⟨t :: R, (hi.create hc ht h0).ready, .front t rfl hcur rfl ?_⟩
    unfold Kernel.slice
    rw [hcur]
    show max 1 ((createTask k.sched main t q ring).2.task k.cur).ticksRemaining ≤ _
    rw [hc.other _ hne]
    rfl
  | copy t nt q =>
    simp only [Kernel.step] at hs
    split_ifs at hs with hg
    obtain rfl := Option.some.inj hs
    obtain ⟨-, ht, h0, -, hnt⟩ := hg
    have hc := hi.copy q (hi.ne_null ht) hnt h0
    exact ⟨_, hc.inv.ready, .still (by simp) _ hc.current (ticks_copyTask _ q fun he => hnt (he ▸ hi.current_mem))⟩

/-! ## Waiting -/

/-- The events lead from `k` to the state. -/
def Kernel.run (k : Kernel) (es : List Event) : Option Kernel := Runs.run Kernel.step (fun _ _ => true) k es

theorem Kernel.run_cons {k₁ : Kernel} (h : k.step e = some k₁) : k.run (e :: es) = k₁.run es := by
  unfold Kernel.run
  rw [Runs.run, if_pos rfl, h]
  rfl

/-- How often `create_task` is called. -/
def creates (es : List Event) : ℕ := es.countP Event.isCreate

/-- How often the timer fires while no task holds off the switches. -/
def freeTicks : Kernel → List Event → ℕ
  | _, [] => 0
  | k, e :: es => (if Free k e then 1 else 0) + ((k.step e).map fun k' => freeTicks k' es).getD 0

theorem freeTicks_cons {k₁ : Kernel} (h : k.step e = some k₁) :
    freeTicks k (e :: es) = (if Free k e then 1 else 0) + freeTicks k₁ es := by
  rw [freeTicks, h]
  rfl

theorem creates_cons : creates (e :: es) = creates es + if e.isCreate then 1 else 0 := List.countP_cons

/-- The task `t` gets to run: some of the events lead to a state in which it is the current one. -/
def GetsToRun (k : Kernel) (es : List Event) (t : ℕ) : Prop :=
  ∃ es₁ es₂ k₁, es = es₁ ++ es₂ ∧ k.run es₁ = some k₁ ∧ k₁.cur = t

theorem GetsToRun.cons {k₁ : Kernel} (h : k.step e = some k₁) (hr : GetsToRun k₁ es t) : GetsToRun k (e :: es) t := by
  obtain ⟨es₁, es₂, k₂, rfl, h1, h2⟩ := hr
  exact ⟨e :: es₁, es₂, k₂, rfl, (Kernel.run_cons h).trans h1, h2⟩

/-- **The tasks ahead are used up.** `A` are the tasks ahead of `t` on the ready list. -/
theorem waits_run (h : SyncInv k R W) (hR : R = A ++ t :: B) (hrun : k.run es = some k') :
    GetsToRun k es t ∨ freeTicks k es + 1 ≤ TASK_DEFAULT_TIME * (A.length + creates es) + k.slice := by
  induction es generalizing k R W A B with
  | nil =>
    right
    have h1 : 1 ≤ k.slice := le_max_left _ _
    show 0 + 1 ≤ _
    omega
  | cons e es ih =>
    cases hs : k.step e with
    | none =>
      unfold Kernel.run at hrun
      rw [Runs.run, if_pos rfl, hs] at hrun
      cases hrun
    | some k₁ =>
      rw [Kernel.run_cons hs] at hrun
      rw [freeTicks_cons hs, creates_cons]
      obtain ⟨R₁, W₁, h', ht⟩ := h.turn hs
      have hsl : 1 ≤ k.slice := le_max_left _ _
      cases ht with
      | stays L hc hR₁ hsl₁ hfree =>
        have hR' : R₁ = A ++ t :: (B ++ L) := by rw [hR₁, hR, List.append_assoc, List.cons_append]
        refine (ih h' hR' hrun).imp (.cons hs) fun hb => ?_
        unfold TASK_DEFAULT_TIME at hb ⊢
        -- a tick that the current task loses is one of its slice
        by_cases hf : Free k e
        · have hlt := hfree hf (by rw [hR]; simp)
          rw [if_pos hf]
          omega
        · rw [if_neg hf]
          omega
      | front u he hc hR₁ hsl₁ =>
        have hR' : R₁ = (u :: A) ++ t :: B := by rw [hR₁, hR, List.cons_append]
        have hf : ¬ Free k e := fun hf => by rw [hf.1] at he; cases he
        refine (ih h' hR' hrun).imp (.cons hs) fun hb => ?_
        rw [if_neg hf, if_pos he]
        rw [List.length_cons] at hb
        unfold TASK_DEFAULT_TIME at hb ⊢
        omega
      | switch a L X he hRa hc hR₁ hsl₁ =>
        cases A with
        | nil =>
          -- the turn of `t` has come
          obtain ⟨rfl, rfl⟩ := List.cons.inj (hR.symm.trans hRa)
          exact Or.inl ⟨[e], es, k₁, rfl, by rw [Kernel.run_cons hs]; rfl, hc⟩
        | cons b A =>
          obtain ⟨rfl, rfl⟩ := List.cons.inj (hR.symm.trans hRa)
          have hR' : R₁ = A ++ t :: (B ++ X) := by rw [hR₁, List.append_eq, List.append_assoc, List.cons_append]
          refine (ih h' hR' hrun).imp (.cons hs) fun hb => ?_
          rw [he, List.length_cons]
          unfold TASK_DEFAULT_TIME at hb hsl₁ ⊢
          split_ifs <;> omega

/-- **No ready task starves.** In every state of every run, let `A` be the tasks ahead of `t` on the ready list. Then
`t` gets to run in the events that follow, if the timer finds the task switches unlocked in them as often as the slice of
the current task, a slice for each task of `A` and one for each call of `create_task` have ticks. -/
theorem ready_task_runs {ok : Kernel → Event → Prop} (hs : Reach (SyncInit m) Kernel.step ok k)
    (hR : Ready k.sched (A ++ t :: B)) (hrun : k.run es = some k')
    (hticks : TASK_DEFAULT_TIME * (A.length + creates es) + k.slice ≤ freeTicks k es) : GetsToRun k es t := by
  obtain ⟨R, W, h⟩ := reach_syncInv hs
  refine (waits_run h (h.core.sched.ready.unique hR) hrun).resolve_right fun hb => ?_
  omega

/-- After `init_scheduler` the idle task is ahead of the terminator, which runs in the first hundred ticks. -/
theorem ready_task_runs_terminator : Ready bootedKernel.sched [3, 2] ∧
    GetsToRun bootedKernel (List.replicate 100 .timer) 2 := by
  have hR : Ready bootedKernel.sched ([3] ++ 2 :: []) :=
    ⟨by decide, by decide, ⟨by decide, by decide, trivial⟩, by decide, by decide⟩
  have hrun : (bootedKernel.run (List.replicate 100 .timer)).isSome = true := by decide +kernel
  obtain ⟨k, hk⟩ := Option.isSome_iff_exists.1 hrun
  have hticks : freeTicks bootedKernel (List.replicate 100 .timer) = 100 := by decide +kernel
  have hs : Reach (SyncInit fun _ => 1) Kernel.step Any bootedKernel := .init syncInit_booted
  refine ⟨hR, ready_task_runs hs hR hk ?_⟩
  rw [hticks]
  decide

end Nettapus
