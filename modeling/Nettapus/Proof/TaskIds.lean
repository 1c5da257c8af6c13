import Nettapus.Code.Pids
import Nettapus.Proof.Queue

/-!
# Who a task is

The ring, the number and the wait queue of a task say who it is. `SameIds` holds of everything that the scheduler, the
semaphores and the queues do, and `GoesOn` of every event that makes no task (`step_goesOn`).
-/

namespace Nettapus

open Links Sched Runs

variable {s s' s'' : Sched} {k k' : Kernel} {e : Event} {t u q : ℕ} {T G R : List ℕ} {W : Obj → List ℕ}

/-! ## Steps that keep the numbers -/

/-- The fields that say who a task is. -/
def Task.ids (k : Task) : ℕ × ℕ × ℕ := (k.ring, k.pid, k.waitQueue)

/-- The tasks are who they were. -/
structure SameIds (s s' : Sched) : Prop where
  ids : ∀ u, (s'.task u).ids = (s.task u).ids
  lastPid : s'.lastPid = s.lastPid

namespace SameIds

theorem of_task (ht : s'.task = s.task) (hl : s'.lastPid = s.lastPid) : SameIds s s' :=
  ⟨fun u => by rw [ht], hl⟩

theorem refl (s : Sched) : SameIds s s := of_task rfl rfl

theorem trans (h : SameIds s s') (h' : SameIds s' s'') : SameIds s s'' :=
  ⟨fun u => (h'.ids u).trans (h.ids u), h'.lastPid.trans h.lastPid⟩

theorem modify (s : Sched) (t : ℕ) {f : Task → Task} (hf : ∀ k, (f k).ids = k.ids) : SameIds s (s.modify t f) := by
  refine ⟨fun u => ?_, rfl⟩
  rw [task_modify]
  split_ifs with hu
  · rw [hf, hu]
  · rfl

theorem ring (h : SameIds s s') (u : ℕ) : (s'.task u).ring = (s.task u).ring := congrArg (·.1) (h.ids u)

theorem pid (h : SameIds s s') (u : ℕ) : (s'.task u).pid = (s.task u).pid := congrArg (·.2.1) (h.ids u)

theorem waitQueue (h : SameIds s s') (u : ℕ) : (s'.task u).waitQueue = (s.task u).waitQueue :=
  congrArg (·.2.2) (h.ids u)

theorem setNext (s : Sched) (t n : ℕ) : SameIds s (s.setNext t n) := modify s t fun _ => rfl

theorem setState (s : Sched) (t : ℕ) (st : TaskState) : SameIds s (s.setState t st) := modify s t fun _ => rfl

theorem lock (s : Sched) : SameIds s (lockScheduler s) := of_task rfl rfl

theorem unlock (s : Sched) : SameIds s (unlockScheduler s) := by
  rw [unlockScheduler_eq]
  exact of_task rfl rfl

theorem push (s : Sched) (t : ℕ) : SameIds s (pushTask s t) :=
  (setNext s s.lastTask t).trans (of_task rfl rfl)

theorem pop (s : Sched) : SameIds s (popTask s) := by
  have h : SameIds s { s with task := Function.update s.task s.firstTask (started (s.task s.firstTask)) } :=
    modify s s.firstTask fun _ => rfl
  rw [popTask_eq]
  exact h.trans (of_task rfl rfl)

theorem yield (s : Sched) : SameIds s (Nettapus.yield s) := by
  have h : SameIds s (s.modify s.currentTask fun k =>
      { k with next := NULL, ticksRemaining := TASK_DEFAULT_TIME, state := .ready }) :=
    modify s s.currentTask fun _ => rfl
  unfold Nettapus.yield
  dsimp only
  split_ifs
  · exact of_task rfl rfl
  · exact refl s
  · exact (h.trans (push _ _)).trans (pop _)
  · exact pop s

theorem block (s : Sched) : SameIds s (blockTask s) := by
  rw [blockTask_eq]
  exact (setState s s.currentTask .block).trans (yield _)

theorem unblock (s : Sched) (t : ℕ) : SameIds s (unblockTask s t) := by
  have h : SameIds s (((lockScheduler s).setState t .ready).setNext t NULL) :=
    ((lock s).trans (setState _ t .ready)).trans (setNext _ t NULL)
  unfold unblockTask
  dsimp only
  refine SameIds.trans ?_ (unlock _)
  split_ifs
  · exact h.trans (of_task rfl rfl)
  · exact h.trans (push _ t)

theorem irq0 (s : Sched) : SameIds s (schedulerIrq0 s) := by
  have h : SameIds s (unlockScheduler ((lockScheduler s).modify s.currentTask fun k =>
      { k with ticksRemaining := k.ticksRemaining - 1 })) := by
    refine ((lock s).trans ?_).trans (unlock _)
    exact modify (lockScheduler s) s.currentTask fun _ => rfl
  have h' : SameIds s (if (s.task s.currentTask).ticksRemaining ≠ 0 then
      unlockScheduler ((lockScheduler s).modify s.currentTask fun k =>
        { k with ticksRemaining := k.ticksRemaining - 1 }) else s) := by
    split_ifs
    · exact h
    · exact refl s
  unfold schedulerIrq0
  dsimp only
  generalize (if (s.task s.currentTask).ticksRemaining ≠ 0 then
      unlockScheduler ((lockScheduler s).modify s.currentTask fun k =>
        { k with ticksRemaining := k.ticksRemaining - 1 }) else s) = s₁ at h' ⊢
  split_ifs
  · exact refl s
  · exact h'
  · rw [unlock_yield_lock]
    exact h'.trans (yield _)
  · exact h'

theorem enqueueSem (s : Sched) (m : Semaphore) : SameIds s (semEnqueue s m).1 := by
  unfold semEnqueue
  split_ifs
  · exact refl s
  · exact setNext s _ _

theorem handOver (s : Sched) (m : Semaphore) : SameIds s (semHandOver s m).1 := unblock s _

theorem enqueueQueue (s : Sched) (q : Queue) : SameIds s (queueEnqueue s q).1 := by
  unfold queueEnqueue
  dsimp only
  split_ifs
  · exact setNext s _ _
  · exact (setNext s _ _).trans (setNext _ _ _)

theorem wake (s : Sched) (q : Queue) : SameIds s (queueWake s q).1 := by
  unfold queueWake
  split_ifs
  · exact unblock s _
  · exact refl s

end SameIds

/-! ## Steps that make no task -/

/-- The current task goes on at another place: it signals a queue only if it did so before, or starts to. -/
structure GoesOn (k k' : Kernel) (e : Event) : Prop where
  ids : SameIds k.sched k'.sched
  tasks : k'.tasks = k.tasks
  pc : ∃ p, k'.pc = Function.update k.pc k.cur p ∧ ∀ q, p.Signals q → (k.pc k.cur).Signals q ∨ e = .call (.signal q)

theorem not_signals {g : Stage} {c : Call} (h : c ≠ .signal q ∨ g ≠ .lock ∧ g ≠ .body) :
    ¬ (Pc.call g c).Signals q := by
  rintro (hc | hc)
  · cases hc
    exact h.elim (fun h => h rfl) fun h => h.1 rfl
  · cases hc
    exact h.elim (fun h => h rfl) fun h => h.2 rfl

namespace GoesOn

/-- The current task stays where it is. -/
theorem stay (h : SameIds k.sched k'.sched) (ht : k'.tasks = k.tasks) (hp : k'.pc = k.pc) : GoesOn k k' e :=
  ⟨h, ht, k.pc k.cur, hp.trans (Function.update_eq_self _ _).symm, fun _ hq => Or.inl hq⟩

/-- It goes to a place where it signals no queue. -/
theorem goTo {g : Stage} {c : Call} (h : SameIds k.sched k'.sched) (ht : k'.tasks = k.tasks)
    (hp : k'.pc = Function.update k.pc k.cur (.call g c)) (hg : (∀ q, c ≠ .signal q) ∨ g ≠ .lock ∧ g ≠ .body) :
    GoesOn k k' e :=
  ⟨h, ht, _, hp, fun q hq => absurd hq (not_signals (hg.imp_left fun h => h q))⟩

theorem enter {c : Call} (hs : k.enter c = some k') : GoesOn k k' (.call c) := by
  have hself : GoesOn k k (.call c) := stay (.refl _) rfl rfl
  cases c with
  | acquire s =>
    simp only [Kernel.enter] at hs
    split_ifs at hs
    · exact Option.some.inj hs ▸ hself
    · obtain rfl := Option.some.inj hs
      exact goTo (.of_task rfl rfl) rfl rfl (Or.inl (by simp))
  | release s | wait q =>
    simp only [Kernel.enter] at hs
    split_ifs at hs
    · exact Option.some.inj hs ▸ hself
    · obtain rfl := Option.some.inj hs
      exact goTo (.of_task rfl rfl) rfl rfl (Or.inl (by simp))
  | signal q =>
    simp only [Kernel.enter] at hs
    split_ifs at hs
    · exact Option.some.inj hs ▸ hself
    · exact Option.some.inj hs ▸ hself
    · obtain rfl := Option.some.inj hs
      refine ⟨.refl _, rfl, _, rfl, fun q' hq' => Or.inr ?_⟩
      rcases hq' with h | h
      · cases h
        rfl
      · cases h
  | unlock =>
    simp only [Kernel.enter] at hs
    split_ifs at hs
    · exact Option.some.inj hs ▸ hself
    · obtain rfl := Option.some.inj hs
      exact goTo (.of_task rfl rfl) rfl rfl (Or.inl (by simp))

theorem body {c : Call} (hs : k.body c = some k') : GoesOn k k' e := by
  have hg : (∀ q, c ≠ .signal q) ∨ (Stage.unlock ≠ .lock ∧ Stage.unlock ≠ .body) := Or.inr ⟨by simp, by simp⟩
  cases c with
  | acquire s =>
    simp only [Kernel.body] at hs
    split_ifs at hs <;> obtain rfl := Option.some.inj hs
    · exact goTo (.enqueueSem _ _) rfl rfl (Or.inr ⟨by simp, by simp⟩)
    · exact goTo (.refl _) rfl rfl hg
  | release s =>
    simp only [Kernel.body] at hs
    split_ifs at hs <;> obtain rfl := Option.some.inj hs
    · exact goTo (.refl _) rfl rfl hg
    · exact goTo (.handOver _ _) rfl rfl hg
  | wait q =>
    obtain rfl := Option.some.inj hs
    exact goTo (.enqueueQueue _ _) rfl rfl (Or.inr ⟨by simp, by simp⟩)
  | signal q =>
    obtain rfl := Option.some.inj hs
    exact goTo (.wake _ _) rfl rfl hg
  | unlock => cases hs

theorem advance (hs : k.advance (k.pc k.cur) = some k') : GoesOn k k' e := by
  cases hpc : k.pc k.cur with
  | user => rw [hpc] at hs; cases hs
  | call g c =>
    rw [hpc] at hs
    cases g with
    | body => exact body hs
    | lock =>
      cases c with
      | signal q =>
        obtain rfl := Option.some.inj hs
        refine ⟨.of_task rfl rfl, rfl, _, rfl, fun q' hq' => Or.inl ?_⟩
        rw [hpc]
        rcases hq' with h | h
        · cases h
        · cases h
          exact Or.inl rfl
      | acquire | release | wait | unlock => cases hs
    | unlock | test =>
      simp only [Kernel.advance] at hs
      split_ifs at hs <;> obtain rfl := Option.some.inj hs <;>
        exact goTo (.of_task rfl rfl) rfl rfl (Or.inr ⟨by simp, by simp⟩)
    | block =>
      obtain rfl := Option.some.inj hs
      exact goTo (.block _) rfl rfl (Or.inr ⟨by simp, by simp⟩)
    | reset =>
      obtain rfl := Option.some.inj hs
      exact goTo (.of_task rfl rfl) rfl rfl (Or.inr ⟨by simp, by simp⟩)
    | yield =>
      obtain rfl := Option.some.inj hs
      exact goTo ((unlock_yield_lock k.sched).symm ▸ .yield k.sched) rfl rfl (Or.inr ⟨by simp, by simp⟩)
    | ret =>
      obtain rfl := Option.some.inj hs
      exact ⟨.refl _, rfl, .user, rfl, fun q hq => by rcases hq with h | h <;> cases h⟩

end GoesOn

/-- The events that make a task. -/
def Event.Creates : Event → Prop
  | .create _ _ _ _ => True
  | .copy _ _ _ => True
  | _ => False

theorem step_goesOn (hs : k.step e = some k') (he : ¬ e.Creates) : GoesOn k k' e := by
  cases e with
  | run => exact .advance hs
  | timer =>
    obtain rfl := Option.some.inj hs
    exact .stay (.irq0 k.sched) rfl rfl
  | call c =>
    simp only [Kernel.step] at hs
    split_ifs at hs
    exact .enter hs
  | lock =>
    simp only [Kernel.step] at hs
    split_ifs at hs
    obtain rfl := Option.some.inj hs
    exact .stay (.of_task rfl rfl) rfl rfl
  | idle =>
    simp only [Kernel.step] at hs
    split_ifs at hs
    obtain rfl := Option.some.inj hs
    have h : SameIds k.sched (idleTaskMain k.sched) := .modify k.sched k.sched.currentTask fun _ => rfl
    exact .stay h rfl rfl
  | create | copy => exact absurd trivial he

end Nettapus
