import Nettapus.Proof.SyncRun

/-!
# Semaphores

* `semaphore_exclusion`: in every run the grants of a semaphore are counted by
  `current_count`, there are at most `max_count`, and a task returns from
  `acquire_semaphore` only when it was granted the semaphore.
* `semaphore_waiters`: as long as every release finds one waiting task at most, the list of
  a semaphore has exactly the tasks that wait for it, in the order in which they came.
* `semaphore_waiter_lost`: a release that finds two waiting tasks loses the second one.
-/

namespace Nettapus

open Links Sched Runs

variable {k k' : Kernel} {s t : ℕ} {o : Obj} {R : List ℕ} {W : Obj → List ℕ} {e : Event} {m : ℕ → ℕ}

/-- The machine before the first call: the scheduler in a state that it reaches, semaphores
from `create_semaphore`, and empty queues. -/
def SyncInit (m : ℕ → ℕ) (k : Kernel) : Prop :=
  (∀ s, 1 ≤ m s ∧ m s < 2 ^ 31) ∧ ∃ c : SchedSys, SchedReach c ∧ (∀ t ∈ c.tasks, t < 2 ^ 64) ∧
    k = ⟨c.sched, fun s => createSemaphore (m s), fun _ => Queue.zero, fun _ => .user, c.idle, c.tasks,
      fun _ => [], fun _ => [], fun _ => false⟩

theorem SyncInit.inv (h : SyncInit m k) : ∃ R, SyncInv k R fun _ => [] := by
  obtain ⟨hm, c, hc, ha, rfl⟩ := h
  obtain ⟨R, hR⟩ := hc.inv
  refine ⟨R, ⟨hR.inv, hR.schedLock, ha, fun _ _ => rfl, rfl, fun hb => ?_, fun t _ => ?_⟩,
    ⟨fun o => ⟨NULL, ?_⟩, ?_, ?_, ?_, ?_, ?_⟩, ⟨?_, ?_, ?_, ?_, fun _ => rfl, fun _ => Nat.zero_le _,
      fun s => (hm s).2⟩, ?_⟩
  · have hr : c.sched.state c.sched.currentTask = .running := hR.running
    have hb' : c.sched.state c.sched.currentTask = .block := hb
    rw [hr] at hb'
    cases hb'
  · rintro ⟨g, c, hg, -⟩; cases hg
  · cases o <;> exact Fifo.nil _ _ _
  · intro o t ht; cases ht
  · intro o t ht; cases ht
  · intro o t ht; cases ht
  · intro o o' t ht; cases ht
  · intro o; exact List.nodup_nil
  · intro s t ht; cases ht
  · rintro s t ⟨g, -, hg⟩; cases hg
  · intro s t ht; cases ht
  · intro s t ht; cases ht
  · rintro q t (ht | ht) <;> cases ht

/-- **The invariant holds in every run.** -/
theorem reach_syncInv {ok : Kernel → Event → Prop} (hs : Reach (SyncInit m) Kernel.step ok k) :
    ∃ R W, SyncInv k R W := by
  refine hs.inv (I := fun k => ∃ R W, SyncInv k R W) (fun k h => ?_) fun k e k' hI _ hst => ?_
  · obtain ⟨R, hR⟩ := h.inv
    exact ⟨R, _, hR⟩
  · obtain ⟨R, W, h⟩ := hI
    obtain ⟨R', W', h', -⟩ := h.step hst
    exact ⟨R', W', h'⟩

/-! ## `max_count` is constant -/

theorem enter_sem {c : Call} (hs : k.enter c = some k') : k'.sem = k.sem := by
  cases c <;> simp only [Kernel.enter] at hs <;> split_ifs at hs <;> obtain rfl := Option.some.inj hs <;> rfl

theorem body_maxCount {c : Call} (hs : k.body c = some k') (s : ℕ) :
    (k'.sem s).maxCount = (k.sem s).maxCount := by
  have key : ∀ s' n, (n : Semaphore).maxCount = (k.sem s').maxCount →
      (Function.update k.sem s' n s).maxCount = (k.sem s).maxCount := by
    intro s' n hn
    rw [Function.update_apply]
    split_ifs with h
    · rw [hn, h]
    · rfl
  cases c with
  | acquire s' =>
    simp only [Kernel.body] at hs
    split_ifs at hs <;> obtain rfl := Option.some.inj hs
    · exact key s' _ (semEnqueue_counts _ _).2
    · exact key s' _ (setCount_fields _ _).2.1
  | release s' =>
    simp only [Kernel.body] at hs
    split_ifs at hs <;> obtain rfl := Option.some.inj hs
    · exact key s' _ (setCount_fields _ _).2.1
    · refine key s' _ ?_
      unfold semHandOver
      dsimp only
      split_ifs <;> rfl
  | wait q => obtain rfl := Option.some.inj hs; rfl
  | signal q => obtain rfl := Option.some.inj hs; rfl
  | unlock => cases hs

theorem advance_maxCount {p : Pc} (hs : k.advance p = some k') (s : ℕ) :
    (k'.sem s).maxCount = (k.sem s).maxCount := by
  cases p with
  | user => cases hs
  | call g c =>
    cases g with
    | body => exact body_maxCount hs s
    | lock =>
      cases c with
      | signal q => obtain rfl := Option.some.inj hs; rfl
      | acquire | release | wait | unlock => cases hs
    | unlock =>
      simp only [Kernel.advance] at hs
      split_ifs at hs <;> obtain rfl := Option.some.inj hs <;> rfl
    | test =>
      simp only [Kernel.advance] at hs
      split_ifs at hs <;> obtain rfl := Option.some.inj hs <;> rfl
    | block => obtain rfl := Option.some.inj hs; rfl
    | reset => obtain rfl := Option.some.inj hs; rfl
    | yield => obtain rfl := Option.some.inj hs; rfl
    | ret => obtain rfl := Option.some.inj hs; rfl

theorem step_maxCount (hs : k.step e = some k') (s : ℕ) : (k'.sem s).maxCount = (k.sem s).maxCount := by
  cases e with
  | run => exact advance_maxCount hs s
  | timer => obtain rfl := Option.some.inj hs; rfl
  | call c =>
    simp only [Kernel.step] at hs
    split_ifs at hs
    rw [enter_sem hs]
  | lock | idle | create | copy =>
    simp only [Kernel.step] at hs
    split_ifs at hs
    obtain rfl := Option.some.inj hs
    rfl

theorem reach_maxCount {ok : Kernel → Event → Prop} (hs : Reach (SyncInit m) Kernel.step ok k) (s : ℕ) :
    (k.sem s).maxCount = m s := by
  refine hs.inv (I := fun k => (k.sem s).maxCount = m s) (fun k h => ?_) fun k e k' hI _ hst => ?_
  · obtain ⟨-, c, -, -, rfl⟩ := h
    rfl
  · exact (step_maxCount hst s).trans hI

/-! ## Exclusion -/

/-- A task that returns from `acquire_semaphore` was granted the semaphore. -/
theorem SyncInv.granted_of_ret {R : List ℕ} {W : Obj → List ℕ} {s : ℕ} (h : SyncInv k R W)
    (hpc : k.pc k.cur = .call .ret (.acquire s)) : k.granted k.cur = true := by
  -- a waiting task is blocked, and a blocked task does not get here
  refine (h.sems.decided s _ ⟨.ret, ⟨by simp, by simp⟩, hpc⟩).resolve_right fun hw => ?_
  have hok := h.core.cur_ok
  rw [hpc] at hok
  have h0 : k.sched.taskSwitchLock = 0 := hok.1 ⟨s, rfl⟩
  have := (hok.2 (h.blocked_of_waiting (fun c => by rw [hpc]; simp) hw)).1
  omega

/-- **Exclusion.** At every point of every run, for every semaphore: the tasks that were granted
it and did not release it are as many as `current_count`, which is at most the `m` of
`create_semaphore`; the count of a semaphore that is being released is positive, so that
it does not wrap; and a task that returns from `acquire_semaphore` was granted the
semaphore in this call. -/
theorem semaphore_exclusion (hs : Reach (SyncInit m) Kernel.step Any k) (s : ℕ) :
    (k.held s).length = (k.sem s).currentCount ∧ (k.sem s).currentCount ≤ m s ∧
    (k.pc k.cur = .call .body (.release s) → 0 < (k.sem s).currentCount) ∧
    (k.pc k.cur = .call .ret (.acquire s) → k.granted k.cur = true) := by
  obtain ⟨R, W, h⟩ := reach_syncInv hs
  refine ⟨h.sems.count s, ?_, fun hpc => ?_, h.granted_of_ret⟩
  · rw [← reach_maxCount hs s]; exact h.sems.le s
  · rw [← h.sems.count s]
    exact List.length_pos_of_mem (h.sems.holds s _ hpc)

/-! ## Waiting -/

/-- The step does not wake a task of `o` while two are waiting. -/
def OneWaiter (o : Obj) (k : Kernel) (e : Event) : Prop :=
  e = .run → k.pc k.cur = .call .body o.waker → (k.waiting o).length ≤ 1

instance (o : Obj) (k : Kernel) (e : Event) : Decidable (OneWaiter o k e) :=
  inferInstanceAs (Decidable (_ → _ → _))

/-- If at most one task is waiting at every wake-up, a step that the list in memory agrees
with before keeps it so. -/
theorem Effect.exact {W' : Obj → List ℕ} (hE : Effect k k' e W W') (hok : OneWaiter o k e)
    (hW : W o = k.waiting o) : W' o = k'.waiting o := by
  cases hE with
  | same h1 h2 _ => rw [h1, h2]; exact hW
  | join o' h1 h2 _ =>
    rw [h1, h2, Function.update_apply]
    split_ifs with ho
    · rw [← ho, hW]
    · exact hW
  | wake o' f L he hpc hL _ h1 h2 _ =>
    rw [h1, h2, Function.update_apply]
    split_ifs with ho
    · subst ho
      have hlen := hok he hpc
      rw [← hW, hL, List.length_cons] at hlen
      have hnil : L = [] := List.eq_nil_of_length_eq_zero (by omega)
      rw [← hW, hL, hnil]
      simp
    · exact hW

theorem reach_exact (hs : Reach (SyncInit m) Kernel.step (OneWaiter o) k) :
    ∃ R W, SyncInv k R W ∧ W o = k.waiting o := by
  refine hs.inv (I := fun k => ∃ R W, SyncInv k R W ∧ W o = k.waiting o) (fun k h => ?_)
    fun k e k' hI hok hst => ?_
  · obtain ⟨R, hR⟩ := h.inv
    obtain ⟨-, c, -, -, rfl⟩ := h
    exact ⟨R, _, hR, rfl⟩
  · obtain ⟨R, W, h, hW⟩ := hI
    obtain ⟨R', W', h', hE⟩ := h.step hst
    exact ⟨R', W', h', hE.exact hok hW⟩

/-- **Waiting for a semaphore.** In a run in which no release of `s` finds two tasks waiting: the
list from `first_waiting_task` to `last_waiting_task` has the tasks that wait, in the
order in which they came; these are the tasks in `acquire_semaphore`, past its test, that
were not granted the semaphore, and they are blocked; and a release grants the semaphore
to the first of them and leaves the others waiting, but the list has them only if there
are none. -/
theorem semaphore_waiters (s : ℕ) (hs : Reach (SyncInit m) Kernel.step (OneWaiter (.sem s)) k) :
    (∃ e, Fifo k.sched.next NULL (k.sem s).firstWaitingTask (k.sem s).lastWaitingTask
      (k.waiting (.sem s)) e) ∧
    (∀ t, t ∈ k.waiting (.sem s) ↔ (k.pc t).DecidedFor s ∧ k.granted t = false) ∧
    (∀ t ∈ k.waiting (.sem s), t ≠ k.cur → k.sched.state t = .block) ∧
    ∀ k' f L, k.pc k.cur = .call .body (.release s) → k.waiting (.sem s) = f :: L →
      k.step .run = some k' →
      k'.granted f = true ∧ k'.held s = (k.held s).erase k.cur ++ [f] ∧ k'.sched.state f = .ready ∧
        k'.waiting (.sem s) = L ∧
        ((∃ e, Fifo k'.sched.next NULL (k'.sem s).firstWaitingTask (k'.sem s).lastWaitingTask L e) ↔
          L = []) := by
  obtain ⟨R, W, h, hW⟩ := reach_exact hs
  obtain ⟨e, he⟩ := h.lists.list (.sem s)
  rw [hW] at he
  refine ⟨⟨e, he⟩, fun t => ⟨fun ht => ?_, fun ht => ?_⟩, fun t ht htc => h.blocked_of_ne ht htc, ?_⟩
  · obtain ⟨h1, h2⟩ := h.sems.wait s t ht
    exact ⟨h2, h1⟩
  · refine (h.sems.decided s t ht.1).resolve_left fun hg => ?_
    rw [ht.2] at hg
    cases hg
  · intro k' f L hpc hL hst
    have hf : (k.sem s).firstWaitingTask = f := by
      have := he.first_eq
      rw [hL] at this
      exact this
    have hmem : f ∈ k.waiting (.sem s) := by rw [hL]; simp
    have hf0 : f ≠ NULL := h.core.sched.ne_null (h.lists.mem _ f hmem)
    have hne : f ≠ k.cur := by
      rintro rfl
      obtain ⟨g, hg, hg'⟩ := (h.sems.wait s _ hmem).2
      rw [hpc] at hg'
      cases hg'
    have hb := h.blocked_of_waiting (fun c => by rw [hpc]; simp) hmem
    have hA := h.core.sched.unblock (h.lists.mem _ f hmem) hb hne
    have hst' : k.body (.release s) = some k' := by
      have : k.advance (k.pc k.cur) = some k' := hst
      rwa [hpc] at this
    -- `unblock_task` has cleared the link by the time `release_semaphore` reads it
    have hho : semHandOver k.sched (k.sem s) =
        (unblockTask k.sched f, { k.sem s with firstWaitingTask := NULL, lastWaitingTask := NULL }) := by
      rw [semHandOver_eq (by rw [hf]; exact hA.next), hf]
    simp only [Kernel.body, hf, if_neg hf0, hho] at hst'
    obtain rfl := Option.some.inj hst'
    refine ⟨Function.update_self _ _ _, ?_, ?_, ?_, ?_⟩
    · simp only [Kernel.setPc, Kernel.leave, Kernel.grant, Kernel.giveUp, Kernel.setSem,
        Function.update_self]
    · show (unblockTask k.sched f).state f = .ready
      rw [hA.state, if_pos rfl]
    · simp only [Kernel.setPc, Kernel.leave, Kernel.grant, Kernel.giveUp, Kernel.setSem,
        Function.update_self, hL, List.erase_cons_head]
    · simp only [Kernel.setPc, Kernel.leave, Kernel.grant, Kernel.giveUp, Kernel.setSem,
        Function.update_self]
      constructor
      · rintro ⟨e, he⟩
        exact he.first_eq_null_iff.1 rfl
      · rintro rfl
        exact ⟨NULL, Fifo.nil _ _ _⟩

/-! ## Runs -/

/-- The machine after `init_scheduler`, with semaphores for one task. -/
def bootedKernel : Kernel :=
  ⟨booted.sched, fun _ => createSemaphore 1, fun _ => Queue.zero, fun _ => .user, booted.idle, booted.tasks,
    fun _ => [], fun _ => [], fun _ => false⟩

theorem syncInit_booted : SyncInit (fun _ => 1) bootedKernel :=
  ⟨fun _ => ⟨Nat.le_refl 1, show 1 < 2 ^ 31 by decide⟩, booted, schedReach_booted, by decide, rfl⟩

/-- The boot task takes a semaphore. -/
theorem semaphore_exclusion_taken : ∃ k, Reach (SyncInit fun _ => 1) Kernel.step Any k ∧
    k.pc k.cur = .call .ret (.acquire 7) ∧ (k.sem 7).currentCount = 1 ∧ (k.held 7).length = 1 ∧
      k.granted k.cur = true := by
  have hrun : (run Kernel.step (fun _ _ => true) bootedKernel [.call (.acquire 7), .run, .run, .run]).map
      (fun k => (k.pc k.cur, (k.sem 7).currentCount)) = some (.call .ret (.acquire 7), 1) := by decide +kernel
  obtain ⟨k, hk, hk'⟩ := Option.map_eq_some_iff.1 hrun
  obtain ⟨hpc, hc⟩ := Prod.mk.inj hk'
  have hs : Reach (SyncInit fun _ => 1) Kernel.step Any k :=
    (Reach.init syncInit_booted).run (fun _ _ _ => trivial) _ hk
  obtain ⟨h1, -, -, h4⟩ := semaphore_exclusion hs 7
  exact ⟨k, hs, hpc, hc, by rw [h1, hc], h4 hpc⟩

/-- The boot task takes a semaphore twice, and waits for itself. -/
theorem semaphore_waiters_one : ∃ k, Reach (SyncInit fun _ => 1) Kernel.step (OneWaiter (.sem 7)) k ∧
    k.waiting (.sem 7) = [1] ∧ k.sched.state 1 = .block ∧
      ∃ e, Fifo k.sched.next NULL (k.sem 7).firstWaitingTask (k.sem 7).lastWaitingTask [1] e := by
  have hrun : (run Kernel.step (fun k e => decide (OneWaiter (.sem 7) k e)) bootedKernel
      ([.call (.acquire 7), .run, .run, .run, .run, .call (.acquire 7)] ++ List.replicate 6 .run)).map
      (fun k => (k.waiting (.sem 7), k.cur)) = some ([1], 3) := by decide +kernel
  obtain ⟨k, hk, hk'⟩ := Option.map_eq_some_iff.1 hrun
  obtain ⟨hw, hc⟩ := Prod.mk.inj hk'
  have hs := (Reach.init syncInit_booted).run (fun _ _ h => of_decide_eq_true h) _ hk
  obtain ⟨h1, -, h3, -⟩ := semaphore_waiters 7 hs
  rw [hw] at h1 h3
  exact ⟨k, hs, hw, h3 1 (by simp) (by rw [hc]; decide), h1⟩

/-- The boot task takes a semaphore and runs out of time. A new task and the terminator wait for
it, and then the boot task releases it. -/
def lostWaiter : List Event :=
  [.create 12 4 13 1, .call (.acquire 7)] ++ List.replicate 4 .run ++ List.replicate 50 .timer ++
    [.call (.acquire 7)] ++ List.replicate 6 .run ++ [.idle, .timer] ++
    [.call (.acquire 7)] ++ List.replicate 6 .run ++ [.call (.release 7), .run]

/-- **A waiter is lost**: it waits in `acquire_semaphore`, blocked, and the list is empty. -/
theorem semaphore_waiter_lost : ∃ k, Reach (SyncInit fun _ => 1) Kernel.step Any k ∧
    k.waiting (.sem 7) = [2] ∧ k.sched.state 2 = .block ∧ k.granted 2 = false ∧
      (k.sem 7).firstWaitingTask = NULL ∧
      ¬ ∃ e, Fifo k.sched.next NULL (k.sem 7).firstWaitingTask (k.sem 7).lastWaitingTask
        (k.waiting (.sem 7)) e := by
  have hrun : (run Kernel.step (fun _ _ => true) bootedKernel lostWaiter).map
      (fun k => (k.waiting (.sem 7), k.sched.state 2, k.granted 2, (k.sem 7).firstWaitingTask)) =
        some ([2], .block, false, NULL) := by decide +kernel
  obtain ⟨k, hk, hk'⟩ := Option.map_eq_some_iff.1 hrun
  obtain ⟨hw, hk'⟩ := Prod.mk.inj hk'
  obtain ⟨hst, hk'⟩ := Prod.mk.inj hk'
  obtain ⟨hg, hf⟩ := Prod.mk.inj hk'
  refine ⟨k, (Reach.init syncInit_booted).run (fun _ _ _ => trivial) _ hk, hw, hst, hg, hf, ?_⟩
  rintro ⟨e, he⟩
  have := he.first_eq_null_iff.1 hf
  rw [hw] at this
  cases this

end Nettapus
