import Nettapus.Proof.ProcInv

/-!
# Looking up a live task

`find_task` looks at the current task and at the ready list. In every run of processes, `find_task_iff` says when it
finds a live user task: when the task is current, or not blocked and no other task with its number is ahead of it.
The numbers of live user tasks are different (`PidInv`), so that such a rival is a task of the kernel, all of which
have the number zero like the first user task, or a task that `exec` replaced.

`wait` then blocks on the queue of the task until that task is gone (`waits_step`); otherwise it returns an error, or
goes to another queue.
-/

namespace Nettapus

open Links Sched Runs

variable {s s' s'' : Sched} {k k' : Kernel} {e : Event} {t u q : ℕ} {T G R : List ℕ} {W : Obj → List ℕ}
  {p p' : Procs}

/-! ## The walk of `find_task` -/

section Find

variable {pid fuel : ℕ}

theorem findTaskLoop_of_lt (hR : Linked s.next R NULL) (h0 : NULL ∉ R) (hf : R.length < fuel) :
    findTaskLoop s pid fuel (front R NULL) = some ((R.find? fun u => (s.task u).pid = pid).getD NULL) := by
  induction fuel generalizing R with
  | zero => omega
  | succ fuel ih =>
    cases R with
    | nil => rfl
    | cons a R =>
      have ha : a ≠ NULL := fun ha => h0 (ha ▸ List.mem_cons_self)
      rw [findTaskLoop, front_cons, if_neg ha, List.find?_cons]
      by_cases hp : (s.task a).pid = pid
      · simp [hp]
      · rw [if_neg hp, show s.next a = front R NULL from hR.1]
        simp only [hp, decide_false]
        exact ih hR.2 (fun h => h0 (List.mem_cons_of_mem _ h)) (by simpa using hf)

/-- More steps do not change the result. -/
theorem findTaskLoop_mono {i r : ℕ} (h : findTaskLoop s pid fuel i = some r) (n : ℕ) :
    findTaskLoop s pid (fuel + n) i = some r := by
  induction fuel generalizing i with
  | zero => cases h
  | succ fuel ih =>
    rw [Nat.add_right_comm, findTaskLoop]
    rw [findTaskLoop] at h
    split_ifs at h ⊢
    · exact h
    · exact h
    · exact ih h

/-- **`find_task`** looks at the current task, and then at the ready list. -/
theorem findTask_iff (hR : Ready s R) {r : ℕ} : (∃ fuel, findTask s pid fuel = some r) ↔
    (if (s.task s.currentTask).pid = pid then s.currentTask
      else (R.find? fun u => (s.task u).pid = pid).getD NULL) = r := by
  unfold findTask
  split_ifs with hc
  · simp
  · rw [Fifo.first_eq hR]
    have hlt : ∀ n, R.length < n → findTaskLoop s pid n (front R NULL) =
        some ((R.find? fun u => (s.task u).pid = pid).getD NULL) :=
      fun n hn => findTaskLoop_of_lt (Fifo.linked hR) (Fifo.null_notMem hR) hn
    constructor
    · rintro ⟨fuel, hf⟩
      have h1 := findTaskLoop_mono hf (R.length + 1)
      rw [hlt _ (by omega)] at h1
      exact Option.some.inj h1
    · rintro rfl
      exact ⟨R.length + 1, hlt _ (Nat.lt_succ_self _)⟩

end Find

/-! ## When a live task is found -/

/-- `u` is another task with the number of `t`: a task of the kernel, or one that is gone. -/
def Procs.Rival (p : Procs) (t u : ℕ) : Prop :=
  u ∈ p.kernel.tasks ∧ u ≠ t ∧ (p.sched.task u).pid = (p.sched.task t).pid ∧ ((p.sched.task u).ring = 0 ∨ u ∈ p.gone)

/-- `u` is the current task, or before `t` on the ready list. -/
def Procs.Ahead (p : Procs) (t u : ℕ) : Prop :=
  u = p.kernel.cur ∨ ∃ A C, Ready p.sched (A ++ t :: C) ∧ u ∈ A

/-- `t` is current; or it is not blocked, and no rival is ahead of it. -/
def Procs.Findable (p : Procs) (t : ℕ) : Prop :=
  t = p.kernel.cur ∨ p.sched.state t ≠ .block ∧ ∀ u, p.Rival t u → ¬ p.Ahead t u

/-- **`find_task` finds a live task iff** it is findable. -/
theorem ProcInv.finds_iff (h : ProcInv p R W) (ht : p.Live t) :
    (∃ fuel, findTask p.sched (p.sched.task t).pid fuel = some t) ↔ p.Findable t := by
  have hready : Ready p.sched R := h.sync.core.sched.ready
  have hnd : R.Nodup := Fifo.nodup hready
  have hnull := Fifo.null_notMem hready
  have ht0 : t ≠ NULL := h.sync.core.sched.ne_null ht.1
  have hsub := h.sync.core.sched.sub
  rw [findTask_iff hready]
  constructor
  · intro hf
    by_cases htc : t = p.kernel.cur
    · exact Or.inl htc
    split_ifs at hf with hc
    · exact absurd hf.symm htc
    have hfind : R.find? (fun u => (p.sched.task u).pid = (p.sched.task t).pid) = some t := by
      cases hR : R.find? (fun u => (p.sched.task u).pid = (p.sched.task t).pid) with
      | none =>
        rw [hR] at hf
        exact absurd hf.symm ht0
      | some u =>
        rw [hR] at hf
        exact congrArg some hf
    obtain ⟨-, A, C, rfl, hA⟩ := List.find?_eq_some_iff_append.1 hfind
    refine Or.inr ⟨fun hb => h.sync.core.sched.blocked_notMem hb (by simp), fun u hu hahead => ?_⟩
    rcases hahead with rfl | ⟨A', C', hready', huA⟩
    · exact hc hu.2.2.1
    · -- the list is the same, so that `u` is before `t` on it
      have heq : A' ++ t :: C' = A ++ t :: C := by
        refine (Fifo.linked hready').unique (Fifo.linked hready) (Fifo.null_notMem hready') hnull ?_
        rw [← Fifo.first_eq hready', ← Fifo.first_eq hready]
      have hnd' : (A' ++ t :: C').Nodup := Fifo.nodup hready'
      have hA' : t ∉ A' := fun hA => (List.nodup_append.1 hnd').2.2 t hA t List.mem_cons_self rfl
      have hC' : t ∉ C' := (List.nodup_cons.1 (List.nodup_append.1 hnd').2.1).1
      obtain ⟨rfl, -, -⟩ := (List.append_cons_inj_of_notMem hA' hC').1 heq
      have := hA u huA
      simp [hu.2.2.1] at this
  · intro hf
    by_cases htc : t = p.kernel.cur
    · have hcur : p.sched.currentTask = t := htc.symm
      rw [hcur, if_pos rfl]
    · obtain ⟨hb, hriv⟩ := hf.resolve_left htc
      have htR : t ∈ R := h.sync.core.sched.mem_of_state ht.1 htc hb
      obtain ⟨A, C, rfl⟩ := List.append_of_mem htR
      have htA : t ∉ A := by
        intro hA
        exact (List.nodup_append.1 hnd).2.2 t hA t List.mem_cons_self rfl
      -- a task with the number of `t` is a rival
      have hrival : ∀ u ∈ p.kernel.tasks, u ≠ t → (p.sched.task u).pid = (p.sched.task t).pid → p.Rival t u := by
        intro u hu hut hpid
        refine ⟨hu, hut, hpid, ?_⟩
        by_contra hno
        push Not at hno
        exact hut (h.pids.unique u hu t ht.1 hno.1 ht.2.1 hno.2 ht.2.2 hpid)
      rw [if_neg]
      · have hfind : (A ++ t :: C).find? (fun u => (p.sched.task u).pid = (p.sched.task t).pid) = some t := by
          refine List.find?_eq_some_iff_append.2 ⟨by simp, A, C, rfl, fun u hu => ?_⟩
          by_contra hp
          have hut : u ≠ t := fun he => htA (he ▸ hu)
          exact hriv u (hrival u (hsub u (List.mem_append_left _ hu)) hut (by simpa using hp))
            (Or.inr ⟨A, C, hready, hu⟩)
        rw [hfind]
        rfl
      · intro hc
        exact hriv _ (hrival _ h.sync.core.cur_mem (Ne.symm htc) hc) (Or.inl rfl)

/-! ## `wait` -/

/-- The task `c` is in `wait_queue` of `q`: about to join the list, or one of those that wait. -/
def InWait (k : Kernel) (c q : ℕ) : Prop := k.pc c = .call .body (.wait q) ∨ c ∈ k.waiting (.queue q)

/-- In `wait_queue`, and blocked after it joined the list. -/
def Procs.Waits (p : Procs) (c q : ℕ) : Prop :=
  p.kernel.pc c = .call .body (.wait q) ∨
    c ∈ p.kernel.waiting (.queue q) ∧ (p.sched.state c = .block ∨ p.kernel.pc c = .call .block (.wait q))

theorem ProcInv.waits {c : ℕ} (h : ProcInv p R W) (hw : InWait p.kernel c q) : p.Waits c q :=
  hw.imp_right fun hc => ⟨hc, h.sync.lists.blocked (.queue q) c hc⟩

/-- **A step that does not signal the queue** leaves a task that waits where it is. -/
theorem InWait.step {c : ℕ} (hw : InWait k c q) (h : SyncInv k R W) (hs : k.step e = some k')
    (hq : ∀ u, ¬ (k.pc u).Signals q) : InWait k' c q := by
  rcases hw with hpc | hw
  · -- it holds the lock, so that no other task runs
    have hc : c = k.cur := by
      by_contra hc
      exact h.core.other c hc ⟨_, _, hpc, Or.inl rfl⟩
    subst hc
    have hno : k.pc k.cur ≠ .user := by
      rw [hpc]
      nofun
    cases e with
    | run =>
      simp only [Kernel.step, hpc, Kernel.advance, Kernel.body] at hs
      obtain rfl := Option.some.inj hs
      refine Or.inr ?_
      show k.cur ∈ Function.update k.waiting (.queue q) (k.waiting (.queue q) ++ [k.cur]) (.queue q)
      rw [Function.update_self]
      exact List.mem_append_right _ List.mem_cons_self
    | timer =>
      obtain rfl := Option.some.inj hs
      exact Or.inl hpc
    | call | lock =>
      simp only [Kernel.step] at hs
      split_ifs at hs with hg
      exact absurd hg.2 hno
    | create | copy =>
      simp only [Kernel.step] at hs
      split_ifs at hs with hg
      exact absurd hg.1 hno
    | idle =>
      simp only [Kernel.step] at hs
      split_ifs at hs
      obtain rfl := Option.some.inj hs
      exact Or.inl hpc
  · obtain ⟨R', W', -, hE⟩ := h.step hs
    refine Or.inr ?_
    cases hE with
    | same hW hw' hq' => exact hw' ▸ hw
    | join o hW hw' hq' =>
      rw [hw']
      split_ifs with ho
      · exact List.mem_append_left _ (ho ▸ hw)
      · exact hw
    | wake o f L he hpc hL hf hW hw' hq' =>
      rw [hw', if_neg]
      · exact hw
      · rintro rfl
        exact hq k.cur (Or.inr hpc)

/-- A task keeps its queue as long as it is live. -/
theorem Procs.step_queue {e : ProcEvent} (h : ProcInv p R W) (hs : p.step e = some p') (ht : t ∈ p.kernel.tasks)
    (hl : p'.Live t) : (p'.sched.task t).waitQueue = (p.sched.task t).waitQueue := by
  cases e with
  | kernel e =>
    simp only [Procs.step] at hs
    split_ifs at hs
    obtain ⟨k, hk, rfl⟩ := Option.map_eq_some_iff.1 hs
    by_cases he : e.Creates
    · cases e with
      | create main t' q ring =>
        simp only [Kernel.step] at hk
        split_ifs at hk with hg
        obtain rfl := Option.some.inj hk
        exact congrArg (·.2.2) ((createTask_numbered p.sched q ring hg.2.1 hg.2.2.1).other t fun he => hg.2.2.2.2 (he ▸ ht))
      | copy t' nt q =>
        simp only [Kernel.step] at hk
        split_ifs at hk with hg
        obtain rfl := Option.some.inj hk
        have ht0 : t' ≠ NULL := h.sync.core.sched.ne_null hg.2.1
        exact congrArg (·.2.2) ((copyTask_numbered p.sched q ht0 hg.2.2.1).other t fun he => hg.2.2.2.2 (he ▸ ht))
      | call | lock | run | timer | idle => exact he.elim
    · exact (step_goesOn hk he).ids.waitQueue t
  | exec main t' q =>
    simp only [Procs.step] at hs
    split_ifs at hs with hg
    obtain rfl := Option.some.inj hs
    obtain ⟨⟨hlive, -⟩, hm, hfresh, -⟩ := hg
    have htt : t ≠ t' := fun he => hfresh.2.2 (he ▸ ht)
    have htc : t ≠ p.sched.currentTask := by
      rintro rfl
      exact hl.2.2 List.mem_cons_self
    have hc : t' ≠ p.sched.currentTask := fun he => hfresh.2.2 (he ▸ hlive.1)
    show ((execTask p.sched main t' q).task t).waitQueue = _
    rw [execTask_eq p.sched q hm hfresh.1 hc]
    dsimp only
    rw [Function.update_of_ne htc, Function.update_of_ne htt, (createTask_created p.sched q 3 hm hfresh.1).other t htt]
  | terminate =>
    simp only [Procs.step] at hs
    split_ifs at hs
    obtain rfl := Option.some.inj hs
    rfl

/-- **A task that waits for a live one** goes on waiting. -/
theorem waits_step {e : ProcEvent} {c : ℕ} (h : ProcInv p R W) (hs : p.step e = some p') (hl : p.Live t)
    (hq : (p.sched.task t).waitQueue = q) (hw : InWait p.kernel c q) : InWait p'.kernel c q := by
  cases e with
  | kernel e =>
    simp only [Procs.step] at hs
    split_ifs at hs
    obtain ⟨k, hk, rfl⟩ := Option.map_eq_some_iff.1 hs
    exact hw.step h.sync hk fun u hu => h.signals q u hu t hl.1 hl hq
  | exec main t' q' =>
    simp only [Procs.step] at hs
    split_ifs at hs
    obtain rfl := Option.some.inj hs
    exact hw
  | terminate =>
    simp only [Procs.step] at hs
    split_ifs at hs
    obtain rfl := Option.some.inj hs
    exact hw

/-- **The law of `find_task`** for the task `t`: its number finds it, and `wait` with this number, called by another task
that runs, waits on its queue as long as `t` is live. -/
structure FindLaw (p : Procs) (t : ℕ) : Prop where
  finds : ∃ fuel, findTask p.sched (p.sched.task t).pid fuel = some t
  waits : t ≠ p.kernel.cur → p.Calls → p.sched.state p.kernel.cur = .running →
    ∃ fuel q p₁, waitPid p.sched (p.sched.task t).pid fuel = some (.ok (.wait q)) ∧
      p.step (.kernel (.call (.wait q))) = some p₁ ∧
        ∀ p₂, Reach (· = p₁) Procs.step (fun p _ => p.Live t) p₂ → p₂.Waits p.kernel.cur q

/-- A task that is found is waited for. -/
theorem ProcInv.findLaw (h : ProcInv p R W) (hl : p.Live t)
    (hf : ∃ fuel, findTask p.sched (p.sched.task t).pid fuel = some t) : FindLaw p t := by
  refine ⟨hf, fun htc hcalls hrun => ?_⟩
  obtain ⟨fuel, hf⟩ := hf
  have ht0 : t ≠ NULL := h.sync.core.sched.ne_null hl.1
  have hq0 := h.queue_ne t hl
  set q := (p.sched.task t).waitQueue with hq
  set k₁ : Kernel := { p.kernel with sched := lockTaskSwitches p.kernel.sched }.setPc p.kernel.cur
    (.call .body (.wait q)) with hk₁
  have hstep : p.kernel.step (.call (.wait q)) = some k₁ := by
    simp only [Kernel.step, Kernel.enter]
    rw [if_pos ⟨hcalls.2.2, hcalls.2.1⟩, if_neg hq0, if_pos (show p.kernel.sched.state p.kernel.cur = .running from hrun)]
  have hp₁ : p.step (.kernel (.call (.wait q))) = some ⟨k₁, p.gone⟩ := by
    simp only [Procs.step, Procs.Allowed, if_true, hstep, Option.map_some]
  have hk₁pc : k₁.pc p.kernel.cur = .call .body (.wait q) := Function.update_self _ _ _
  refine ⟨fuel, q, _, ?_, hp₁, fun p₂ hp₂ => ?_⟩
  · unfold waitPid
    rw [hf, Option.map_some, if_neg ht0]
  · have hinv : (∃ R W, ProcInv p₂ R W) ∧ (p₂.Live t → (p₂.sched.task t).waitQueue = q) ∧
        InWait p₂.kernel p.kernel.cur q := by
      refine hp₂.inv (I := fun p₂ => (∃ R W, ProcInv p₂ R W) ∧ (p₂.Live t → (p₂.sched.task t).waitQueue = q) ∧
        InWait p₂.kernel p.kernel.cur q) ?_ ?_
      · rintro p₂ rfl
        exact ⟨h.step hp₁, fun _ => rfl, Or.inl hk₁pc⟩
      · rintro p₂ e p₃ ⟨⟨R, W, h₂⟩, hq₂, hw₂⟩ hl₂ hs
        exact ⟨h₂.step hs, fun hl₃ => (Procs.step_queue h₂ hs hl₂.1 hl₃).trans (hq₂ hl₂),
          waits_step h₂ hs hl₂ (hq₂ hl₂) hw₂⟩
    obtain ⟨⟨R, W, h₂⟩, -, hw₂⟩ := hinv
    exact h₂.waits hw₂

/-- **When a live user task is found.** In every run, `find_task` finds it, and `wait` blocks until it is gone, iff the task
is current, or not blocked and no task with the same number is ahead of it. -/
theorem find_task_iff (hs : Reach ProcsInit Procs.step Any p) (hl : p.Live t) : FindLaw p t ↔ p.Findable t := by
  obtain ⟨R, W, h⟩ := reach_procInv hs fun _ hp => hp.inv
  rw [← h.finds_iff hl]
  exact ⟨FindLaw.finds, h.findLaw hl⟩

/-! ## Runs -/

/-- The machine after `init_scheduler`. -/
def bootedProcs : Procs := ⟨bootedKernel, []⟩

theorem procsInit_booted : ProcsInit bootedProcs :=
  ⟨⟨_, syncInit_booted⟩, rfl, ⟨by decide, rfl⟩, by decide, rfl⟩

/-- Two user tasks are created, and the boot task blocks. The second one, which has the number 1, is the first of the
list, and becomes current. -/
def twoProcs : List ProcEvent :=
  [.kernel (.create 12 4 13 1), .kernel (.create 12 5 14 1), .kernel (.call (.wait 7))] ++ List.replicate 6 (.kernel .run)

/-- The second task is current, and is found. -/
theorem find_task_iff_current : ∃ p, Reach ProcsInit Procs.step Any p ∧ p.Live 5 ∧ FindLaw p 5 := by
  have hrun : (run Procs.step (fun _ _ => true) bootedProcs twoProcs).map
      (fun p => (p.kernel.cur, decide (p.Live 5))) = some (5, true) := by decide +kernel
  obtain ⟨p, hp, hp'⟩ := Option.map_eq_some_iff.1 hrun
  obtain ⟨hc, hl⟩ := Prod.mk.inj hp'
  have hs : Reach ProcsInit Procs.step Any p := (Reach.init procsInit_booted).run (fun _ _ _ => trivial) _ hp
  have hl := of_decide_eq_true hl
  exact ⟨p, hs, hl, (find_task_iff hs hl).2 (Or.inl hc.symm)⟩

/-- **A live task that is not found.** The second task waits on a queue, and the first one looks for it: `wait` returns an
error. -/
theorem find_task_missed : ∃ p, Reach ProcsInit Procs.step Any p ∧ p.Live 5 ∧ (p.sched.task 5).pid = 1 ∧
    p.kernel.cur = 4 ∧ waitPid p.sched 1 8 = some (.error (-ERR_INVALID_PARAM)) ∧ ¬ FindLaw p 5 := by
  have hrun : (run Procs.step (fun _ _ => true) bootedProcs
      (twoProcs ++ .kernel (.call (.wait 8)) :: List.replicate 6 (.kernel .run))).map
      (fun p => (decide (p.Live 5), (p.sched.task 5).pid, p.sched.state 5, p.kernel.cur, findTask p.sched 1 8)) =
        some (true, 1, .block, 4, some NULL) := by decide +kernel
  obtain ⟨p, hp, hp'⟩ := Option.map_eq_some_iff.1 hrun
  simp only [Prod.mk.injEq] at hp'
  obtain ⟨hl, hpid, hst, hc, hf⟩ := hp'
  have hs : Reach ProcsInit Procs.step Any p := (Reach.init procsInit_booted).run (fun _ _ _ => trivial) _ hp
  have hl := of_decide_eq_true hl
  obtain ⟨R, W, h⟩ := reach_procInv hs fun _ hp => hp.inv
  refine ⟨p, hs, hl, hpid, hc, ?_, fun hlaw => ?_⟩
  · unfold waitPid
    rw [hf, Option.map_some, if_pos rfl]
  · rcases (h.finds_iff hl).1 hlaw.finds with h5 | h5
    · rw [hc] at h5
      cases h5
    · exact h5.1 hst

end Nettapus
