import Nettapus.Proof.TaskIds

/-!
# The numbers of live tasks

A new task has the next number (`Numbered`). `PidInv` says that the live user tasks have different numbers below
`last_pid`. `ProcInv` adds the invariant of the kernel, and that nobody signals the queue of a live task.

`reach_procInv`: it holds in every run of processes.
-/

namespace Nettapus

open Links Sched Runs

variable {s s' s'' : Sched} {k k' : Kernel} {e : Event} {t u q : ℕ} {T G R : List ℕ} {W : Obj → List ℕ}

/-! ## New tasks -/

/-- A new task at `t`: it has the next number, or is a task of the kernel without one. -/
structure Numbered (s s' : Sched) (t q : ℕ) : Prop where
  other : ∀ u ≠ t, (s'.task u).ids = (s.task u).ids
  queue : (s'.task t).waitQueue = q
  number : (s'.task t).ring = 0 ∧ s'.lastPid = s.lastPid ∨
    (s'.task t).pid = s.lastPid ∧ s'.lastPid = u64 (s.lastPid + 1)

theorem SameIds.numbered (h : SameIds s' s'') (hn : Numbered s s' t q) : Numbered s s'' t q := by
  refine ⟨fun u hu => (h.ids u).trans (hn.other u hu), (h.waitQueue t).trans hn.queue, ?_⟩
  rw [h.ring, h.pid, h.lastPid]
  exact hn.number

theorem SameIds.link (s : Sched) (t : ℕ) : SameIds s (linkTask s t) := by
  unfold linkTask
  split_ifs
  · exact (SameIds.setNext s t s.firstTask).trans (.of_task rfl rfl)
  · exact .of_task rfl rfl

/-- The scheduler when `create_task` is about to link the task. -/
def filledTask (s : Sched) (t q ring : ℕ) : Sched :=
  { s with
    task := Function.update s.task t (initialiseTask ring ⟨0, .zero, 0, if ring ≠ 0 then s.lastPid else 0, q, NULL⟩)
    schedLock := s.schedLock + 1
    lastPid := if ring ≠ 0 then u64 (s.lastPid + 1) else s.lastPid }

theorem createTask_eq (s : Sched) {main : ℕ} (q ring : ℕ) (hm : main ≠ NULL) (ht : t ≠ NULL) :
    (createTask s main t q ring).2 = unlockScheduler (linkTask (filledTask s t q ring) t) := by
  unfold createTask filledTask
  rw [if_neg hm, if_neg ht]
  dsimp only
  split_ifs <;> simp [Sched.modify, lockScheduler]

theorem createTask_numbered (s : Sched) {main : ℕ} (q ring : ℕ) (hm : main ≠ NULL) (ht : t ≠ NULL) :
    Numbered s (createTask s main t q ring).2 t q := by
  have h : SameIds (filledTask s t q ring) (createTask s main t q ring).2 := by
    rw [createTask_eq s q ring hm ht]
    exact (SameIds.link _ t).trans (.unlock _)
  refine h.numbered ⟨fun u hu => ?_, ?_, ?_⟩
  · simp [filledTask, hu]
  · simp [filledTask, initialiseTask]
  · by_cases hr : ring = 0
    · exact Or.inl (by simp [filledTask, initialiseTask, hr])
    · exact Or.inr (by simp [filledTask, initialiseTask, hr])

theorem copyTask_numbered (s : Sched) {nt : ℕ} (q : ℕ) (ht : t ≠ NULL) (hnt : nt ≠ NULL) :
    Numbered s (copyTask s t nt q).2 nt q := by
  set s₁ : Sched := { (lockScheduler s).modify nt (fun _ => { s.task t with
      next := NULL, ticksRemaining := TASK_DEFAULT_TIME, state := .ready, pid := s.lastPid,
      waitQueue := q }) with lastPid := u64 (s.lastPid + 1) } with hs₁
  have h₁ : Numbered s s₁ nt q := by
    refine ⟨fun u hu => ?_, ?_, Or.inr ⟨?_, rfl⟩⟩
    · simp [hs₁, task_modify, hu, lockScheduler]
    · simp [hs₁, task_modify]
    · simp [hs₁, task_modify]
  have h : SameIds s₁ (copyTask s t nt q).2 := by
    unfold copyTask
    rw [if_neg ht, if_neg hnt]
    show SameIds s₁ (unlockScheduler (if s.firstTask = NULL then _ else _))
    refine SameIds.trans ?_ (.unlock _)
    split_ifs
    · exact .of_task rfl rfl
    · exact .push s₁ nt
  exact h.numbered h₁

/-- The lock that `exec` holds does not change what `create_task` does. -/
theorem createTask_lock (s : Sched) {main : ℕ} (q ring : ℕ) (hm : main ≠ NULL) (ht : t ≠ NULL) :
    (createTask (lockScheduler s) main t q ring).2 = lockScheduler (createTask s main t q ring).2 := by
  rw [createTask_eq _ q ring hm ht, createTask_eq _ q ring hm ht, unlockScheduler_eq, unlockScheduler_eq]
  have hf : (filledTask (lockScheduler s) t q ring).firstTask = (filledTask s t q ring).firstTask := rfl
  unfold linkTask
  rw [hf]
  split_ifs <;> rfl

/-- What `exec` makes of the scheduler that `create_task` leaves. -/
theorem execTask_eq (s : Sched) {main : ℕ} (q : ℕ) (hm : main ≠ NULL) (ht : t ≠ NULL) (hc : t ≠ s.currentTask) :
    execTask s main t q =
      let c := (createTask s main t q 3).2
      let oldt := s.currentTask
      { c with task := Function.update (Function.update c.task t { c.task t with
          pid := (c.task oldt).pid, waitQueue := (c.task oldt).waitQueue }) oldt { c.task oldt with waitQueue := NULL } } := by
  unfold execTask
  dsimp only
  rw [createTask_lock s q 3 hm ht, unlockScheduler_eq]
  have hcur : (lockScheduler s).currentTask = s.currentTask := rfl
  simp [Sched.modify, lockScheduler, hc.symm]

/-! ## The numbers of live tasks -/

/-- Every task of a user has a number that was given out, and the live ones have different numbers. At most one number
was given out for each task, apart from the three of the kernel. -/
structure PidInv (s : Sched) (T G : List ℕ) : Prop where
  nodup : T.Nodup
  count : s.lastPid + 3 ≤ T.length
  lt : ∀ t ∈ T, (s.task t).ring ≠ 0 → (s.task t).pid < s.lastPid
  unique : ∀ t ∈ T, ∀ u ∈ T, (s.task t).ring ≠ 0 → (s.task u).ring ≠ 0 → t ∉ G → u ∉ G →
    (s.task t).pid = (s.task u).pid → t = u

namespace PidInv

theorem sameIds (h : PidInv s T G) (hi : SameIds s s') : PidInv s' T G := by
  refine ⟨h.nodup, hi.lastPid ▸ h.count, fun t ht => ?_, fun t ht u hu => ?_⟩
  · rw [hi.ring, hi.pid, hi.lastPid]
    exact h.lt t ht
  · rw [hi.ring, hi.ring, hi.pid, hi.pid]
    exact h.unique t ht u hu

theorem die (h : PidInv s T G) (t : ℕ) : PidInv s T (t :: G) := by
  refine ⟨h.nodup, h.count, h.lt, fun t' ht' u hu hr hr' hg hg' => h.unique t' ht' u hu hr hr' ?_ ?_⟩
  · exact fun hm => hg (List.mem_cons_of_mem _ hm)
  · exact fun hm => hg' (List.mem_cons_of_mem _ hm)

/-- **A new task** gets a number that no other task has. -/
theorem add (h : PidInv s T G) (hn : Numbered s s' t q) (ht : t ∉ T) (hlen : T.length < 2 ^ 64) : PidInv s' (t :: T) G := by
  have hne : ∀ u ∈ T, u ≠ t := fun u hu he => ht (he ▸ hu)
  have hring : ∀ u ∈ T, (s'.task u).ring = (s.task u).ring := fun u hu => congrArg (·.1) (hn.other u (hne u hu))
  have hpid : ∀ u ∈ T, (s'.task u).pid = (s.task u).pid := fun u hu => congrArg (·.2.1) (hn.other u (hne u hu))
  have hcount := h.count
  have hnext : u64 (s.lastPid + 1) = s.lastPid + 1 := u64_of_lt (by omega)
  -- the numbers of the tasks there were are below the next one
  have hlast : s.lastPid ≤ s'.lastPid ∧ s'.lastPid ≤ s.lastPid + 1 := by
    rcases hn.number with ⟨-, h2⟩ | ⟨-, h2⟩ <;> omega
  have hnew : (s'.task t).ring ≠ 0 → (s'.task t).pid = s.lastPid ∧ s'.lastPid = s.lastPid + 1 := by
    intro hr
    rcases hn.number with ⟨h1, -⟩ | ⟨h1, h2⟩
    · exact absurd h1 hr
    · exact ⟨h1, h2.trans hnext⟩
  have hfresh : ∀ u ∈ T, (s'.task u).ring ≠ 0 → (s'.task t).ring ≠ 0 → (s'.task u).pid ≠ (s'.task t).pid := by
    intro u hu hr hrt
    rw [hring u hu] at hr
    have := h.lt u hu hr
    rw [hpid u hu, (hnew hrt).1]
    omega
  refine ⟨List.nodup_cons.2 ⟨ht, h.nodup⟩, ?_, fun u hu hr => ?_, fun u hu v hv hr hr' hg hg' he => ?_⟩
  · rw [List.length_cons]
    omega
  · rcases List.mem_cons.1 hu with rfl | hu
    · have := hnew hr
      omega
    · rw [hring u hu] at hr
      have := h.lt u hu hr
      rw [hpid u hu]
      omega
  · rcases List.mem_cons.1 hu with rfl | huT
    · rcases List.mem_cons.1 hv with rfl | hvT
      · rfl
      · exact absurd he.symm (hfresh v hvT hr' hr)
    · rcases List.mem_cons.1 hv with rfl | hvT
      · exact absurd he (hfresh u huT hr hr')
      · rw [hring u huT] at hr
        rw [hring v hvT] at hr'
        rw [hpid u huT, hpid v hvT] at he
        exact h.unique u huT v hvT hr hr' hg hg' he

/-- **The number is handed on** from `t` to `u`. -/
theorem handOn (h : PidInv s T G) (ht : t ∈ T) (hr : (s.task t).ring ≠ 0) (hg : t ∉ G)
    (hring : ∀ v, (s'.task v).ring = (s.task v).ring) (hpid : ∀ v ≠ u, (s'.task v).pid = (s.task v).pid)
    (hu : (s'.task u).pid = (s.task t).pid) (hl : s'.lastPid = s.lastPid) : PidInv s' T (t :: G) := by
  -- a task that is still live does not have the number of `t`
  have hother : ∀ v ∈ T, (s.task v).ring ≠ 0 → v ∉ t :: G → (s.task v).pid ≠ (s.task t).pid := by
    intro v hv hrv hgv he
    simp only [List.mem_cons, not_or] at hgv
    exact hgv.1 (h.unique v hv t ht hrv hr hgv.2 hg he)
  refine ⟨h.nodup, hl ▸ h.count, fun v hv hrv => ?_, fun v hv w hw hrv hrw hgv hgw he => ?_⟩
  · rw [hring] at hrv
    rw [hl]
    by_cases hvu : v = u
    · rw [hvu, hu]
      exact h.lt t ht hr
    · rw [hpid v hvu]
      exact h.lt v hv hrv
  · rw [hring] at hrv hrw
    by_cases hvu : v = u
    · by_cases hwu : w = u
      · rw [hvu, hwu]
      · rw [hvu, hu, hpid w hwu] at he
        exact absurd he.symm (hother w hw hrw hgw)
    · by_cases hwu : w = u
      · rw [hwu, hu, hpid v hvu] at he
        exact absurd he (hother v hv hrv hgv)
      · rw [hpid v hvu, hpid w hwu] at he
        exact h.unique v hv w hw hrv hrw (fun hm => hgv (List.mem_cons_of_mem _ hm))
          (fun hm => hgw (List.mem_cons_of_mem _ hm)) he

end PidInv

/-! ## The invariant of processes -/

structure ProcInv (p : Procs) (R : List ℕ) (W : Obj → List ℕ) : Prop where
  sync : SyncInv p.kernel R W
  pids : PidInv p.sched p.kernel.tasks p.gone
  queue_ne : ∀ t, p.Live t → (p.sched.task t).waitQueue ≠ NULL
  signals : ∀ q u, (p.kernel.pc u).Signals q → p.Ownerless q

variable {p p' : Procs}

/-- A step that makes no task: nothing is said about who is live. -/
theorem live_of_goesOn (hk : GoesOn p.kernel k e) : (⟨k, p.gone⟩ : Procs).Live t ↔ p.Live t := by
  unfold Procs.Live
  rw [show (⟨k, p.gone⟩ : Procs).kernel.tasks = p.kernel.tasks from hk.tasks, show ((⟨k, p.gone⟩ : Procs).sched.task t).ring =
    (p.sched.task t).ring from hk.ids.ring t]

theorem ProcInv.goesOn {R' : List ℕ} {W' : Obj → List ℕ} (h : ProcInv p R W) (hk : GoesOn p.kernel k e)
    (ha : p.Allowed e) (hs : SyncInv k R' W') : ProcInv ⟨k, p.gone⟩ R' W' := by
  have hown : ∀ q, p.Ownerless q → (⟨k, p.gone⟩ : Procs).Ownerless q := by
    intro q hq t ht hl
    rw [show ((⟨k, p.gone⟩ : Procs).sched.task t).waitQueue = _ from hk.ids.waitQueue t]
    exact hq t (hk.tasks ▸ ht) ((live_of_goesOn hk).1 hl)
  have hpids : PidInv k.sched k.tasks p.gone := hk.tasks.symm ▸ h.pids.sameIds hk.ids
  refine ⟨hs, hpids, fun t ht => ?_, fun q u hq => hown q ?_⟩
  · rw [show ((⟨k, p.gone⟩ : Procs).sched.task t).waitQueue = _ from hk.ids.waitQueue t]
    exact h.queue_ne t ((live_of_goesOn hk).1 ht)
  · obtain ⟨c, hpc, hc⟩ := hk.pc
    have hq' : (Function.update p.kernel.pc p.kernel.cur c u).Signals q := hpc ▸ hq
    rw [Function.update_apply] at hq'
    split_ifs at hq' with hu
    · rcases hc q hq' with h1 | rfl
      · exact h.signals q _ h1
      · exact ha
    · exact h.signals q u hq'

/-- **A new task** comes with a queue that is not in use. -/
theorem ProcInv.numbered {R' : List ℕ} {W' : Obj → List ℕ} (h : ProcInv p R W)
    (hn : Numbered p.sched k.sched t q) (ht : p.kernel.Fresh t) (hq : p.NewQueue q) (hT : k.tasks = t :: p.kernel.tasks)
    (hpc : k.pc = p.kernel.pc) (hs : SyncInv k R' W') : ProcInv ⟨k, p.gone⟩ R' W' := by
  have hlen := h.sync.length_lt h.pids.nodup fun _ ht => ht
  have hids : ∀ u ∈ p.kernel.tasks, (k.sched.task u).ids = (p.sched.task u).ids :=
    fun u hu => hn.other u fun he => ht.2.2 (he ▸ hu)
  have hlive : ∀ u, (⟨k, p.gone⟩ : Procs).Live u → u ≠ t → p.Live u := by
    rintro u ⟨h1, h2, h3⟩ hut
    have hu : u ∈ p.kernel.tasks := (List.mem_cons.1 (hT ▸ h1)).resolve_left hut
    have hr : (k.sched.task u).ring = (p.sched.task u).ring := congrArg (·.1) (hids u hu)
    exact ⟨hu, fun h0 => h2 (hr.trans h0), h3⟩
  have hwq : ∀ u, (⟨k, p.gone⟩ : Procs).Live u → u ≠ t → (k.sched.task u).waitQueue = (p.sched.task u).waitQueue :=
    fun u hu hut => congrArg (·.2.2) (hn.other u hut)
  refine ⟨hs, ?_, fun u hu => ?_, fun q' u hq' v hv hl => ?_⟩
  · show PidInv k.sched k.tasks p.gone
    rw [hT]
    exact h.pids.add hn ht.2.2 hlen
  · show (k.sched.task u).waitQueue ≠ NULL
    by_cases hut : u = t
    · rw [hut, hn.queue]
      exact hq.1
    · rw [hwq u hu hut]
      exact h.queue_ne u (hlive u hu hut)
  · show (k.sched.task v).waitQueue ≠ q'
    have hq'' : (p.kernel.pc u).Signals q' := hpc ▸ hq'
    by_cases hvt : v = t
    · rw [hvt, hn.queue]
      rintro rfl
      -- a task in a call is one of the tasks
      have hu : u ∈ p.kernel.tasks := by
        by_contra hu
        rw [h.sync.core.fresh u hu] at hq''
        rcases hq'' with h1 | h1 <;> cases h1
      exact hq''.elim (hq.2.2 u hu).2.1 (hq.2.2 u hu).2.2
    · rw [hwq v hl hvt]
      exact h.signals q' u hq'' v (hlive v hl hvt).1 (hlive v hl hvt)

/-- A task that is gone is not live. -/
theorem ProcInv.die (h : ProcInv p R W) (t : ℕ) : ProcInv { p with gone := t :: p.gone } R W := by
  have hlive : ∀ u, ({ p with gone := t :: p.gone } : Procs).Live u → p.Live u :=
    fun u hu => ⟨hu.1, hu.2.1, fun hg => hu.2.2 (List.mem_cons_of_mem _ hg)⟩
  exact ⟨h.sync, h.pids.die t, fun u hu => h.queue_ne u (hlive u hu),
    fun q u hq v hv hl => h.signals q u hq v hv (hlive v hl)⟩

/-- **`exec`** hands the number and the queue of the current task on to the new one. -/
theorem ProcInv.exec {main : ℕ} (h : ProcInv p R W) (hc : p.Calls) (hm : main ≠ NULL) (ht : p.kernel.Fresh t)
    (hq : p.NewQueue q) : ∃ R' W', ProcInv ⟨{ p.kernel with sched := execTask p.sched main t q, tasks := t :: p.kernel.tasks },
      p.kernel.cur :: p.gone⟩ R' W' := by
  obtain ⟨hlive, hpc, -⟩ := hc
  set old := p.kernel.cur with hold
  have htc : t ≠ old := fun he => ht.2.2 (he ▸ hlive.1)
  -- the part that `create_task` does
  set k₁ : Kernel := { p.kernel with sched := (createTask p.sched main t q 3).2, tasks := t :: p.kernel.tasks } with hk₁
  have hn : Numbered p.sched k₁.sched t q := createTask_numbered p.sched q 3 hm ht.1
  have hstep : p.kernel.step (.create main t q 3) = some k₁ := if_pos ⟨hpc, hm, ht⟩
  obtain ⟨R', W', hs₁, -⟩ := h.sync.step hstep
  have h₁ : ProcInv ⟨k₁, p.gone⟩ R' W' := h.numbered hn ht hq rfl rfl hs₁
  have hcur : k₁.cur = old := (createTask_created p.sched q 3 hm ht.1).current
  have hold₁ : k₁.sched.task old = p.sched.task old := (createTask_created p.sched q 3 hm ht.1).other old htc.symm
  -- and the rest
  have heq := execTask_eq p.sched q hm ht.1 htc
  dsimp only at heq
  set s' := execTask p.sched main t q with hs'
  have htask : ∀ u, s'.task u = if u = old then { k₁.sched.task old with waitQueue := NULL }
      else if u = t then { k₁.sched.task t with
        pid := (k₁.sched.task old).pid, waitQueue := (k₁.sched.task old).waitQueue }
      else k₁.sched.task u := by
    intro u
    rw [heq]
    simp only [Function.update_apply]
    rfl
  have hring : ∀ u, (s'.task u).ring = (k₁.sched.task u).ring := by
    intro u
    rw [htask]
    split_ifs with h1 h2
    · rw [h1]
    · rw [h2]
    · rfl
  have hstate : ∀ u, s'.state u = k₁.sched.state u ∧ s'.next u = k₁.sched.next u := by
    intro u
    unfold Sched.state Sched.next
    rw [htask]
    split_ifs with h1 h2
    · rw [h1]
      exact ⟨rfl, rfl⟩
    · rw [h2]
      exact ⟨rfl, rfl⟩
    · exact ⟨rfl, rfl⟩
  have hpidt : (s'.task t).pid = (k₁.sched.task old).pid := by rw [htask, if_neg htc, if_pos rfl]
  have hqt : (s'.task t).waitQueue = (p.sched.task old).waitQueue := by rw [htask, if_neg htc, if_pos rfl, hold₁]
  have hpid : ∀ u ≠ t, (s'.task u).pid = (k₁.sched.task u).pid := by
    intro u hu
    rw [htask]
    split_ifs with h1
    · rw [h1]
    · rfl
  have hwq : ∀ u, u ≠ old → u ≠ t → (s'.task u).waitQueue = (k₁.sched.task u).waitQueue := by
    intro u h1 h2
    rw [htask, if_neg h1, if_neg h2]
  have hlive₁ : ∀ u, (⟨{ p.kernel with sched := s', tasks := t :: p.kernel.tasks }, old :: p.gone⟩ : Procs).Live u →
      u ≠ old ∧ (⟨k₁, p.gone⟩ : Procs).Live u := by
    rintro u ⟨h1, h2, h3⟩
    simp only [List.mem_cons, not_or] at h3
    exact ⟨h3.1, h1, fun h0 => h2 ((hring u).trans h0), h3.2⟩
  refine ⟨R', W', ?_, ?_, fun u hu => ?_, fun q' v hq' u hu hl => ?_⟩
  · have hcongr : SchedInv s' k₁.idle k₁.tasks R' := by
      refine hs₁.core.sched.congr ?_ ?_ ?_ (fun u => (hstate u).1) fun u _ => (hstate u).2
      · rw [heq]
      · rw [heq]
      · rw [heq]
    refine hs₁.quiet hcongr ?_ ?_ ?_ ?_ ((hstate _).1) (fun _ hu => hu) hs₁.core.addr fun o u _ => ⟨(hstate u).2, (hstate u).1⟩
    · rw [heq]
      rfl
    · rw [heq]
    · rw [heq]
    · rw [heq]
  · refine h₁.pids.handOn (u := t) (List.mem_cons_of_mem _ hlive.1) ?_ hlive.2.2 hring hpid hpidt ?_
    · show (k₁.sched.task old).ring ≠ 0
      rw [hold₁]
      exact hlive.2.1
    · show s'.lastPid = k₁.sched.lastPid
      rw [heq]
  · show (s'.task u).waitQueue ≠ NULL
    obtain ⟨huo, hu₁⟩ := hlive₁ u hu
    by_cases hut : u = t
    · rw [hut, hqt]
      exact h.queue_ne old hlive
    · rw [hwq u huo hut]
      exact h₁.queue_ne u hu₁
  · show (s'.task u).waitQueue ≠ q'
    obtain ⟨huo, hu₁⟩ := hlive₁ u hl
    by_cases hut : u = t
    · rw [hut, hqt]
      exact h.signals q' v hq' old hlive.1 hlive
    · rw [hwq u huo hut]
      exact h₁.signals q' v hq' u hu hu₁

/-- **Every step of processes keeps the invariant.** -/
theorem ProcInv.step {e : ProcEvent} (h : ProcInv p R W) (hs : p.step e = some p') : ∃ R' W', ProcInv p' R' W' := by
  cases e with
  | kernel e =>
    simp only [Procs.step] at hs
    split_ifs at hs with ha
    obtain ⟨k, hk, rfl⟩ := Option.map_eq_some_iff.1 hs
    obtain ⟨R', W', hsync, -⟩ := h.sync.step hk
    refine ⟨R', W', ?_⟩
    by_cases he : e.Creates
    · cases e with
      | create main t q ring =>
        simp only [Kernel.step] at hk
        split_ifs at hk with hg
        obtain rfl := Option.some.inj hk
        exact h.numbered (createTask_numbered p.sched q ring hg.2.1 hg.2.2.1) hg.2.2 ha rfl rfl hsync
      | copy t nt q =>
        simp only [Kernel.step] at hk
        split_ifs at hk with hg
        obtain rfl := Option.some.inj hk
        have ht0 : t ≠ NULL := h.sync.core.sched.ne_null hg.2.1
        exact h.numbered (copyTask_numbered p.sched q ht0 hg.2.2.1) hg.2.2 ha rfl rfl hsync
      | call | lock | run | timer | idle => exact he.elim
    · exact h.goesOn (step_goesOn hk he) ha hsync
  | exec main t q =>
    simp only [Procs.step] at hs
    split_ifs at hs with hg
    obtain rfl := Option.some.inj hs
    exact h.exec hg.1 hg.2.1 hg.2.2.1 hg.2.2.2
  | terminate =>
    simp only [Procs.step] at hs
    split_ifs at hs
    obtain rfl := Option.some.inj hs
    exact ⟨R, W, h.die _⟩

/-- The machine before the first process: only the three tasks of the kernel, and no number given out. -/
structure ProcsInit (p : Procs) : Prop where
  sync : ∃ m, SyncInit m p.kernel
  gone : p.gone = []
  tasks : p.kernel.tasks.Nodup ∧ p.kernel.tasks.length = 3
  ring : ∀ t ∈ p.kernel.tasks, (p.sched.task t).ring = 0
  lastPid : p.sched.lastPid = 0

theorem ProcsInit.inv (h : ProcsInit p) : ∃ R W, ProcInv p R W := by
  obtain ⟨m, hm⟩ := h.sync
  obtain ⟨R, hR⟩ := hm.inv
  have hpc : ∀ u, p.kernel.pc u = .user := by
    obtain ⟨-, c, -, -, hk⟩ := hm
    intro u
    rw [hk]
  have hno : ∀ t, ¬ p.Live t := fun t ht => ht.2.1 (h.ring t ht.1)
  refine ⟨R, _, hR, ⟨h.tasks.1, ?_, fun t ht hr => absurd (h.ring t ht) hr, fun t ht u _ hr => absurd (h.ring t ht) hr⟩,
    fun t ht => absurd ht (hno t), fun q u hq => ?_⟩
  · rw [h.lastPid, h.tasks.2]
  · rw [hpc u] at hq
    rcases hq with h1 | h1 <;> cases h1

theorem reach_procInv {init : Procs → Prop} {ok : Procs → ProcEvent → Prop} (hs : Reach init Procs.step ok p)
    (h0 : ∀ p, init p → ∃ R W, ProcInv p R W) : ∃ R W, ProcInv p R W := by
  refine hs.inv h0 fun p e p' hI _ hst => ?_
  obtain ⟨R, W, h⟩ := hI
  exact h.step hst

end Nettapus
