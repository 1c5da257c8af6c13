import Nettapus.Lib.Runs
import Nettapus.Proof.VfsFd

/-!
# Runs of the virtual file system

`step_refines` says that a step with the guard is a step of the kernel, and `step_inv` that it keeps the invariant. So
in a run of the kernel in which the guard would never have stopped a step, what is in use is in memory, and the counters
are right.
-/

namespace Nettapus.Vfs

open Runs

variable {W : World} {may : Vfs → Hazard → Bool} {s s' : Vfs} {c : Bool}

/-! ## The guard -/

theorem vfsDirLoadList_refines (d : ℕ) : Refines (s.vfsDirLoadList W may d) (s.vfsDirLoadList W always d) :=
  .guard (.refl _)

theorem vfsLoadFolderAt_refines (p i : ℕ) (t : Tnode) :
    Refines (s.vfsLoadFolderAt W may p i t) (s.vfsLoadFolderAt W always p i t) :=
  .ite ((vfsDirLoadList_refines p).map _) ((Refines.refl _).bind fun _ => (vfsDirLoadList_refines _).map _)

theorem vfsLoadFileAt_refines (p i : ℕ) (t : Tnode) :
    Refines (s.vfsLoadFileAt W may p i t) (s.vfsLoadFileAt W always p i t) :=
  .ite ((vfsDirLoadList_refines p).map _) (.refl _)

theorem walkDirs_refines (cur : ℕ) (arr : List (List UInt8)) :
    Refines (walkDirs W may s cur arr) (walkDirs W always s cur arr) := by
  induction arr generalizing s cur with
  | nil => exact .refl _
  | cons name rest ih =>
    cases rest with
    | nil => exact .refl _
    | cons next rest =>
      simp only [walkDirs]
      split
      · exact .refl _
      · refine .ite ((vfsLoadFolderAt_refines _ _ _).bind fun _ => .ite (.refl _) (ih _)) (ih _)

theorem loadedVnode_refines (file node : ℕ) :
    Refines (s.loadedVnode W may file node) (s.loadedVnode W always file node) :=
  .ite (.guard (.refl _)) (.refl _)

theorem searchLast_refines (cur : ℕ) (name : List UInt8) :
    Refines (s.searchLast W may cur name) (s.searchLast W always cur name) := by
  unfold searchLast
  split
  · exact .ite ((vfsLoadFileAt_refines _ _ _).bind fun _ => loadedVnode_refines _ _) (.refl _)
  · split
    · exact .refl _
    · exact .ite ((vfsLoadFolderAt_refines _ _ _).bind fun _ => loadedVnode_refines _ _) (.refl _)

theorem vfsSearchVnode_refines (t : VfsTask) (prev : UInt8) (path : List UInt8) :
    Refines (s.vfsSearchVnode W may t prev path) (s.vfsSearchVnode W always t prev path) := by
  refine (Refines.refl _).bind fun arr => ?_
  simp only
  split
  · exact .refl _
  · refine (walkDirs_refines _ _).bind fun ⟨dir, s⟩ => ?_
    cases dir with
    | none => exact .refl _
    | some r => exact searchLast_refines _ _

theorem createVnode_refines (par : ℕ) : Refines (s.createVnode W may par) (s.createVnode W always par) :=
  .guard ((Refines.refl _).bind fun _ => (vfsDirLoadList_refines _).map _)

theorem mknodeFile_refines (prev : UInt8) (path : List UInt8) :
    Refines (s.mknodeFile W may prev path) (s.mknodeFile W always prev path) := by
  refine (Refines.refl _).bind fun arr => ?_
  simp only
  split
  · exact .refl _
  · refine (walkDirs_refines _ _).bind fun ⟨dir, s⟩ => ?_
    cases dir with
    | none => exact .refl _
    | some r =>
      simp only
      split
      · exact .refl _
      · exact createVnode_refines _

variable (i : ℕ) (t : VfsTask)

theorem kopen_refines (prev : UInt8) (path : List UInt8) (mode : ℕ) :
    Refines (s.kopen W may i t prev path mode) (s.kopen W always i t prev path mode) :=
  (vfsSearchVnode_refines t prev path).bind fun _ =>
    (Refines.ite ((mknodeFile_refines prev path).map _) (.refl _)).map _

theorem readEntry_refines {moved : VfsTask} {load load' : Vfs → ℕ → Tnode → Option (ℕ × Vfs)} (l : List Tnode) (k : ℕ)
    (h : ∀ s k e, Refines (load s k e) (load' s k e)) :
    Refines (s.readEntry i moved load l k) (s.readEntry i moved load' l k) :=
  .ite (.refl _) ((Refines.refl _).bind fun _ => .ite ((h _ _ _).map _) (.refl _))

theorem kread_refines (fd : ℤ) (amount : ℕ) :
    Refines (s.kread W may i t fd amount) (s.kread W always i t fd amount) := by
  unfold kread
  split
  · exact .refl _
  split
  · exact .refl _
  refine .ite (.ite (.refl _) (.ite ?_ ?_)) (.refl _)
  · exact readEntry_refines i _ _ fun s k e => vfsLoadFolderAt_refines _ _ _
  · exact readEntry_refines i _ _ fun s k e => vfsLoadFileAt_refines _ _ _

theorem kchdir_refines (prev : UInt8) (path : List UInt8) :
    Refines (s.kchdir W may i t prev path) (s.kchdir W always i t prev path) :=
  (vfsSearchVnode_refines t prev path).map _

theorem terminateTask_refines : Refines (s.terminateTask may i t) (s.terminateTask always i t) := .guard (.refl _)

/-- **A step with a guard is a step of the kernel.** -/
theorem step_refines (e : ℕ × VfsCall) : Refines (s.step W may e) (s.step W always e) := by
  obtain ⟨i, call⟩ := e
  unfold step
  split
  · exact .refl _
  refine .ite ?_ (.refl _)
  cases call with
  | «open» prev path mode => exact (kopen_refines i _ prev path mode).map _
  | read fd amount => exact kread_refines i _ fd amount
  | chdir prev path => exact (kchdir_refines i _ prev path).map _
  | exec => exact terminateTask_refines i _
  | exit => exact terminateTask_refines i _
  | pipe => exact .refl _
  | close fd => exact .refl _
  | fork => exact .refl _
  | create => exact .refl _

/-- **A step with the guard keeps the invariant.** -/
theorem step_inv {e : ℕ × VfsCall} (h : s.Inv c) (hr : s.step W (careful c) e = some s') : s'.Inv c := by
  obtain ⟨i, call⟩ := e
  unfold step at hr
  split at hr
  · cases hr
  rename_i t ht
  split_ifs at hr with halive
  cases call with
  | «open» prev path mode =>
    obtain ⟨⟨r, s₁⟩, h1, h2⟩ := Option.map_eq_some_iff.1 hr
    cases h2
    exact h.kopen ht h1
  | pipe =>
    obtain ⟨⟨r, s₁⟩, h1, h2⟩ := Option.map_eq_some_iff.1 hr
    cases h2
    exact h.kpipeu ht h1
  | close fd =>
    obtain rfl := Option.some.inj hr
    exact h.kclose ht
  | read fd amount => exact h.kread ht hr
  | chdir prev path =>
    obtain ⟨⟨r, s₁⟩, h1, h2⟩ := Option.map_eq_some_iff.1 hr
    cases h2
    exact h.kchdir ht h1
  | fork =>
    obtain rfl := Option.some.inj hr
    exact h.copyTask ht
  | exec => exact h.exec ht hr
  | exit => exact h.terminateTask ht hr
  | create =>
    obtain rfl := Option.some.inj hr
    refine h.retask (fun u hu d hd => ?_) (fun u hu hn => ?_) fun a => ?_
    · rcases List.mem_append.1 hu with hu | hu
      · exact ⟨u, hu, d, hd, rfl, rfl⟩
      · obtain rfl := List.mem_singleton.1 hu
        cases hd
    · rcases List.mem_append.1 hu with hu | hu
      · exact h.refs.dir u hu hn
      · obtain rfl := List.mem_singleton.1 hu
        exact absurd rfl hn
    · rw [refCount_append, List.countP_nil]
      exact ⟨le_rfl, fun _ => rfl⟩

/-! ## Runs -/

/-- The state after the root was mounted: nothing is cached, and the tasks have opened nothing. -/
structure Booted (s : Vfs) : Prop where
  root : s.root ≠ NULL
  live : ∀ a, s.live a = if a = s.root then some .folder else none
  entries : ∀ t ∈ (s.folders s.root).subfiles ++ (s.folders s.root).subfolders, t.vnode = NULL
  streams : (s.folders s.root).streamsOpen = 0
  tasks : ∀ t ∈ s.tasks, t.fds = [] ∧ t.currentDir = NULL

theorem Booted.inv (h : s.Booted) (c : Bool) : s.Inv c := by
  have hlive : ∀ a k, s.live a = some k → a = s.root ∧ k = .folder := by
    intro a k hk
    rw [h.live] at hk
    split_ifs at hk with ha
    exact ⟨ha, (Option.some.inj hk).symm⟩
  have hsub : ∀ d e, ¬ s.Sub d e := by
    rintro d e ⟨hd, h0, t, ht, rfl⟩
    obtain ⟨rfl, -⟩ := hlive d _ hd
    exact h0 (h.entries t (List.mem_append_right _ ht))
  have hhas : ∀ d e, ¬ s.Has d e := by
    rintro d e ⟨hd, h0, t, ht, rfl⟩
    obtain ⟨rfl, -⟩ := hlive d _ hd
    exact h0 (h.entries t (List.mem_append_left _ ht))
  have hcount : ∀ a, refCount s.tasks a = 0 := by
    intro a
    refine Nat.eq_zero_of_not_pos fun hpos => ?_
    obtain ⟨t, ht, d, hd, -⟩ := refCount_pos_iff.1 hpos
    rw [(h.tasks t ht).1] at hd
    cases hd
  refine ⟨⟨?_, ?_, fun d e he => (hsub d e he).elim, fun d e he => (hhas d e he).elim, fun d d' e he => (hsub d e he).elim,
    fun d d' e he => (hhas d e he).elim, fun d => hsub d _, ⟨id, fun d e he => (hsub d e he).elim⟩, fun a k hk hf => ?_⟩,
    ⟨fun t ht d hd => ?_, fun t ht h0 => absurd (h.tasks t ht).2 h0, fun a ha => ?_⟩, fun a ha => ?_⟩
  · rw [h.live, if_neg h.root.symm]
  · rw [h.live, if_pos rfl]
  · exact absurd (hlive a k hk).2 hf
  · rw [(h.tasks t ht).1] at hd
    cases hd
  · obtain ⟨k, hk⟩ := Option.ne_none_iff_exists'.1 ha
    obtain ⟨rfl, rfl⟩ := hlive a k hk
    rw [hcount]
    refine ⟨Nat.zero_le _, fun _ => ?_⟩
    rw [Vfs.streams, if_pos hk, h.streams]
  · cases (hlive a _ ha).2

/-- The guard does not stop the step. -/
def Guarded (W : World) (c : Bool) (s : Vfs) (e : ℕ × VfsCall) : Prop := (s.step W (careful c) e).isSome = true

/-- **The invariant in every run that the guard lets through.** -/
theorem inv_of_reach (hs : Reach Booted (fun s e => s.step W always e) (Guarded W c) s) : s.Inv c := by
  refine hs.inv (fun s h => h.inv c) fun s e s' h hok hr => ?_
  obtain ⟨s₁, h1⟩ := Option.isSome_iff_exists.1 hok
  have h2 := step_refines e s₁ h1
  obtain rfl : s₁ = s' := Option.some.inj (h2.symm.trans hr)
  exact step_inv h h1

/-- The guard is right: a listing that is loaded again frees what is in use below. -/
theorem Inv.reload_frees {d : ℕ} (h : s.Inv c) (hd : s.live d = some .folder) (hq : ¬ s.Quiet d) :
    ∃ s', s.vfsDirLoadList W always d = some s' ∧ ∃ a, s'.Used a ∧ s'.live a = none := by
  obtain ⟨s₁, h1, hs⟩ := h.tree.frees hd
  unfold Quiet at hq
  push Not at hq
  obtain ⟨a, ha, hu⟩ := hq
  unfold Vfs.vfsDirLoadList
  rw [h1]
  refine ⟨_, rfl, a, ?_, hs.gone a ha⟩
  obtain ⟨t, ht, htu⟩ := hu
  exact ⟨t, hs.tasks ▸ ht, htu⟩

/-- Whatever is referred to is in memory. -/
def Loaded (s : Vfs) : Prop :=
  (∀ t ∈ s.tasks, (∀ d ∈ t.fds, s.live d.node ≠ none) ∧ (t.currentDir ≠ NULL → s.live t.currentDir ≠ none)) ∧
    ∀ d, s.live d = some .folder → ∀ e ∈ (s.folders d).subfiles ++ (s.folders d).subfolders,
      e.vnode ≠ NULL → s.live e.vnode ≠ none

/-- The counters are right, and a pipe is in memory as long as a descriptor refers to it. -/
def Accounted (s : Vfs) : Prop :=
  (∀ a, s.live a ≠ none → s.streams a = refCount s.tasks a) ∧ (∀ t ∈ s.tasks, ∀ d ∈ t.fds, s.live d.node ≠ none) ∧
    ∀ a, s.live a = some .pipe → 0 < refCount s.tasks a

/-! ## A file system with the file `a` and the directory `d` -/

/-- What the driver finds there, once the file `b` was created. -/
def sampleWorld : World where
  openat _ _ name := if name = [97] then 12 else if name = [100] then 13 else if name = [98] then 14 else 0
  listFiles _ inode := if inode = 2 then ⟨[[97], [98]], 2⟩ else ⟨[], 0⟩
  listFolders _ inode := if inode = 2 then ⟨[[100]], 1⟩ else ⟨[], 0⟩
  read _ := 0
  kmalloc n := 0x1000 + 0x100 * n
  garbage _ := 0
  stale _ := NULL

/-- The root, before, and one task. -/
def sampleVfs : Vfs where
  live a := if a = 0x800 then some .folder else none
  files _ := ⟨0, 0⟩
  folders _ := ⟨2, 0, [⟨[97], NULL⟩], [⟨[100], NULL⟩], 1, 1⟩
  root := 0x800
  tasks := [⟨true, [], NULL⟩]
  clock := 0

theorem sampleVfs_booted : sampleVfs.Booted := ⟨by decide, fun _ => rfl, by decide, rfl, by decide⟩

/-- What a run from there leads to. -/
theorem sample_run (test : Vfs → ℕ × VfsCall → Bool) {ok : Vfs → ℕ × VfsCall → Prop} {P : Vfs → Bool}
    (ht : ∀ s e, test s e = true → ok s e) (es : List (ℕ × VfsCall))
    (h : ((run (fun s e => s.step sampleWorld always e) test sampleVfs es).any P) = true) :
    ∃ s, Reach Booted (fun s e => s.step sampleWorld always e) ok s ∧ P s = true := by
  obtain ⟨s, hs, hP⟩ := (Option.any_eq_true _ _).1 h
  exact ⟨s, Reach.run (.init sampleVfs_booted) ht es hs, hP⟩

/-- **Open vnodes stay in memory**, if no listing is loaded again above them. -/
theorem vnodes_stay_loaded (W : World) {s : Vfs}
    (hs : Reach Booted (fun s e => s.step W always e) (Guarded W false) s) : s.Loaded := by
  have h := inv_of_reach hs
  refine ⟨fun t ht => ⟨fun d hd => ?_, fun h0 => ?_⟩, fun d hd e he h0 => ?_⟩
  · exact h.refs.used_live ⟨t, ht, .inl ⟨d, hd, rfl⟩⟩
  · exact h.refs.used_live ⟨t, ht, .inr ⟨h0, rfl⟩⟩
  · rcases List.mem_append.1 he with he | he
    · rw [h.tree.has d e.vnode ⟨hd, h0, e, he, rfl⟩]
      simp
    · rw [h.tree.sub d e.vnode ⟨hd, h0, e, he, rfl⟩]
      simp

/-- A task opens `a` and `d`, goes to `d`, reads the root and creates `b` in `d`. -/
theorem vnodes_stay_loaded_sample : ∃ s : Vfs, s.Loaded ∧
    (s.tasks.map fun t => (t.fds.map (·.node), t.currentDir)) = [([0x1100, 0x800, 0x1500], 0x1300)] := by
  obtain ⟨s, hs, hP⟩ := sample_run (fun s e => (s.step sampleWorld (careful false) e).isSome)
    (P := fun s => (s.tasks.map fun t => (t.fds.map (·.node), t.currentDir)) = [([0x1100, 0x800, 0x1500], 0x1300)])
    (fun _ _ h => h)
    [(0, .open 0 [47, 97] 0), (0, .open 0 [47] 0), (0, .open 0 [47, 100] 0), (0, .chdir 0 [47, 100]), (0, .read 1 64),
      (0, .close 2), (0, .open 0 [47, 100, 47, 98] 1)] (by decide)
  exact ⟨s, vnodes_stay_loaded sampleWorld hs, of_decide_eq_true hP⟩

/-- A task opens `a`, and creates `b` in the same directory. -/
theorem creation_frees_open_file :
    ∃ s, Reach Booted (fun s e => s.step sampleWorld always e) Any s ∧ ¬ s.Loaded := by
  obtain ⟨s, hs, hP⟩ := sample_run (fun _ _ => true)
    (P := fun s => ∃ t ∈ s.tasks, ∃ d ∈ t.fds, s.live d.node = none) (fun _ _ _ => trivial)
    [(0, .open 0 [47, 97] 0), (0, .open 0 [47, 98] 1)] (by decide)
  obtain ⟨t, ht, d, hd, hnone⟩ := of_decide_eq_true hP
  exact ⟨s, hs, fun h => (h.1 t ht).1 d hd hnone⟩

/-- **`streams_open` is the number of the descriptors**, and a pipe goes away with its last one. -/
theorem streams_are_counted (W : World) {s : Vfs}
    (hs : Reach Booted (fun s e => s.step W always e) (Guarded W true) s) : s.Accounted := by
  have h := inv_of_reach hs
  refine ⟨fun a ha => (h.refs.count a ha).2 rfl, fun t ht d hd => ?_, fun a ha => ?_⟩
  · exact h.refs.used_live ⟨t, ht, .inl ⟨d, hd, rfl⟩⟩
  · rw [← (h.refs.count a (by simp [ha])).2 rfl]
    exact h.pipes a ha

/-- A task opens `a` and a pipe, and forks; then both close the pipe, and the parent executes something else. -/
theorem streams_are_counted_sample : ∃ s : Vfs, s.Accounted ∧ s.streams 0x1100 = 2 ∧ s.live 0x1200 = none ∧
    (s.tasks.map fun t => t.fds.map (·.node)) = [[], [0x1100], [0x1100]] := by
  obtain ⟨s, hs, hP⟩ := sample_run (fun s e => (s.step sampleWorld (careful true) e).isSome)
    (P := fun s => s.streams 0x1100 = 2 ∧ s.live 0x1200 = none ∧
      (s.tasks.map fun t => t.fds.map (·.node)) = [[], [0x1100], [0x1100]])
    (fun _ _ h => h)
    [(0, .open 0 [47, 97] 0), (0, .pipe), (0, .fork), (0, .close 1), (0, .close 2), (1, .close 1), (1, .close 2), (0, .exec)]
    (by decide)
  exact ⟨s, streams_are_counted sampleWorld hs, of_decide_eq_true hP⟩

/-- A task opens a pipe and exits. -/
theorem exit_leaks_pipe :
    ∃ s, Reach Booted (fun s e => s.step sampleWorld always e) Any s ∧ ¬ s.Accounted := by
  obtain ⟨s, hs, hP⟩ := sample_run (fun _ _ => true)
    (P := fun s => s.live 0x1000 ≠ none ∧ s.streams 0x1000 = 1 ∧ refCount s.tasks 0x1000 = 0) (fun _ _ _ => trivial)
    [(0, .pipe), (0, .exit)] (by decide)
  obtain ⟨hlive, hstreams, hcount⟩ := of_decide_eq_true hP
  refine ⟨s, hs, fun h => ?_⟩
  have := h.1 0x1000 hlive
  omega

end Nettapus.Vfs
