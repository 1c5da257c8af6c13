import Nettapus.Code.Fd
import Nettapus.Lib.Fresh
import Nettapus.Proof.VfsFork

/-!
# The numbers of the descriptors

The loop of `vfs_create_fd` looks for a number and for the end of the list at the same time. From the start of the
list it either passes through to the end, or meets the number and starts again with the next one
(`createFdLoop_passes`, `createFdLoop_meets`); a number is met at most once for each entry of the list, so that the loop
ends (`createFdLoop_eq`).

`create_fd_least`: the number is the least that is not in use, for every list. So the numbers of a task are distinct in
all states that the calls of the virtual file system lead to, whatever they do (`Numbered`).
-/

namespace Nettapus

open Fresh

variable {fds : List ℤ} {n k : ℕ} {i : ℤ}

/-! ## The loop -/

/-- A number that is not in the rest of the list. -/
theorem createFdLoop_passes (hk : k < fds.length) (hn : fds.length ≤ n + k) (h : i ∉ fds.drop k) :
    createFdLoop fds n k i = some (fds.length - 1, i) := by
  induction n generalizing k with
  | zero => omega
  | succ n ih =>
    rw [List.drop_eq_getElem_cons hk, List.mem_cons, not_or] at h
    rw [createFdLoop, List.getElem?_eq_getElem hk]
    dsimp only
    rw [if_neg fun he => h.1 he.symm]
    by_cases hlast : k + 1 = fds.length
    · rw [if_pos hlast, ← hlast, Nat.add_sub_cancel]
    · rw [if_neg hlast]
      exact ih (by omega) (by omega) h.2

/-- A number that is there: the loop starts again. -/
theorem createFdLoop_meets (hk : k < fds.length) (hn : fds.length ≤ n + k) (h : i ∈ fds.drop k) :
    ∃ m, n + k ≤ m + fds.length ∧ createFdLoop fds n k i = createFdLoop fds m 0 (i + 1) := by
  induction n generalizing k with
  | zero => omega
  | succ n ih =>
    rw [List.drop_eq_getElem_cons hk, List.mem_cons] at h
    rw [createFdLoop, List.getElem?_eq_getElem hk]
    dsimp only
    by_cases hi : fds[k] = i
    · rw [if_pos hi]
      exact ⟨n, by omega, rfl⟩
    · have hrest : i ∈ fds.drop (k + 1) := h.resolve_left fun he => hi he.symm
      have hlt : k + 1 < fds.length := by
        by_contra hge
        rw [List.drop_eq_nil_of_le (by omega)] at hrest
        exact absurd hrest List.not_mem_nil
      rw [if_neg hi, if_neg (by omega)]
      obtain ⟨m, hm, heq⟩ := ih hlt (by omega) hrest
      exact ⟨m, by omega, heq⟩

/-- **The loop ends**, at the end of the list and with the least number that is not in use. -/
theorem createFdLoop_eq {g : ℕ} (hfds : fds ≠ []) (hg : IsFresh fds g) : ∀ {j n : ℕ}, j ≤ g →
    (g - j + 1) * fds.length ≤ n → createFdLoop fds n 0 j = some (fds.length - 1, (g : ℤ)) := by
  have hlen : 0 < fds.length := List.length_pos_of_ne_nil hfds
  intro j n hj hn
  induction hd : g - j generalizing j n with
  | zero =>
    obtain rfl : j = g := by omega
    rw [hd, Nat.zero_add, Nat.one_mul] at hn
    exact createFdLoop_passes hlen (by omega) hg.notMem
  | succ d ih =>
    rw [hd, Nat.add_mul, Nat.one_mul] at hn
    obtain ⟨m, hm, heq⟩ := createFdLoop_meets hlen (show fds.length ≤ n + 0 by omega) (hg.mem j (by omega))
    have hd' : g - (j + 1) = d := by omega
    have hnext := @ih (j + 1) m (by omega) (by rw [hd']; omega) hd'
    rw [heq, ← hnext, Int.natCast_succ]

/-- **The new descriptor goes to the end of the list.** -/
theorem assignFd_eq (fds : List FileDescriptor) (newFd : FileDescriptor) : ∃ g : ℕ, IsFresh (fds.map (·.fd)) g ∧
    ∀ n, (fds.length + 1) * fds.length ≤ n → assignFd n fds newFd = some (fds ++ [{ newFd with fd := g }]) := by
  obtain ⟨g, hg⟩ := exists_isFresh (fds.map (·.fd))
  refine ⟨g, hg, fun n hn => ?_⟩
  have hle := hg.le_length
  rw [List.length_map] at hle
  unfold assignFd
  by_cases hfds : fds = []
  · rw [if_pos hfds]
    subst hfds
    obtain rfl : g = 0 := Nat.le_zero.1 hle
    rfl
  · have hlen : 0 < fds.length := List.length_pos_of_ne_nil hfds
    have hfuel : (g + 1) * fds.length ≤ (fds.length + 1) * fds.length := Nat.mul_le_mul_right _ (by omega)
    have hloop := @createFdLoop_eq _ g (mt List.map_eq_nil_iff.1 hfds) hg 0 n (Nat.zero_le g)
      (by rw [Nat.sub_zero, List.length_map]; omega)
    rw [Int.natCast_zero, List.length_map] at hloop
    rw [if_neg hfds, hloop, Option.map_some]
    dsimp only
    rw [Nat.sub_add_cancel hlen, List.take_length]

namespace Vfs

open Runs

variable {W : World} {may : Vfs → Hazard → Bool} {s s' : Vfs} {t t' : VfsTask} {i node file mode pos : ℕ}
  {ds : List Descriptor}

/-! ## What loads leaves the tasks alone -/

/-- The tasks are as before, if there is a result. -/
def SameTasks {β : Type} (s : Vfs) (f : β → Vfs) (o : Option β) : Prop := Yields False o fun b => (f b).tasks = s.tasks

theorem SameTasks.some {β : Type} {f : β → Vfs} {b : β} (h : (f b).tasks = s.tasks) : SameTasks s f (Option.some b) :=
  Yields.some h

theorem SameTasks.none {β : Type} {f : β → Vfs} : SameTasks s f (none : Option β) :=
  ⟨fun _ h => (Option.some_ne_none _ h.symm).elim, False.elim⟩

theorem SameTasks.ite {β : Type} {f : β → Vfs} {p : Prop} [Decidable p] {o o' : Option β} (h : SameTasks s f o)
    (h' : SameTasks s f o') : SameTasks s f (if p then o else o') := by
  split_ifs
  · exact h
  · exact h'

/-- One after the other. -/
theorem SameTasks.bind {β γ : Type} {f : β → Vfs} {g : γ → Vfs} {o : Option β} {k : β → Option γ} (h : SameTasks s f o)
    (hk : ∀ b, SameTasks (f b) g (k b)) : SameTasks s g (o.bind k) :=
  Yields.bind h fun b hb => ⟨fun c hc => ((hk b).1 c hc).trans hb, False.elim⟩

theorem SameTasks.map {β γ : Type} {f : β → Vfs} {g : γ → Vfs} {o : Option β} {k : β → γ} (h : SameTasks s f o)
    (hk : ∀ b, (g (k b)).tasks = (f b).tasks) : SameTasks s g (o.map k) :=
  Yields.map h fun b hb => (hk b).trans hb

theorem freeFiles_tasks (s : Vfs) (d : ℕ) : (s.freeFiles d).tasks = s.tasks := by
  have key : ∀ (l : List Tnode) (s : Vfs),
      (l.foldl (fun s t => if t.vnode = NULL then s else s.unload t.vnode) s).tasks = s.tasks := by
    intro l
    induction l with
    | nil => exact fun _ => rfl
    | cons e l ih =>
      intro s
      rw [List.foldl_cons, ih]
      split_ifs <;> rfl
  unfold freeFiles
  split_ifs
  · rfl
  · exact key _ s

theorem freeDirList_tasks (n d : ℕ) (s : Vfs) : SameTasks s id (freeDirList n s d) := by
  induction n generalizing s d with
  | zero => exact .none
  | succ n ih =>
    unfold freeDirList
    dsimp only
    refine .ite (.some (freeFiles_tasks s d)) (SameTasks.map (f := id) ?_ fun _ => rfl)
    refine ⟨fun s' h => foldlM_inv (J := fun s' => s'.tasks = s.tasks) ?_ (freeFiles_tasks s d) h, False.elim⟩
    rintro s₁ e s₂ - h₁ h₂
    split_ifs at h₂
    · rw [← Option.some.inj h₂]
      exact h₁
    · have hstep : SameTasks s₁ id ((freeDirList n s₁ e.vnode).map fun s => s.unload e.vnode) :=
        (ih e.vnode s₁).map fun _ => rfl
      exact (hstep.1 s₂ h₂).trans h₁

theorem vfsDirLoadList_tasks (s : Vfs) (d : ℕ) : SameTasks s id (s.vfsDirLoadList W may d) :=
  .ite ((freeDirList_tasks _ d s).map fun _ => rfl) .none

theorem alloc_tasks (s : Vfs) (kind : NodeKind) : SameTasks s Prod.snd (s.alloc W kind) := by
  unfold alloc
  dsimp only
  exact .ite .none (.some rfl)

theorem vfsLoadFolderAt_tasks (s : Vfs) (p k : ℕ) (e : Tnode) :
    SameTasks s Prod.snd (s.vfsLoadFolderAt W may p k e) := by
  refine .ite ((vfsDirLoadList_tasks s.tick p).map fun _ => rfl) ((alloc_tasks s.tick .folder).bind fun r => ?_)
  exact SameTasks.map (vfsDirLoadList_tasks _ _) fun _ => rfl

theorem vfsLoadFileAt_tasks (s : Vfs) (p k : ℕ) (e : Tnode) : SameTasks s Prod.snd (s.vfsLoadFileAt W may p k e) :=
  .ite ((vfsDirLoadList_tasks s.tick p).map fun _ => rfl) ((alloc_tasks s.tick .file).map fun _ => rfl)

theorem walkDirs_tasks (arr : List (List UInt8)) : ∀ (s : Vfs) (cur : ℕ),
    SameTasks s Prod.snd (walkDirs W may s cur arr) := by
  induction arr with
  | nil => exact fun s cur => .some rfl
  | cons name rest ih =>
    intro s cur
    cases rest with
    | nil => exact .some rfl
    | cons next rest =>
      simp only [walkDirs]
      split
      · exact .some rfl
      · exact .ite ((vfsLoadFolderAt_tasks s _ _ _).bind fun r => .ite (.some rfl) (ih _ _)) (ih s _)

theorem loadedVnode_tasks (s : Vfs) (file node : ℕ) :
    SameTasks s (fun r => r.2.2) (s.loadedVnode W may file node) :=
  .ite (.ite (.some rfl) .none) (.some rfl)

theorem searchLast_tasks (s : Vfs) (cur : ℕ) (name : List UInt8) :
    SameTasks s (fun r => r.2.2) (s.searchLast W may cur name) := by
  unfold searchLast
  split
  · exact .ite ((vfsLoadFileAt_tasks s _ _ _).bind fun r => loadedVnode_tasks _ _ _) (.some rfl)
  · split
    · exact .some rfl
    · exact .ite ((vfsLoadFolderAt_tasks s _ _ _).bind fun r => loadedVnode_tasks _ _ _) (.some rfl)

theorem vfsSearchVnode_tasks (s : Vfs) (t : VfsTask) (prev : UInt8) (path : List UInt8) :
    SameTasks s (fun r => r.2.2) (s.vfsSearchVnode W may t prev path) := by
  unfold vfsSearchVnode
  cases fsParsePath prev path with
  | none => exact .none
  | some arr =>
    simp only [Option.bind_some]
    split
    · exact .some rfl
    · refine (walkDirs_tasks _ s _).bind fun ⟨dir, s₁⟩ => ?_
      cases dir with
      | none => exact .some rfl
      | some r => exact searchLast_tasks s₁ _ _

theorem createVnode_tasks (s : Vfs) (par : ℕ) : SameTasks s Prod.snd (s.createVnode W may par) :=
  .ite ((alloc_tasks s .file).bind fun _ => (vfsDirLoadList_tasks _ par).map fun _ => rfl) .none

theorem mknodeFile_tasks (s : Vfs) (prev : UInt8) (path : List UInt8) :
    SameTasks s Prod.snd (s.mknodeFile W may prev path) := by
  unfold mknodeFile
  cases fsParsePath prev path with
  | none => exact .none
  | some arr =>
    simp only [Option.bind_some]
    split
    · exact .some rfl
    · refine (walkDirs_tasks _ s _).bind fun ⟨dir, s₁⟩ => ?_
      cases dir with
      | none => exact .some rfl
      | some r =>
        dsimp only
        split
        · exact .some rfl
        · exact createVnode_tasks s₁ _

/-! ## Distinct numbers -/

/-- **The numbers of each task are distinct.** -/
def Numbered (s : Vfs) : Prop := ∀ t ∈ s.tasks, (t.fds.map (·.fd)).Nodup

theorem Numbered.same (h : s.Numbered) (ht : s'.tasks = s.tasks) : s'.Numbered := by
  unfold Numbered
  rw [ht]
  exact h

theorem setTask_tasks : (s.setTask i t).tasks = s.tasks.set i t := rfl

theorem Numbered.set (h : s.Numbered) (t' : VfsTask) (ht' : (t'.fds.map (·.fd)).Nodup) (hs : s'.tasks = s.tasks.set i t') :
    s'.Numbered := by
  intro u hu
  rw [hs] at hu
  rcases List.mem_or_eq_of_mem_set hu with hu | rfl
  · exact h u hu
  · exact ht'

theorem Numbered.append (h : s.Numbered) (t : VfsTask) (ht : (t.fds.map (·.fd)).Nodup) (hs : s'.tasks = s.tasks ++ [t]) :
    s'.Numbered := by
  intro u hu
  rw [hs] at hu
  rcases List.mem_append.1 hu with hu | hu
  · exact h u hu
  · rw [List.mem_singleton.1 hu]
    exact ht

/-- The numbers, as the loop sees them. -/
def fdNumbers (ds : List Descriptor) : List ℤ := ds.map fun d => (d.fd : ℤ)

theorem mem_fdNumbers {j : ℕ} : (j : ℤ) ∈ fdNumbers ds ↔ (ds.any fun d => d.fd = j) = true := by
  simp only [fdNumbers, List.mem_map, List.any_eq_true, decide_eq_true_eq, Int.ofNat_inj]

/-- **`freeNumber` is the least number that is not in use.** -/
theorem freeNumber_isFresh (ds : List Descriptor) : IsFresh (fdNumbers ds) (freeNumber ds ds.length 0) := by
  obtain ⟨g, hg⟩ := exists_isFresh (fdNumbers ds)
  have hle := hg.le_length
  rw [fdNumbers, List.length_map] at hle
  rw [freeNumber_eq (fun j hj => mem_fdNumbers.1 (hg.mem j hj)) (mt mem_fdNumbers.2 hg.notMem) (Nat.zero_le g) (by omega)]
  exact hg

/-- A new descriptor has a new number. -/
theorem nodup_create (h : (ds.map (·.fd)).Nodup) (node file mode pos : ℕ) :
    ((ds ++ [(⟨node, file, freeNumber ds ds.length 0, pos, mode⟩ : Descriptor)]).map (·.fd)).Nodup := by
  have hnew : freeNumber ds ds.length 0 ∉ ds.map (·.fd) := by
    intro hmem
    obtain ⟨d, hd, he⟩ := List.mem_map.1 hmem
    exact (freeNumber_isFresh ds).notMem (List.mem_map.2 ⟨d, hd, congrArg _ he⟩)
  rw [List.map_append, List.nodup_append]
  refine ⟨h, List.nodup_singleton _, fun a ha b hb => ?_⟩
  rw [List.mem_singleton.1 hb]
  rintro rfl
  exact hnew ha

theorem Numbered.vfsCreateFd (h : s.Numbered) (ht : (t.fds.map (·.fd)).Nodup) :
    (s.vfsCreateFd i t node file mode pos).2.Numbered := by
  refine h.set (i := i) { t with fds := t.fds ++ [⟨node, file, freeNumber t.fds t.fds.length 0, pos, mode⟩] }
    (nodup_create ht node file mode pos) ?_
  unfold Vfs.vfsCreateFd
  dsimp only
  rw [setTask_tasks, openStream_tasks]

theorem closeStream_tasks : (s.closeStream node file).tasks = s.tasks := by
  unfold closeStream
  dsimp only
  split_ifs <;> rfl

theorem Numbered.kclose {fd : ℤ} (h : s.Numbered) (ht : t ∈ s.tasks) : (s.kclose i t fd).2.Numbered := by
  unfold Vfs.kclose
  split
  · exact h
  · exact h
  · split
    · exact h
    · rename_i k _ _ d _
      refine h.set (i := i) { t with fds := t.fds.eraseIdx (k + 1) } ?_ ?_
      · exact ((List.eraseIdx_sublist _ _).map _).nodup (h t ht)
      · dsimp only
        rw [setTask_tasks, closeStream_tasks]

theorem Numbered.closeAll {ds : List Descriptor} (h : s.Numbered) : (Vfs.closeAll i ds s).Numbered := by
  induction ds generalizing s with
  | nil => exact h
  | cons d ds ih =>
    unfold Vfs.closeAll
    split
    · exact h
    · rename_i ht
      exact ih (h.kclose (List.mem_of_getElem? ht))

theorem Numbered.copyFds {ds : List Descriptor} (h : s.Numbered) : (Vfs.copyFds i ds s).Numbered := by
  induction ds generalizing s with
  | nil => exact h
  | cons d ds ih =>
    unfold Vfs.copyFds
    split
    · exact h
    · rename_i ht
      exact ih (h.vfsCreateFd (h _ (List.mem_of_getElem? ht)))

theorem Numbered.terminateTask (h : s.Numbered) (hr : s.terminateTask may i t = some s') : s'.Numbered := by
  unfold Vfs.terminateTask at hr
  split_ifs at hr
  rw [← Option.some.inj hr]
  exact h.closeAll.set ⟨false, [], NULL⟩ List.nodup_nil rfl

theorem Numbered.kopen {r : ℤ × Vfs} {prev : UInt8} {path : List UInt8} (h : s.Numbered) (ht : t ∈ s.tasks)
    (hr : s.kopen W may i t prev path mode = some r) : r.2.Numbered := by
  obtain ⟨⟨node, file, s₁⟩, h1, hr⟩ := Option.bind_eq_some_iff.1 hr
  obtain ⟨⟨node', file', s₂⟩, h2, rfl⟩ := Option.map_eq_some_iff.1 hr
  have hs₁ : s₁.tasks = s.tasks := (vfsSearchVnode_tasks s t prev path).1 _ h1
  have hs₂ : s₂.tasks = s₁.tasks := by
    have hkeep : SameTasks s₁ (fun r : ℕ × ℕ × Vfs => r.2.2) (if node = NULL ∧ mode &&& O_CREAT ≠ 0 then
        (s₁.mknodeFile W may prev path).map fun r => (r.1, 1, r.2) else some (node, file, s₁)) :=
      .ite ((mknodeFile_tasks s₁ prev path).map fun _ => rfl) (.some rfl)
    exact hkeep.1 _ h2
  have hnum : s₂.Numbered := h.same (hs₂.trans hs₁)
  dsimp only
  split_ifs
  · exact hnum
  · exact hnum
  · exact hnum.vfsCreateFd (h t ht)

theorem Numbered.kpipeu {r : ℤ × Vfs} (h : s.Numbered) (ht : t ∈ s.tasks) (hr : s.kpipeu W i t = some r) :
    r.2.Numbered := by
  obtain ⟨⟨a, s₁⟩, h1, rfl⟩ := Option.map_eq_some_iff.1 hr
  have hs₁ : s₁.tasks = s.tasks := (alloc_tasks s .pipe).1 _ h1
  have hnum : (s₁.setFile a ⟨0, 0⟩).Numbered := h.same hs₁
  have hfirst : ((s₁.setFile a ⟨0, 0⟩).vfsCreateFd i t a 1 FD_READ 0).2.Numbered := hnum.vfsCreateFd (h t ht)
  exact hfirst.vfsCreateFd (nodup_create (h t ht) a 1 FD_READ 0)

/-- A descriptor that moves keeps its number. -/
theorem nodup_move {k n : ℕ} {d : Descriptor} (h : (ds.map (·.fd)).Nodup) (hd : ds[k]? = some d) :
    ((ds.set k { d with pos := n }).map (·.fd)).Nodup := by
  obtain ⟨hk, rfl⟩ := List.getElem?_eq_some_iff.1 hd
  rw [List.map_set]
  have hsame : (ds.map (·.fd)).set k ds[k].fd = ds.map (·.fd) := by
    rw [← List.getElem_map (fun d : Descriptor => d.fd) (h := by rwa [List.length_map])]
    exact List.set_getElem_self _
  have hfd : { ds[k] with pos := n }.fd = ds[k].fd := rfl
  rw [hfd, hsame]
  exact h

theorem Numbered.readEntry {load : Vfs → ℕ → Tnode → Option (ℕ × Vfs)} {l : List Tnode} {k : ℕ} (h : s.Numbered)
    (ht' : (t'.fds.map (·.fd)).Nodup) (hload : ∀ s k e, SameTasks s Prod.snd (load s k e))
    (hr : s.readEntry i t' load l k = some s') : s'.Numbered := by
  unfold Vfs.readEntry at hr
  split_ifs at hr with hlen
  · rw [← Option.some.inj hr]
    exact h
  obtain ⟨e, -, hr⟩ := Option.bind_eq_some_iff.1 hr
  have hmoved : (s.setTask i t').Numbered := h.set t' ht' rfl
  dsimp only at hr
  split_ifs at hr
  · obtain ⟨r, h1, rfl⟩ := Option.map_eq_some_iff.1 hr
    exact hmoved.same ((hload _ _ _).1 r h1)
  · rw [← Option.some.inj hr]
    exact hmoved

theorem Numbered.kread {fd : ℤ} {amount : ℕ} (h : s.Numbered) (ht : t ∈ s.tasks)
    (hr : s.kread W may i t fd amount = some s') : s'.Numbered := by
  unfold Vfs.kread at hr
  split at hr
  · rw [← Option.some.inj hr]
    exact h
  split at hr
  · rw [← Option.some.inj hr]
    exact h
  rename_i k _ d hd
  have hmove := fun n => nodup_move (n := n) (h t ht) hd
  dsimp only at hr
  split_ifs at hr
  · rw [← Option.some.inj hr]
    exact h
  · exact h.readEntry (hmove _) (fun s k e => vfsLoadFolderAt_tasks s _ _ _) hr
  · exact h.readEntry (hmove _) (fun s k e => vfsLoadFileAt_tasks s _ _ _) hr
  · rw [← Option.some.inj hr]
    exact h.set _ (hmove _) rfl

theorem Numbered.kchdir {r : ℤ × Vfs} {prev : UInt8} {path : List UInt8} (h : s.Numbered) (ht : t ∈ s.tasks)
    (hr : s.kchdir W may i t prev path = some r) : r.2.Numbered := by
  obtain ⟨⟨node, file, s₁⟩, h1, rfl⟩ := Option.map_eq_some_iff.1 hr
  have hnum : s₁.Numbered := h.same ((vfsSearchVnode_tasks s t prev path).1 _ h1)
  dsimp only
  split_ifs
  · exact hnum
  · exact hnum.set { t with currentDir := node } (h t ht) rfl

/-- **Every call keeps the numbers distinct.** -/
theorem Numbered.step {e : ℕ × VfsCall} (h : s.Numbered) (hr : s.step W may e = some s') : s'.Numbered := by
  obtain ⟨i, call⟩ := e
  unfold Vfs.step at hr
  split at hr
  · cases hr
  rename_i t hi
  have ht : t ∈ s.tasks := List.mem_of_getElem? hi
  split_ifs at hr
  cases call with
  | «open» prev path mode =>
    obtain ⟨r, h1, rfl⟩ := Option.map_eq_some_iff.1 hr
    exact h.kopen ht h1
  | pipe =>
    obtain ⟨r, h1, rfl⟩ := Option.map_eq_some_iff.1 hr
    exact h.kpipeu ht h1
  | close fd =>
    rw [← Option.some.inj hr]
    exact h.kclose ht
  | read fd amount => exact h.kread ht hr
  | chdir prev path =>
    obtain ⟨r, h1, rfl⟩ := Option.map_eq_some_iff.1 hr
    exact h.kchdir ht h1
  | fork =>
    rw [← Option.some.inj hr]
    exact Numbered.copyFds (h.append ⟨true, [], t.currentDir⟩ List.nodup_nil rfl)
  | exec =>
    have hnew : ({ s with tasks := s.tasks ++ [⟨true, t.fds, t.currentDir⟩] } : Vfs).Numbered :=
      h.append ⟨true, t.fds, t.currentDir⟩ (h t ht) rfl
    exact (hnew.set { t with fds := [], currentDir := NULL } List.nodup_nil rfl).terminateTask hr
  | exit => exact h.terminateTask hr
  | create =>
    rw [← Option.some.inj hr]
    exact h.append ⟨true, [], NULL⟩ List.nodup_nil rfl

/-- With distinct numbers, `vfs_find_fd` finds each descriptor. -/
theorem vfsFindFd_of_nodup (h : (t.fds.map (·.fd)).Nodup) {d : Descriptor} (hd : d ∈ t.fds) :
    vfsFindFd t d.fd = some d := by
  unfold vfsFindFd
  induction hl : t.fds generalizing t with
  | nil =>
    rw [hl] at hd
    exact absurd hd List.not_mem_nil
  | cons e l ih =>
    rw [hl] at h hd
    rw [List.map_cons, List.nodup_cons] at h
    rcases List.mem_cons.1 hd with rfl | hd
    · exact List.find?_cons_of_pos (decide_eq_true rfl)
    · have hne : (e.fd : ℤ) ≠ d.fd := fun he => h.1 (Int.ofNat_inj.1 he ▸ List.mem_map_of_mem hd)
      rw [List.find?_cons_of_neg (by rwa [decide_eq_true_eq])]
      exact ih (t := { t with fds := l }) h.2 hd rfl

theorem Booted.numbered (h : s.Booted) : s.Numbered := by
  intro t ht
  rw [(h.tasks t ht).1]
  exact List.nodup_nil

/-- **Numbers of descriptors.** The loop ends for every list, the new descriptor gets the least number that is not in
use and goes to the end of the list, and the rest of the list stays as it is. So in every state that the calls of the
virtual file system lead to, the numbers of each task are distinct, and each descriptor is found. -/
theorem create_fd_least (W : World) :
    (∀ (fds : List FileDescriptor) (newFd : FileDescriptor), ∃ g : ℕ, IsFresh (fds.map (·.fd)) g ∧
      ∀ n, (fds.length + 1) * fds.length ≤ n → assignFd n fds newFd = some (fds ++ [{ newFd with fd := g }])) ∧
    (∀ (s : Vfs) (i : ℕ) (t : VfsTask) (node file mode pos : ℕ),
      IsFresh (fdNumbers t.fds) (s.vfsCreateFd i t node file mode pos).1 ∧
      (s.vfsCreateFd i t node file mode pos).2.tasks =
        s.tasks.set i { t with
          fds := t.fds ++ [⟨node, file, (s.vfsCreateFd i t node file mode pos).1, pos, mode⟩] }) ∧
    ∀ s, Reach Booted (fun s e => s.step W always e) Any s → ∀ t ∈ s.tasks,
      (t.fds.map (·.fd)).Nodup ∧ ∀ d ∈ t.fds, vfsFindFd t d.fd = some d := by
  refine ⟨assignFd_eq, fun s i t node file mode pos => ⟨freeNumber_isFresh t.fds, ?_⟩, fun s hs t ht => ?_⟩
  · unfold Vfs.vfsCreateFd
    dsimp only
    rw [setTask_tasks, openStream_tasks]
  · have hnum : s.Numbered := hs.inv (fun _ h => h.numbered) fun _ _ _ h _ hr => h.step hr
    exact ⟨hnum t ht, fun d hd => vfsFindFd_of_nodup (hnum t ht) hd⟩

end Vfs

end Nettapus
