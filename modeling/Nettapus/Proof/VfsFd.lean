import Nettapus.Proof.Vfs
import Mathlib.Data.List.Perm.Basic

/-!
# Descriptors

`vfs_create_fd` and `vfs_close_file` change a counter and a list at the same time (`Refs.createFd`, `Inv.close`). What a
task's list has and what it counts is related by `refCount_set`. From these two come `kopen`, `kpipeu`, `kclose`,
`copy_task`, `exec` and the end of a task.
-/

namespace Nettapus.Vfs

variable {s s' : Vfs} {W : World} {c : Bool} {a i node file : ℕ} {t t' : VfsTask} {k : NodeKind}

/-! ## Lists of tasks -/

theorem refCount_set {tasks : List VfsTask} (h : tasks[i]? = some t) (t' : VfsTask) (a : ℕ) :
    refCount (tasks.set i t') a + (t.fds.countP fun d => d.node = a) =
      refCount tasks a + t'.fds.countP fun d => d.node = a := by
  induction tasks generalizing i with
  | nil => cases h
  | cons u tasks ih =>
    cases i with
    | zero =>
      obtain rfl := Option.some.inj h
      simp only [refCount, List.set_cons_zero, List.map_cons, List.sum_cons]
      omega
    | succ i =>
      have := ih h
      simp only [refCount, List.set_cons_succ, List.map_cons, List.sum_cons] at this ⊢
      omega

theorem refCount_append (tasks : List VfsTask) (t : VfsTask) (a : ℕ) :
    refCount (tasks ++ [t]) a = refCount tasks a + t.fds.countP fun d => d.node = a := by
  simp [refCount]

theorem Tree.retask (h : s.Tree) (tasks : List VfsTask) : ({ s with tasks := tasks } : Vfs).Tree :=
  ⟨h.null, h.root, h.sub, h.has, h.sub_unique, h.has_unique, h.root_top, h.ranked, h.links⟩

/-- The tasks change, but no descriptor is new. -/
theorem Inv.retask (h : s.Inv c) {tasks : List VfsTask}
    (hfds : ∀ t ∈ tasks, ∀ d ∈ t.fds, ∃ t₀ ∈ s.tasks, ∃ d₀ ∈ t₀.fds, d₀.node = d.node ∧ d₀.file = d.file)
    (hdir : ∀ t ∈ tasks, t.currentDir ≠ NULL → s.live t.currentDir = some .folder)
    (hcount : ∀ a, refCount tasks a ≤ refCount s.tasks a ∧ (c = true → refCount tasks a = refCount s.tasks a)) :
    ({ s with tasks := tasks } : Vfs).Inv c where
  tree := h.tree.retask tasks
  refs := by
    refine ⟨fun t ht d hd => ?_, hdir, fun a ha => ?_⟩
    · obtain ⟨t₀, ht₀, d₀, hd₀, h1, h2⟩ := hfds t ht d hd
      have := h.refs.fds t₀ ht₀ d₀ hd₀
      rwa [h1, h2] at this
    · obtain ⟨h1, h2⟩ := h.refs.count a ha
      obtain ⟨h3, h4⟩ := hcount a
      exact ⟨h3.trans h1, fun hc => (h2 hc).trans (h4 hc).symm⟩
  pipes := h.pipes

/-! ## The counters -/

/-- The counters change, and the tree does not. -/
theorem Tree.same (h : s.Tree) (hlive : s'.live = s.live) (hroot : s'.root = s.root) (hclock : s'.clock = s.clock)
    (hsub : ∀ x, (s'.folders x).subfolders = (s.folders x).subfolders)
    (hhas : ∀ x, (s'.folders x).subfiles = (s.folders x).subfiles)
    (hlinks : ∀ x, (s'.files x).cachedLinks = (s.files x).cachedLinks) : s'.Tree := by
  apply h.shrink
  · rw [hlive, h.null]
  · exact hroot
  · rw [hlive, h.root]
  · rw [hclock]
  · rintro d e ⟨hd, he⟩
    rw [hlive] at hd ⊢
    rw [hsub] at he
    exact ⟨⟨hd, he⟩, rfl⟩
  · rintro d e ⟨hd, he⟩
    rw [hlive] at hd ⊢
    rw [hhas] at he
    exact ⟨⟨hd, he⟩, rfl⟩
  · intro a k hk
    rw [hlive] at hk
    exact ⟨hk, hlinks a⟩

theorem openStream_live : (s.openStream node file).live = s.live := by
  unfold openStream
  split <;> rfl

theorem openStream_tasks : (s.openStream node file).tasks = s.tasks := by
  unfold openStream
  split <;> rfl

theorem Tree.openStream (h : s.Tree) (node file : ℕ) : (s.openStream node file).Tree := by
  unfold Vfs.openStream
  split_ifs with hf
  · refine h.same rfl rfl rfl (fun _ => rfl) (fun _ => rfl) fun x => ?_
    by_cases hx : x = node
    · simp [setFile, hx]
    · simp [setFile, hx]
  · refine h.same rfl rfl rfl (fun x => ?_) (fun x => ?_) fun _ => rfl
    all_goals
      by_cases hx : x = node
      · simp [setFolder, hx]
      · simp [setFolder, hx]

/-- A stream is counted at its vnode. -/
theorem openStream_streams (hk : s.live node = some k) (hf : Fits k file) (x : ℕ) :
    (s.openStream node file).streams x = s.streams x + if x = node then 1 else 0 := by
  have hfile : file = 0 ↔ k = .folder := hf.symm
  unfold Vfs.openStream
  by_cases hx : x = node
  · subst hx
    by_cases h0 : k = .folder
    · simp [streams, setFolder, hfile.2 h0, hk, h0]
    · simp [streams, setFile, mt hfile.1 h0, hk, h0]
  · split_ifs with h0
    · simp [streams, setFile, hx]
    · simp [streams, setFolder, hx]

/-- A vnode has one stream less, and a pipe without streams is unloaded. -/
theorem Tree.closeStream (h : s.Tree) (hk : s.live node = some k) (hf : Fits k file) (h1 : 0 < s.streams node) :
    (s.closeStream node file).Tree ∧ (s.closeStream node file).tasks = s.tasks ∧
      (∀ x, (s.closeStream node file).streams x = s.streams x - if x = node then 1 else 0) ∧
      (((s.closeStream node file).live = s.live ∧ (k = .pipe → s.streams node ≠ 1)) ∨
        (k = .pipe ∧ s.streams node = 1 ∧ (s.closeStream node file).live = Function.update s.live node none)) := by
  have hfile : file = 0 ↔ k = .folder := hf.symm
  unfold Vfs.closeStream
  by_cases h0 : k = .folder
  · rw [if_neg (not_not.2 (hfile.2 h0))]
    refine ⟨h.same rfl rfl rfl (fun x => ?_) (fun x => ?_) fun _ => rfl, rfl, fun x => ?_, .inl ⟨rfl, fun hp => ?_⟩⟩
    · by_cases hx : x = node
      · simp [setFolder, hx]
      · simp [setFolder, hx]
    · by_cases hx : x = node
      · simp [setFolder, hx]
      · simp [setFolder, hx]
    · by_cases hx : x = node
      · simp [streams, setFolder, hx, hk, h0]
      · simp [streams, setFolder, hx]
    · rw [hp] at h0
      cases h0
  rw [if_pos (mt hfile.1 h0)]
  have hstreams : s.streams node = (s.files node).streamsOpen := by simp [streams, hk, h0]
  have hlinks := h.links node k hk h0
  rw [hstreams] at h1 ⊢
  simp only
  split_ifs with hz
  · -- the last stream of a pipe
    obtain ⟨hz1, hz2⟩ := hz
    have hp : k = .pipe := hlinks.1 hz2
    have hne : ∀ x k', s.live x = some k' → k' ≠ .pipe → x ≠ node := by
      rintro x k' hx hk' rfl
      rw [hk] at hx
      exact hk' ((Option.some.inj hx).symm.trans hp)
    have hlive : ∀ x, x ≠ node → Function.update s.live node none x = s.live x := fun x hx => Function.update_of_ne hx _ _
    have hdir : ∀ d, Function.update s.live node none d = some .folder → s.live d = some .folder := by
      intro d hd
      by_cases hdn : d = node
      · simp [hdn] at hd
      · rwa [hlive d hdn] at hd
    refine ⟨?_, rfl, fun x => ?_, .inr ⟨hp, by omega, rfl⟩⟩
    · apply h.shrink
      · by_cases hn : NULL = node
        · simp [Vfs.unload, hn]
        · simpa [Vfs.unload, setFile, hn] using h.null
      · rfl
      · show Function.update s.live node none s.root = _
        rw [hlive _ (hne _ _ h.root (by decide)), h.root]
      · exact le_rfl
      · rintro d e ⟨hd, he⟩
        exact ⟨⟨hdir d hd, he⟩, hlive e (hne e _ (h.sub d e ⟨hdir d hd, he⟩) (by decide))⟩
      · rintro d e ⟨hd, he⟩
        exact ⟨⟨hdir d hd, he⟩, hlive e (hne e _ (h.has d e ⟨hdir d hd, he⟩) (by decide))⟩
      · intro x k' hx
        by_cases hxn : x = node
        · simp [Vfs.unload, hxn] at hx
        · exact ⟨by simpa [Vfs.unload, setFile, hxn] using hx, by simp [Vfs.unload, setFile, hxn]⟩
    · by_cases hx : x = node
      · simp [streams, Vfs.unload, setFile, hx, hk, h0]
      · simp [streams, Vfs.unload, setFile, hx]
  · refine ⟨h.same rfl rfl rfl (fun _ => rfl) (fun _ => rfl) fun x => ?_, rfl, fun x => ?_, .inl ⟨rfl, fun hp h1 => hz ⟨by omega, ?_⟩⟩⟩
    · by_cases hx : x = node
      · simp [setFile, hx]
      · simp [setFile, hx]
    · by_cases hx : x = node
      · simp [streams, setFile, hx, hk, h0]
      · simp [streams, setFile, hx]
    · exact hlinks.2 hp

/-! ## Opening -/

/-- A task has one descriptor more. -/
theorem Refs.createFd (mode pos : ℕ) (h : s.Refs c) (ht : s.tasks[i]? = some t) (hk : s.live node = some k) (hf : Fits k file) :
    (s.vfsCreateFd i t node file mode pos).2.Refs c := by
  set fd := freeNumber t.fds t.fds.length 0
  set t' : VfsTask := { t with fds := t.fds ++ [⟨node, file, fd, pos, mode⟩] } with ht'
  have hlive : ((s.openStream node file).setTask i t').live = s.live := openStream_live
  have htasks : ((s.openStream node file).setTask i t').tasks = s.tasks.set i t' := by
    show (s.openStream node file).tasks.set i t' = _
    rw [openStream_tasks]
  have hmem := List.mem_of_getElem? ht
  show ((s.openStream node file).setTask i t').Refs c
  refine ⟨fun u hu d hd => ?_, fun u hu h0 => ?_, fun a ha => ?_⟩
  · rw [hlive]
    rw [htasks] at hu
    rcases List.mem_or_eq_of_mem_set hu with hu | rfl
    · exact h.fds u hu d hd
    · rcases List.mem_append.1 hd with hd | hd
      · exact h.fds t hmem d hd
      · obtain rfl := List.mem_singleton.1 hd
        exact ⟨k, hk, hf⟩
  · rw [hlive]
    rw [htasks] at hu
    rcases List.mem_or_eq_of_mem_set hu with hu | rfl
    · exact h.dir u hu h0
    · exact h.dir t hmem h0
  · rw [hlive] at ha
    have hcount := refCount_set ht t' a
    have hstreams : ((s.openStream node file).setTask i t').streams a = s.streams a + if a = node then 1 else 0 :=
      openStream_streams hk hf a
    have hnew : (t'.fds.countP fun d => d.node = a) = (t.fds.countP fun d => d.node = a) + if a = node then 1 else 0 := by
      simp only [ht', List.countP_append, List.countP_singleton, decide_eq_true_eq, eq_comm (a := a)]
    obtain ⟨h1, h2⟩ := h.count a ha
    rw [htasks, hstreams]
    refine ⟨by omega, fun hc => ?_⟩
    have := h2 hc
    omega

theorem Inv.createFd (mode pos : ℕ) (h : s.Inv c) (ht : s.tasks[i]? = some t) (hk : s.live node = some k) (hf : Fits k file) :
    (s.vfsCreateFd i t node file mode pos).2.Inv c := by
  refine ⟨(h.tree.openStream node file).retask _, h.refs.createFd mode pos ht hk hf, fun a ha => ?_⟩
  have hlive : s.live a = some .pipe := openStream_live (s := s) ▸ ha
  have hstreams := openStream_streams hk hf a
  have := h.pipes a hlive
  show 0 < (s.openStream node file).streams a
  omega

/-! ## Closing -/

theorem countP_eraseIdx {l : List Descriptor} {j : ℕ} {d : Descriptor} (h : l[j]? = some d) (a : ℕ) :
    ((l.eraseIdx j).countP fun d => d.node = a) + (if a = d.node then 1 else 0) = l.countP fun d => d.node = a := by
  obtain ⟨hj, rfl⟩ := List.getElem?_eq_some_iff.1 h
  have hperm := (List.getElem_cons_eraseIdx_perm hj).countP_eq fun d => decide (d.node = a)
  rw [← hperm, List.countP_cons]
  simp only [decide_eq_true_eq, eq_comm (a := a)]

/-- **A task has one descriptor less.** A pipe without descriptors is unloaded. -/
theorem Inv.close {j : ℕ} {d : Descriptor} (h : s.Inv c) (ht : s.tasks[i]? = some t) (hj : t.fds[j]? = some d) :
    ((s.closeStream d.node d.file).setTask i { t with fds := t.fds.eraseIdx j }).Inv c := by
  have hmem := List.mem_of_getElem? ht
  have hd := List.mem_of_getElem? hj
  obtain ⟨k, hk, hf⟩ := h.refs.fds t hmem d hd
  have hpos : 0 < refCount s.tasks d.node := refCount_pos_iff.2 ⟨t, hmem, d, hd, rfl⟩
  obtain ⟨hle, heq⟩ := h.refs.count d.node (by simp [hk])
  obtain ⟨htree, htasks₁, hstreams, hlive⟩ := h.tree.closeStream hk hf (by omega)
  set s₁ := s.closeStream d.node d.file
  set t' : VfsTask := { t with fds := t.fds.eraseIdx j } with ht'
  have htasks : (s₁.setTask i t').tasks = s.tasks.set i t' := by
    show s₁.tasks.set i t' = _
    rw [htasks₁]
  have hcount : ∀ a, refCount (s.tasks.set i t') a + (if a = d.node then 1 else 0) = refCount s.tasks a := by
    intro a
    have h1 := refCount_set ht t' a
    have h2 : (t'.fds.countP fun d => d.node = a) + (if a = d.node then 1 else 0) = t.fds.countP fun d => d.node = a :=
      countP_eraseIdx hj a
    omega
  -- a vnode that is still used, and a directory, stays
  have hstays : ∀ a k', s.live a = some k' → 0 < refCount (s.tasks.set i t') a ∨ k' = .folder → s₁.live a = some k' := by
    intro a k' hk' hused
    rcases hlive with ⟨hl, -⟩ | ⟨hp, h1, hl⟩
    · rw [hl, hk']
    · have hne : a ≠ d.node := by
        rintro rfl
        have h2 := hcount d.node
        rw [if_pos rfl] at h2
        rcases hused with h3 | rfl
        · omega
        · rw [hk, hp] at hk'
          cases hk'
      rw [hl, Function.update_of_ne hne, hk']
  have hback : ∀ a k', s₁.live a = some k' → s.live a = some k' := by
    intro a k' hk'
    rcases hlive with ⟨hl, -⟩ | ⟨-, -, hl⟩
    · rwa [hl] at hk'
    · rw [hl] at hk'
      by_cases hne : a = d.node
      · simp [hne] at hk'
      · rwa [Function.update_of_ne hne] at hk'
  have holds : ∀ u ∈ s.tasks.set i t', ∀ e ∈ u.fds, ∃ u₀ ∈ s.tasks, e ∈ u₀.fds := by
    intro u hu e he
    rcases List.mem_or_eq_of_mem_set hu with hu | rfl
    · exact ⟨u, hu, he⟩
    · exact ⟨t, hmem, List.mem_of_mem_eraseIdx he⟩
  refine ⟨htree.retask _, ⟨fun u hu e he => ?_, fun u hu h0 => ?_, fun a ha => ?_⟩, fun a ha => ?_⟩
  · rw [htasks] at hu
    obtain ⟨u₀, hu₀, he₀⟩ := holds u hu e he
    obtain ⟨k', hk', hf'⟩ := h.refs.fds u₀ hu₀ e he₀
    exact ⟨k', hstays _ _ hk' (.inl (refCount_pos_iff.2 ⟨u, hu, e, he, rfl⟩)), hf'⟩
  · rw [htasks] at hu
    refine hstays _ _ ?_ (.inr rfl)
    rcases List.mem_or_eq_of_mem_set hu with hu | rfl
    · exact h.refs.dir u hu h0
    · exact h.refs.dir t hmem h0
  · obtain ⟨k', hk'⟩ := Option.ne_none_iff_exists'.1 ha
    obtain ⟨h1, h2⟩ := h.refs.count a (by simp [hback a k' hk'])
    have h3 := hcount a
    have h4 : (s₁.setTask i t').streams a = s.streams a - if a = d.node then 1 else 0 := hstreams a
    rw [htasks, h4]
    refine ⟨by omega, fun hc => ?_⟩
    have := h2 hc
    omega
  · have hp := hback a _ ha
    have h1 := h.pipes a hp
    have h4 : (s₁.setTask i t').streams a = s.streams a - if a = d.node then 1 else 0 := hstreams a
    rw [h4]
    split_ifs with had
    · subst had
      have hkp : k = .pipe := Option.some.inj (hk.symm.trans hp)
      rcases hlive with ⟨-, hl⟩ | ⟨-, -, hl⟩
      · have := hl hkp
        omega
      · have hgone : s₁.live d.node = some .pipe := ha
        rw [hl, Function.update_self] at hgone
        cases hgone
    · omega

theorem Inv.kclose {fd : ℤ} (h : s.Inv c) (ht : s.tasks[i]? = some t) : (s.kclose i t fd).2.Inv c := by
  unfold Vfs.kclose
  split
  · exact h
  · exact h
  · split
    · exact h
    · rename_i hj
      exact h.close ht hj

theorem Inv.closeAll {fds : List Descriptor} (h : s.Inv c) : (Vfs.closeAll i fds s).Inv c := by
  induction fds generalizing s with
  | nil => exact h
  | cons d fds ih =>
    unfold Vfs.closeAll
    split
    · exact h
    · rename_i ht
      exact ih (h.kclose ht)

/-! ## Calls -/

variable {prev : UInt8} {path : List UInt8} {mode : ℕ} {fd : ℤ}

theorem Inv.kopen {r : ℤ} (h : s.Inv c) (ht : s.tasks[i]? = some t)
    (hr : s.kopen W (careful c) i t prev path mode = some (r, s')) : s'.Inv c := by
  obtain ⟨⟨node, file, s₁⟩, h1, hr⟩ := Option.bind_eq_some_iff.1 hr
  obtain ⟨hgoes₁, hfound₁⟩ := h.vfsSearchVnode (List.mem_of_getElem? ht) h1
  obtain ⟨⟨node', file', s₂⟩, h2, hr⟩ := Option.map_eq_some_iff.1 hr
  have hopen : Goes c s s₂ ∧ Found s₂ node' file' := by
    simp only at h2
    split_ifs at h2 with h0
    · obtain ⟨⟨node₂, s₃⟩, h3, h4⟩ := Option.map_eq_some_iff.1 h2
      cases h4
      obtain ⟨hgoes₂, hfound₂⟩ := hgoes₁.inv.mknodeFile h3
      exact ⟨hgoes₁.trans hgoes₂, hfound₂⟩
    · cases h2
      exact ⟨hgoes₁, hfound₁⟩
  obtain ⟨hgoes, hfound⟩ := hopen
  simp only at hr
  split_ifs at hr with h0 hdir
  · cases hr
    exact hgoes.inv
  · cases hr
    exact hgoes.inv
  · cases hr
    obtain ⟨k, hk, hf⟩ := hfound h0
    exact hgoes.inv.createFd _ _ (by rw [hgoes.kept.tasks, ht]) hk hf

theorem Inv.kpipeu {r : ℤ} (h : s.Inv c) (ht : s.tasks[i]? = some t) (hr : s.kpipeu W i t = some (r, s')) : s'.Inv c := by
  obtain ⟨⟨a, s₁⟩, h1, hr⟩ := Option.map_eq_some_iff.1 hr
  cases hr
  obtain ⟨htree, hkept, -, hlive, -, hstreams⟩ := h.newFile (f := ⟨0, 0⟩) h1 (by decide) (by decide) fun _ => rfl
  set s₀ := s₁.setFile a ⟨0, 0⟩
  have ht₀ : s₀.tasks[i]? = some t := by rw [hkept.tasks, ht]
  have hself : s₀.live a = some .pipe := by rw [hlive, Function.update_self]
  have hf : Fits .pipe 1 := by decide
  -- the state between the two descriptors
  have hrefs₂ := (h.refs.kept hkept).createFd FD_READ 0 ht₀ hself hf
  have htree₂ := (htree.openStream a 1).retask (s₀.vfsCreateFd i t a 1 FD_READ 0).2.tasks
  set s₂ := (s₀.vfsCreateFd i t a 1 FD_READ 0).2 with hs₂
  have hlive₂ : s₂.live = s₀.live := openStream_live
  have hself₂ : s₂.live a = some .pipe := by rw [hlive₂, hself]
  have hstreams₂ : ∀ x, s₂.streams x = s₀.streams x + if x = a then 1 else 0 := fun x => openStream_streams hself hf x
  have ht₂ : s₂.tasks[i]? = some { t with fds := t.fds ++ [⟨a, 1, (s₀.vfsCreateFd i t a 1 FD_READ 0).1, 0, FD_READ⟩] } := by
    show ((s₀.openStream a 1).tasks.set i _)[i]? = _
    rw [openStream_tasks, List.getElem?_set_self (List.getElem?_eq_some_iff.1 ht₀).1]
    rfl
  refine ⟨(htree₂.openStream a 1).retask _, hrefs₂.createFd _ _ ht₂ hself₂ hf, fun x hx => ?_⟩
  have hx₂ : (s₂.openStream a 1).live x = some .pipe := hx
  rw [openStream_live] at hx₂
  have hs := openStream_streams hself₂ hf x
  show 0 < (s₂.openStream a 1).streams x
  rw [hs]
  split_ifs with hxa
  · omega
  · rw [hlive₂, hlive, Function.update_of_ne hxa] at hx₂
    rw [hstreams₂, hstreams x hxa, if_neg hxa]
    exact h.pipes x hx₂

/-- A descriptor moves to another place in its file. -/
theorem Inv.move {j n : ℕ} {d : Descriptor} (h : s.Inv c) (ht : s.tasks[i]? = some t) (hj : t.fds[j]? = some d) :
    (s.setTask i { t with fds := t.fds.set j { d with pos := n } }).Inv c := by
  have hmem := List.mem_of_getElem? ht
  obtain ⟨hlt, hd⟩ := List.getElem?_eq_some_iff.1 hj
  refine h.retask (fun u hu e he => ?_) (fun u hu h0 => ?_) fun a => ?_
  · rcases List.mem_or_eq_of_mem_set hu with hu | rfl
    · exact ⟨u, hu, e, he, rfl, rfl⟩
    · rcases List.mem_or_eq_of_mem_set he with he | rfl
      · exact ⟨t, hmem, e, he, rfl, rfl⟩
      · exact ⟨t, hmem, d, List.mem_of_getElem? hj, rfl, rfl⟩
  · rcases List.mem_or_eq_of_mem_set hu with hu | rfl
    · exact h.refs.dir u hu h0
    · exact h.refs.dir t hmem h0
  · have hcount := refCount_set ht { t with fds := t.fds.set j { d with pos := n } } a
    have hsame : ((t.fds.set j { d with pos := n }).countP fun d => d.node = a) = t.fds.countP fun d => d.node = a := by
      have hle := List.boole_getElem_le_countP (p := fun d => decide (d.node = a)) hlt
      rw [List.countP_set hlt]
      simp only [hd] at hle ⊢
      omega
    simp only at hcount
    rw [hsame] at hcount
    exact ⟨by omega, fun _ => by omega⟩

theorem Inv.readEntry {moved : VfsTask} {load : Vfs → ℕ → Tnode → Option (ℕ × Vfs)} {l : List Tnode} {j : ℕ} (h : s.Inv c)
    (hmove : (s.setTask i moved).Inv c)
    (hload : ∀ j e n s', load (s.setTask i moved) j e = some (n, s') → s'.Inv c)
    (hr : s.readEntry i moved load l j = some s') : s'.Inv c := by
  unfold Vfs.readEntry at hr
  split_ifs at hr with hlen
  · cases hr
    exact h
  · obtain ⟨e, -, hr⟩ := Option.bind_eq_some_iff.1 hr
    simp only at hr
    split_ifs at hr with h0
    · obtain ⟨⟨n, s₁⟩, h1, h2⟩ := Option.map_eq_some_iff.1 hr
      cases h2
      exact hload j e n s₁ h1
    · cases hr
      exact hmove

theorem Inv.kread {amount : ℕ} (h : s.Inv c) (ht : s.tasks[i]? = some t)
    (hr : s.kread W (careful c) i t fd amount = some s') : s'.Inv c := by
  unfold Vfs.kread at hr
  split at hr
  · cases hr
    exact h
  split at hr
  · cases hr
    exact h
  rename_i j _ d hj
  simp only at hr
  split_ifs at hr with hfile hrange hpos
  · cases hr
    exact h
  -- the directory of the descriptor is in memory
  all_goals
    obtain ⟨k, hk, hf⟩ := h.refs.fds t (List.mem_of_getElem? ht) d (List.mem_of_getElem? hj)
    try rw [hf.2 hfile] at hk
  · exact h.readEntry (h.move ht hj) (fun j e n s' hl => ((h.move ht hj).vfsLoadFolderAt hk hl).1.inv) hr
  · exact h.readEntry (h.move ht hj) (fun j e n s' hl => ((h.move ht hj).vfsLoadFileAt hk hl).1.inv) hr
  · cases hr
    exact (Goes.tick h).inv.move ht hj

theorem Inv.kchdir {r : ℤ} (h : s.Inv c) (ht : s.tasks[i]? = some t)
    (hr : s.kchdir W (careful c) i t prev path = some (r, s')) : s'.Inv c := by
  obtain ⟨⟨node, file, s₁⟩, h1, hr⟩ := Option.map_eq_some_iff.1 hr
  obtain ⟨hgoes, hfound⟩ := h.vfsSearchVnode (List.mem_of_getElem? ht) h1
  simp only at hr
  split_ifs at hr with h0
  · cases hr
    exact hgoes.inv
  · cases hr
    simp only [ne_eq, not_or, not_not] at h0
    obtain ⟨k, hk, hf⟩ := hfound h0.2
    have ht₁ : s₁.tasks[i]? = some t := by rw [hgoes.kept.tasks, ht]
    have hmem := List.mem_of_getElem? ht₁
    refine hgoes.inv.retask (fun u hu e he => ?_) (fun u hu hn => ?_) fun a => ?_
    · rcases List.mem_or_eq_of_mem_set hu with hu | rfl
      · exact ⟨u, hu, e, he, rfl, rfl⟩
      · exact ⟨t, hmem, e, he, rfl, rfl⟩
    · rcases List.mem_or_eq_of_mem_set hu with hu | rfl
      · exact hgoes.inv.refs.dir u hu hn
      · rw [hk, hf.2 h0.1]
    · have := refCount_set ht₁ { t with currentDir := node } a
      simp only at this
      exact ⟨by omega, fun _ => by omega⟩

/-- **A task ends.** Its list goes away with it, so its counters are right only if it is empty. -/
theorem Inv.terminateTask (h : s.Inv c) (ht : s.tasks[i]? = some t)
    (hr : s.terminateTask (careful c) i t = some s') : s'.Inv c := by
  unfold Vfs.terminateTask at hr
  split_ifs at hr with hexit
  obtain rfl := Option.some.inj hr
  have hclosed : (Vfs.closeAll i t.fds s).Inv c := h.closeAll
  have hempty : c = true → t.fds = [] := by
    rintro rfl
    simpa [careful, ht] using hexit
  refine hclosed.retask (fun u hu e he => ?_) (fun u hu hn => ?_) fun a => ?_
  · rcases List.mem_or_eq_of_mem_set hu with hu | rfl
    · exact ⟨u, hu, e, he, rfl, rfl⟩
    · cases he
  · rcases List.mem_or_eq_of_mem_set hu with hu | rfl
    · exact hclosed.refs.dir u hu hn
    · exact absurd rfl hn
  · constructor
    · cases hi : (Vfs.closeAll i t.fds s).tasks[i]? with
      | none => rw [List.set_eq_of_length_le (List.getElem?_eq_none_iff.1 hi)]
      | some u =>
        have := refCount_set hi ⟨false, [], NULL⟩ a
        simp only [List.countP_nil] at this
        omega
    · intro hc
      have := refCount_set ht ⟨false, [], NULL⟩ a
      simp only [hempty hc, List.countP_nil] at this
      simp only [hempty hc, Vfs.closeAll]
      omega

theorem Inv.copyFds {fds : List Descriptor} (h : s.Inv c) (hfds : ∀ d ∈ fds, ∃ k, s.live d.node = some k ∧ Fits k d.file) :
    (Vfs.copyFds i fds s).Inv c := by
  induction fds generalizing s with
  | nil => exact h
  | cons d fds ih =>
    unfold Vfs.copyFds
    split
    · exact h
    · rename_i u hu
      obtain ⟨k, hk, hf⟩ := hfds d List.mem_cons_self
      refine ih (h.createFd _ _ hu hk hf) fun e he => ?_
      have hlive : (s.vfsCreateFd i u d.node d.file d.mode d.pos).2.live = s.live := openStream_live
      rw [hlive]
      exact hfds e (List.mem_cons_of_mem _ he)

theorem Inv.copyTask (h : s.Inv c) (ht : s.tasks[i]? = some t) : (s.copyTask t).Inv c := by
  have hmem := List.mem_of_getElem? ht
  refine Inv.copyFds ?_ (h.refs.fds t hmem)
  refine h.retask (fun u hu e he => ?_) (fun u hu hn => ?_) fun a => ?_
  · rcases List.mem_append.1 hu with hu | hu
    · exact ⟨u, hu, e, he, rfl, rfl⟩
    · obtain rfl := List.mem_singleton.1 hu
      cases he
  · rcases List.mem_append.1 hu with hu | hu
    · exact h.refs.dir u hu hn
    · obtain rfl := List.mem_singleton.1 hu
      exact h.refs.dir t hmem hn
  · rw [refCount_append, List.countP_nil]
    exact ⟨le_rfl, fun _ => rfl⟩

/-- **The descriptors are handed over.** -/
theorem Inv.exec (h : s.Inv c) (ht : s.tasks[i]? = some t) (hr : s.exec (careful c) i t = some s') : s'.Inv c := by
  have hmem := List.mem_of_getElem? ht
  have hlt := (List.getElem?_eq_some_iff.1 ht).1
  set new : VfsTask := ⟨true, t.fds, t.currentDir⟩
  set old : VfsTask := { t with fds := [], currentDir := NULL }
  have ht' : (s.tasks ++ [new])[i]? = some t := by rw [List.getElem?_append_left hlt, ht]
  have hinv : ({ s with tasks := (s.tasks ++ [new]).set i old } : Vfs).Inv c := by
    refine h.retask (fun u hu e he => ?_) (fun u hu hn => ?_) fun a => ?_
    · rcases List.mem_or_eq_of_mem_set hu with hu | rfl
      · rcases List.mem_append.1 hu with hu | hu
        · exact ⟨u, hu, e, he, rfl, rfl⟩
        · obtain rfl := List.mem_singleton.1 hu
          exact ⟨t, hmem, e, he, rfl, rfl⟩
      · cases he
    · rcases List.mem_or_eq_of_mem_set hu with hu | rfl
      · rcases List.mem_append.1 hu with hu | hu
        · exact h.refs.dir u hu hn
        · obtain rfl := List.mem_singleton.1 hu
          exact h.refs.dir t hmem hn
      · exact absurd rfl hn
    · have h1 := refCount_set ht' old a
      have h2 : (old.fds.countP fun d => d.node = a) = 0 := rfl
      have h3 : (new.fds.countP fun d => d.node = a) = t.fds.countP fun d => d.node = a := rfl
      rw [refCount_append] at h1
      exact ⟨by omega, fun _ => by omega⟩
  refine hinv.terminateTask ?_ hr
  rw [List.getElem?_set_self]
  simp only [List.length_append]
  omega

end Nettapus.Vfs
