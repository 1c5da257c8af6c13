import Nettapus.Proof.VfsTree

/-!
# Descriptors and vnodes

`careful` is the guard under which the virtual file system does what it should. With it every operation keeps
`Refs`: a descriptor and a current directory refer to vnodes that are in memory, and `streams_open` is at least the
number of the descriptors, or, with `c`, equal to it. The operations on the tree leave the tasks as they are (`Kept`).
-/

namespace Nettapus.Vfs

variable {s s' s'' : Vfs} {W : World} {c : Bool} {a d : ℕ}

@[simp] theorem tick_live : s.tick.live = s.live := rfl
@[simp] theorem tick_files : s.tick.files = s.files := rfl
@[simp] theorem tick_folders : s.tick.folders = s.folders := rfl

/-- A descriptor or a task's directory refers to the vnode. -/
def Used (s : Vfs) (a : ℕ) : Prop := ∃ t ∈ s.tasks, (∃ d ∈ t.fds, d.node = a) ∨ (a ≠ NULL ∧ t.currentDir = a)

instance (s : Vfs) (a : ℕ) : Decidable (s.Used a) :=
  inferInstanceAs (Decidable (∃ t ∈ s.tasks, (∃ d ∈ t.fds, d.node = a) ∨ (a ≠ NULL ∧ t.currentDir = a)))

/-- Nothing below the directory is in use. -/
def Quiet (s : Vfs) (d : ℕ) : Prop := ∀ a ∈ s.subtree d, ¬ s.Used a

instance (s : Vfs) (d : ℕ) : Decidable (s.Quiet d) := inferInstanceAs (Decidable (∀ a ∈ s.subtree d, ¬ s.Used a))

/-- The guard. The last two questions are only about the counters. -/
def careful (c : Bool) (s : Vfs) : Hazard → Bool
  | .reload d => s.Quiet d
  | .stale vnode => vnode = NULL
  | .dirty streams => !c || streams = 0
  | .exit t => !c || (s.tasks[t]?.all fun t => t.fds = [])

/-- The kernel has no guard. -/
def always (_ : Vfs) (_ : Hazard) : Bool := true

/-- The field `streams_open` of a vnode. -/
def streams (s : Vfs) (a : ℕ) : ℕ :=
  if s.live a = some .folder then (s.folders a).streamsOpen else (s.files a).streamsOpen

/-- The number of the descriptors that refer to a vnode. -/
def refCount (tasks : List VfsTask) (a : ℕ) : ℕ := (tasks.map fun t => t.fds.countP fun d => d.node = a).sum

/-- The field `file` of a descriptor for a vnode of this kind. -/
def Fits (k : NodeKind) (file : ℕ) : Prop := k = .folder ↔ file = FILE_DIR

instance (k : NodeKind) (file : ℕ) : Decidable (Fits k file) := inferInstanceAs (Decidable (k = .folder ↔ file = FILE_DIR))

structure Refs (c : Bool) (s : Vfs) : Prop where
  fds : ∀ t ∈ s.tasks, ∀ d ∈ t.fds, ∃ k, s.live d.node = some k ∧ Fits k d.file
  dir : ∀ t ∈ s.tasks, t.currentDir ≠ NULL → s.live t.currentDir = some .folder
  count : ∀ a, s.live a ≠ none → refCount s.tasks a ≤ s.streams a ∧ (c = true → s.streams a = refCount s.tasks a)

structure Inv (c : Bool) (s : Vfs) : Prop where
  tree : s.Tree
  refs : s.Refs c
  /-- A pipe is unloaded together with its last descriptor. -/
  pipes : ∀ a, s.live a = some .pipe → 0 < s.streams a

theorem Refs.used_live (h : s.Refs c) (ha : s.Used a) : s.live a ≠ none := by
  obtain ⟨t, ht, ⟨d, hd, rfl⟩ | ⟨h0, rfl⟩⟩ := ha
  · obtain ⟨k, hk, -⟩ := h.fds t ht d hd
    simp [hk]
  · simp [h.dir t ht h0]

theorem refCount_pos_iff {tasks : List VfsTask} : 0 < refCount tasks a ↔ ∃ t ∈ tasks, ∃ d ∈ t.fds, d.node = a := by
  simp only [refCount, List.sum_pos_iff_exists_pos_nat, List.mem_map, exists_exists_and_eq_and, List.countP_pos_iff,
    decide_eq_true_eq]

theorem refCount_of_not_used (h : ¬ s.Used a) : refCount s.tasks a = 0 := by
  refine Nat.eq_zero_of_not_pos fun hpos => h ?_
  obtain ⟨t, ht, hd⟩ := refCount_pos_iff.1 hpos
  exact ⟨t, ht, .inl hd⟩

/-! ## Operations on the tree -/

/-- The vnodes change, but not those that are in use. -/
structure Kept (c : Bool) (s s' : Vfs) : Prop where
  tasks : s'.tasks = s.tasks
  used : ∀ a, s.Used a → s'.live a = s.live a
  live : ∀ a k, s'.live a = some k → (s.live a = some k ∧ s'.streams a = s.streams a) ∨
    (¬ s.Used a ∧ (c = true → s'.streams a = 0))

theorem Kept.refl (c : Bool) (s : Vfs) : Kept c s s := ⟨rfl, fun _ _ => rfl, fun _ _ h => .inl ⟨h, rfl⟩⟩

theorem Kept.used_iff (h : Kept c s s') : s'.Used a ↔ s.Used a := by
  unfold Used
  rw [h.tasks]

theorem Kept.trans (h : Kept c s s') (h' : Kept c s' s'') : Kept c s s'' where
  tasks := h'.tasks.trans h.tasks
  used := fun a ha => (h'.used a (h.used_iff.2 ha)).trans (h.used a ha)
  live := by
    intro a k hk
    rcases h'.live a k hk with ⟨h1, h2⟩ | ⟨h1, h2⟩
    · rw [h2]
      exact h.live a k h1
    · exact .inr ⟨fun ha => h1 (h.used_iff.2 ha), h2⟩

/-- **What an operation on the tree leaves as it was, is enough for the descriptors.** -/
theorem Refs.kept (h : s.Refs c) (hk : Kept c s s') : s'.Refs c where
  fds := by
    rw [hk.tasks]
    intro t ht d hd
    rw [hk.used _ ⟨t, ht, .inl ⟨d, hd, rfl⟩⟩]
    exact h.fds t ht d hd
  dir := by
    rw [hk.tasks]
    intro t ht h0
    rw [hk.used _ ⟨t, ht, .inr ⟨h0, rfl⟩⟩]
    exact h.dir t ht h0
  count := by
    intro a ha
    obtain ⟨k, hka⟩ := Option.ne_none_iff_exists'.1 ha
    rw [hk.tasks]
    rcases hk.live a k hka with ⟨h1, h2⟩ | ⟨h1, h2⟩
    · rw [h2]
      exact h.count a (by simp [h1])
    · rw [refCount_of_not_used h1]
      exact ⟨Nat.zero_le _, h2⟩

/-- An operation on the tree. -/
structure Goes (c : Bool) (s s' : Vfs) : Prop where
  inv : s'.Inv c
  kept : Kept c s s'

theorem Goes.refl (h : s.Inv c) : Goes c s s := ⟨h, .refl c s⟩

theorem Goes.trans (h : Goes c s s') (h' : Goes c s' s'') : Goes c s s'' := ⟨h'.inv, h.kept.trans h'.kept⟩

theorem Inv.goes (h : s.Inv c) (ht : s'.Tree) (hk : Kept c s s')
    (hp : ∀ a, s'.live a = some .pipe → s.live a = some .pipe ∧ s'.streams a = s.streams a) : Goes c s s' := by
  refine ⟨⟨ht, h.refs.kept hk, fun a ha => ?_⟩, hk⟩
  obtain ⟨h1, h2⟩ := hp a ha
  rw [h2]
  exact h.pipes a h1

theorem Goes.tick (h : s.Inv c) : Goes c s s.tick := by
  refine h.goes ?_ ⟨rfl, fun _ _ => rfl, fun _ _ h => .inl ⟨h, rfl⟩⟩ fun _ h => ⟨h, rfl⟩
  exact h.tree.shrink h.tree.null rfl h.tree.root (Nat.le_succ _) (fun _ _ h => ⟨h, rfl⟩) (fun _ _ h => ⟨h, rfl⟩)
    fun _ _ h => ⟨h, rfl⟩

theorem vnodes_tnodes (l : Listing) : vnodes (tnodes l) = ∅ := by
  ext a
  simp only [vnodes, tnodes, List.mem_map, Set.mem_ofPred_eq, Set.mem_empty_iff_false, iff_false, not_and]
  rintro h0 ⟨t, ⟨name, -, rfl⟩, rfl⟩
  exact h0 rfl

/-- An entry whose directory stays is not freed. -/
theorem Tree.not_freed (h : s.Tree) {p e : ℕ} (hd : s.live d = some .folder) (hp : s.Has p e ∨ s.Sub p e) (hpd : p ≠ d)
    (hpF : p ∉ s.subtree d) : e ∉ s.subtree d := by
  intro he
  obtain ⟨q, hq, hqe⟩ := h.parent hd he
  have hqp : q = p := by
    rcases hqe with h1 | h1 <;> rcases hp with h2 | h2
    · exact h.has_unique q p e h1 h2
    · exact absurd ((h.has q e h1).symm.trans (h.sub p e h2)) (by decide)
    · exact absurd ((h.sub q e h1).symm.trans (h.has p e h2)) (by decide)
    · exact h.sub_unique q p e h1 h2
  subst hqp
  rcases hq with hq | hq
  · exact hpd hq
  · exact hpF hq

/-- **A listing is loaded again**, when nothing below is in use. -/
theorem Inv.vfsDirLoadList (h : s.Inv c) (hd : s.live d = some .folder)
    (hr : s.vfsDirLoadList W (careful c) d = some s') : Goes c s s' ∧ ∀ a, a ∉ s.subtree d → s'.live a = s.live a := by
  unfold Vfs.vfsDirLoadList at hr
  split_ifs at hr with hq
  have hq : s.Quiet d := by simpa [careful] using hq
  obtain ⟨s₁, h1, hs⟩ := h.tree.frees hd
  rw [h1] at hr
  obtain rfl := Option.some.inj hr
  have hlive : ∀ a k, s₁.live a = some k → a ∉ s.subtree d ∧ s.live a = some k := by
    intro a k hk
    have ha : a ∉ s.subtree d := fun ha => by
      rw [hs.gone a ha] at hk
      cases hk
    exact ⟨ha, hs.kept a ha ▸ hk⟩
  set s' := s₁.tick.setFolder d { s₁.folders d with
    subfiles := tnodes (W.listFiles s₁.clock (s₁.folders d).inodeNum)
    subfolders := tnodes (W.listFolders s₁.clock (s₁.folders d).inodeNum)
    subfileCount := (W.listFiles s₁.clock (s₁.folders d).inodeNum).count
    subfolderCount := (W.listFolders s₁.clock (s₁.folders d).inodeNum).count } with hs'
  have hfolders : ∀ x, x ≠ d → s'.folders x = s₁.folders x := fun x hx => Function.update_of_ne hx _ _
  have hdir : vnodes (s'.folders d).subfolders = ∅ ∧ vnodes (s'.folders d).subfiles = ∅ := by
    simp [hs', setFolder, vnodes_tnodes]
  have hstreams : ∀ a k, s₁.live a = some k → s'.streams a = s.streams a := by
    intro a k hk
    have hf : (s'.folders a).streamsOpen = (s.folders a).streamsOpen := by
      rw [← hs.streams a]
      by_cases ha : a = d
      · simp [hs', setFolder, ha]
      · rw [hfolders a ha]
    have hfile : s'.files = s.files := hs.files
    have hlive' : s'.live a = s.live a := hk.trans (hlive a k hk).2.symm
    simp only [streams, hlive', hf, hfile]
  have hkept : Kept c s s' := by
    refine ⟨hs.tasks, fun a ha => hs.kept a fun hmem => hq a hmem ha, fun a k hk => .inl ⟨(hlive a k hk).2, hstreams a k hk⟩⟩
  refine ⟨h.goes ?_ hkept fun a ha => ⟨(hlive a _ ha).2, hstreams a _ ha⟩, hs.kept⟩
  apply h.tree.shrink
  · show s₁.live NULL = none
    by_cases h0 : NULL ∈ s.subtree d
    · exact hs.gone _ h0
    · rw [hs.kept _ h0, h.tree.null]
  · exact hs.root
  · show s₁.live s.root = _
    rw [hs.kept _ (h.tree.root_not_below hd), h.tree.root]
  · show s.clock ≤ s₁.clock + 1
    rw [hs.clock]
    exact Nat.le_succ _
  · rintro x e ⟨hx, he⟩
    obtain ⟨hxF, hx⟩ := hlive x _ hx
    have hxd : x ≠ d := by
      rintro rfl
      rw [hdir.1] at he
      exact he
    rw [hfolders x hxd, hs.subfolders x] at he
    exact ⟨⟨hx, he⟩, hs.kept e (h.tree.not_freed hd (.inr ⟨hx, he⟩) hxd hxF)⟩
  · rintro x e ⟨hx, he⟩
    obtain ⟨hxF, hx⟩ := hlive x _ hx
    have hxd : x ≠ d := by
      rintro rfl
      rw [hdir.2] at he
      exact he
    rw [hfolders x hxd] at he
    rcases hs.subfiles x with h2 | ⟨h2, -⟩
    · rw [h2] at he
      exact ⟨⟨hx, he⟩, hs.kept e (h.tree.not_freed hd (.inl ⟨hx, he⟩) hxd hxF)⟩
    · obtain ⟨-, t, ht, -⟩ := he
      rw [h2] at ht
      cases ht
  · intro a k hk
    exact ⟨(hlive a k hk).2, congrArg (fun f => (f a).cachedLinks) hs.files⟩

/-! ## New vnodes -/

theorem alloc_eq {k : NodeKind} (h : s.alloc W k = some (a, s')) :
    a ≠ NULL ∧ s.live a = none ∧ s' = { s.tick with live := Function.update s.live a (some k) } := by
  simp only [alloc] at h
  split_ifs at h with h0
  simp only [not_or, not_not] at h0
  cases h
  exact ⟨h0.1, h0.2, rfl⟩

/-- A new vnode is in nobody's hands. -/
theorem Inv.kept_new (h : s.Inv c) {k : NodeKind} (ha : s.live a = none) (htasks : s'.tasks = s.tasks)
    (hlive : s'.live = Function.update s.live a (some k)) (hstreams : ∀ x, x ≠ a → s'.streams x = s.streams x)
    (hnew : c = true → s'.streams a = 0) : Kept c s s' := by
  have hne : ∀ x, x ≠ a → s'.live x = s.live x := fun x hx => by rw [hlive, Function.update_of_ne hx]
  have hused : ¬ s.Used a := fun hu => h.refs.used_live hu ha
  refine ⟨htasks, fun x hx => hne x fun hxa => hused (hxa ▸ hx), fun x k' hk' => ?_⟩
  by_cases hx : x = a
  · rw [hx]
    exact .inr ⟨hused, hnew⟩
  · rw [hne x hx] at hk'
    exact .inl ⟨hk', hstreams x hx⟩

/-- The vnode `a` is new, and of a kind that is kept in listings. -/
theorem Inv.add (h : s.Inv c) {k : NodeKind} (ha : s.live a = none) (hk : k ≠ .pipe) (htree : s'.Tree)
    (htasks : s'.tasks = s.tasks) (hlive : s'.live = Function.update s.live a (some k))
    (hstreams : ∀ x, x ≠ a → s'.streams x = s.streams x) (hnew : c = true → s'.streams a = 0) : Goes c s s' := by
  refine h.goes htree (h.kept_new ha htasks hlive hstreams hnew) fun x hx => ?_
  by_cases hxa : x = a
  · rw [hlive, hxa, Function.update_self] at hx
    exact absurd (Option.some.inj hx) hk
  · rw [hlive, Function.update_of_ne hxa] at hx
    exact ⟨hx, hstreams x hxa⟩

/-- An entry of a list gets its vnode. -/
theorem vnodes_set {l : List Tnode} {i e : ℕ} {t : Tnode} (h : e ∈ vnodes (l.set i t)) : e ∈ vnodes l ∨ e = t.vnode := by
  obtain ⟨h0, t', ht', rfl⟩ := h
  rcases List.mem_or_eq_of_mem_set ht' with h1 | rfl
  · exact .inl ⟨h0, t', h1, rfl⟩
  · exact .inr rfl

variable {p i : ℕ} {t : Tnode} {n : ℕ}

/-- The vnode `a` is new, of the kind `k`, and has no entries; it is linked in the listing of `p`. -/
structure LoadedAt (s s' : Vfs) (p a : ℕ) (k : NodeKind) : Prop where
  live : s'.live = Function.update s.live a (some k)
  root : s'.root = s.root
  clock : s.clock < s'.clock
  tasks : s'.tasks = s.tasks
  subfolders : ∀ x, x ≠ a → ∀ e ∈ vnodes (s'.folders x).subfolders,
    e ∈ vnodes (s.folders x).subfolders ∨ (x = p ∧ e = a ∧ k = .folder)
  subfiles : ∀ x, x ≠ a → ∀ e ∈ vnodes (s'.folders x).subfiles,
    e ∈ vnodes (s.folders x).subfiles ∨ (x = p ∧ e = a ∧ k = .file)
  streamsOpen : ∀ x, x ≠ a → (s'.folders x).streamsOpen = (s.folders x).streamsOpen
  files : ∀ x, x ≠ a → s'.files x = s.files x
  folder : k = .folder → (s'.folders a).subfolders = [] ∧ (s'.folders a).subfiles = [] ∧ (s'.folders a).streamsOpen = 0
  file : k = .file → s'.files a = ⟨0, 1⟩

/-- **A vnode that is loaded** keeps the invariant. -/
theorem Inv.loaded (h : s.Inv c) {k : NodeKind} (hL : LoadedAt s s' p a k) (hk : k = .folder ∨ k = .file) (ha0 : a ≠ NULL)
    (ha : s.live a = none) : s'.Tree ∧ Goes c s s' := by
  have hold : ∀ x, x ≠ a → s'.live x = s.live x := fun x hx => by rw [hL.live, Function.update_of_ne hx]
  -- a directory that has entries is an old one
  have hdir : ∀ x e, s'.live x = some .folder →
      (e ∈ vnodes (s'.folders x).subfolders ∨ e ∈ vnodes (s'.folders x).subfiles) → x ≠ a := by
    rintro x e hx he rfl
    rw [hL.live, Function.update_self] at hx
    obtain ⟨h1, h2, -⟩ := hL.folder (Option.some.inj hx)
    rw [h1, h2] at he
    simp [vnodes] at he
  have htree : s'.Tree := by
    apply h.tree.add (p := p) ha0 ha hL.live hL.root hL.clock
    · rintro x e ⟨hx, he⟩
      have hxa := hdir x e hx (.inl he)
      rcases hL.subfolders x hxa e he with he | ⟨rfl, rfl, rfl⟩
      · exact .inl ⟨hxa, hold x hxa ▸ hx, he⟩
      · exact .inr ⟨rfl, hxa, rfl, rfl⟩
    · rintro x e ⟨hx, he⟩
      have hxa := hdir x e hx (.inr he)
      rcases hL.subfiles x hxa e he with he | ⟨rfl, rfl, rfl⟩
      · exact .inl ⟨hxa, hold x hxa ▸ hx, he⟩
      · exact .inr ⟨rfl, hxa, rfl, rfl⟩
    · intro x hx
      rw [hL.files x hx]
    · intro hne
      obtain rfl := hk.resolve_left hne
      simp [hL.file rfl]
  refine ⟨htree, h.add ha ?_ htree hL.tasks hL.live (fun x hx => ?_) fun _ => ?_⟩
  · rcases hk with rfl | rfl <;> decide
  · simp only [streams, hold x hx, hL.streamsOpen x hx, hL.files x hx]
  · rcases hk with rfl | rfl
    · simp [streams, hL.live, (hL.folder rfl).2.2]
    · simp [streams, hL.live, hL.file rfl]

/-- **A directory is loaded.** -/
theorem Inv.vfsLoadFolderAt (h : s.Inv c) (hp : s.live p = some .folder)
    (hr : s.vfsLoadFolderAt W (careful c) p i t = some (n, s')) :
    Goes c s s' ∧ (n ≠ NULL → s'.live n = some .folder) := by
  have htick := Goes.tick h
  simp only [Vfs.vfsLoadFolderAt] at hr
  split_ifs at hr with hino
  · obtain ⟨s₁, h1, h2⟩ := Option.map_eq_some_iff.1 hr
    cases h2
    exact ⟨htick.trans (htick.inv.vfsDirLoadList hp h1).1, fun h0 => absurd rfl h0⟩
  obtain ⟨⟨a, s₁⟩, h1, hr⟩ := Option.bind_eq_some_iff.1 hr
  obtain ⟨ha0, ha, hs₁⟩ := alloc_eq h1
  obtain ⟨s₂, h2, h3⟩ := Option.map_eq_some_iff.1 hr
  cases h3
  have hpa : p ≠ a := by
    rintro rfl
    exact absurd (hp.symm.trans ha) (by simp)
  -- the state before the listing of the new directory
  set inode := W.openat s.clock (s.folders p).inodeNum t.name
  set s₀ := (s₁.setFolder p { s₁.folders p with
    subfolders := (s₁.folders p).subfolders.set i { t with vnode := a } }).setFolder a ⟨inode, 0, [], [], 0, 0⟩ with hs₀
  have hfolder : ∀ x, x ≠ a → x ≠ p → s₀.folders x = s.tick.folders x := by
    intro x hxa hxp
    simp [hs₀, hs₁, setFolder, hxa, hxp]
  have hparent : s₀.folders p = { s.tick.folders p with
      subfolders := (s.tick.folders p).subfolders.set i { t with vnode := a } } := by
    simp [hs₀, hs₁, setFolder, hpa]
  have hL : LoadedAt s.tick s₀ p a .folder := by
    refine ⟨by rw [hs₀, hs₁]; rfl, by rw [hs₀, hs₁]; rfl, by rw [hs₀, hs₁]; exact Nat.lt_succ_self _,
      by rw [hs₀, hs₁]; rfl, fun x hxa e he => ?_, fun x hxa e he => ?_, fun x hxa => ?_,
      fun x _ => by rw [hs₀, hs₁]; rfl, fun _ => by simp [hs₀, setFolder], fun h => by cases h⟩
    all_goals by_cases hxp : x = p
    · subst hxp
      rw [hparent] at he
      exact (vnodes_set he).imp id fun he => ⟨rfl, he, rfl⟩
    · exact .inl (hfolder x hxa hxp ▸ he)
    · subst hxp
      rw [hparent] at he
      exact .inl he
    · exact .inl (hfolder x hxa hxp ▸ he)
    · rw [hxp, hparent]
    · rw [hfolder x hxa hxp]
  obtain ⟨htree, hgoes⟩ := htick.inv.loaded hL (.inl rfl) ha0 ha
  have hnew : s₀.live a = some .folder := by simp [hL.live]
  obtain ⟨h4, h5⟩ := hgoes.inv.vfsDirLoadList hnew h2
  exact ⟨(htick.trans hgoes).trans h4, fun _ => by rw [h5 a (htree.not_below_self hnew), hnew]⟩

/-- **A file is loaded.** -/
theorem Inv.vfsLoadFileAt (h : s.Inv c) (hp : s.live p = some .folder)
    (hr : s.vfsLoadFileAt W (careful c) p i t = some (n, s')) :
    Goes c s s' ∧ (n ≠ NULL → s'.live n = some .file) := by
  have htick := Goes.tick h
  simp only [Vfs.vfsLoadFileAt] at hr
  split_ifs at hr with hino
  · obtain ⟨s₁, h1, h2⟩ := Option.map_eq_some_iff.1 hr
    cases h2
    exact ⟨htick.trans (htick.inv.vfsDirLoadList hp h1).1, fun h0 => absurd rfl h0⟩
  obtain ⟨⟨a, s₁⟩, h1, hr⟩ := Option.map_eq_some_iff.1 hr
  obtain ⟨ha0, ha, hs₁⟩ := alloc_eq h1
  obtain ⟨rfl, rfl⟩ := Prod.mk.inj hr
  set s₀ := (s₁.setFolder p { s₁.folders p with
    subfiles := (s₁.folders p).subfiles.set i { t with vnode := a } }).setFile a ⟨0, 1⟩ with hs₀
  have hfolder : ∀ x, x ≠ p → s₀.folders x = s.tick.folders x := by
    intro x hxp
    simp [hs₀, hs₁, setFolder, setFile, hxp]
  have hparent : s₀.folders p = { s.tick.folders p with
      subfiles := (s.tick.folders p).subfiles.set i { t with vnode := a } } := by
    simp [hs₀, hs₁, setFolder, setFile]
  have hL : LoadedAt s.tick s₀ p a .file := by
    refine ⟨by rw [hs₀, hs₁]; rfl, by rw [hs₀, hs₁]; rfl, by rw [hs₀, hs₁]; exact Nat.lt_succ_self _,
      by rw [hs₀, hs₁]; rfl, fun x hxa e he => ?_, fun x hxa e he => ?_, fun x hxa => ?_,
      fun x hx => by simp [hs₀, hs₁, setFolder, setFile, hx], fun h => (by cases h), fun _ => by simp [hs₀, setFile]⟩
    all_goals by_cases hxp : x = p
    · subst hxp
      rw [hparent] at he
      exact .inl he
    · exact .inl (hfolder x hxp ▸ he)
    · subst hxp
      rw [hparent] at he
      exact (vnodes_set he).imp id fun he => ⟨rfl, he, rfl⟩
    · exact .inl (hfolder x hxp ▸ he)
    · rw [hxp, hparent]
    · rw [hfolder x hxp]
  obtain ⟨-, hgoes⟩ := htick.inv.loaded hL (.inr rfl) ha0 ha
  exact ⟨htick.trans hgoes, fun _ => by simp [hL.live]⟩

/-! ## Searches -/

theorem mem_of_searchList {l : List Tnode} {name : List UInt8} (h : searchList l name = some (i, t)) : t ∈ l := by
  obtain ⟨j, -, hj⟩ := Option.bind_eq_some_iff.1 h
  obtain ⟨t', ht', heq⟩ := Option.map_eq_some_iff.1 hj
  cases heq
  exact List.mem_of_getElem? ht'

variable {cur : ℕ} {name : List UInt8}

theorem Inv.walkDirs {arr : List (List UInt8)} {r : Option (ℕ × List UInt8)} (h : s.Inv c) (hcur : s.live cur = some .folder)
    (hr : Vfs.walkDirs W (careful c) s cur arr = some (r, s')) :
    Goes c s s' ∧ ∀ d name, r = some (d, name) → s'.live d = some .folder := by
  induction arr generalizing s cur with
  | nil =>
    cases hr
    exact ⟨.refl h, fun _ _ h0 => by cases h0⟩
  | cons name rest ih =>
    cases rest with
    | nil =>
      cases hr
      refine ⟨.refl h, fun d name' h0 => ?_⟩
      cases h0
      exact hcur
    | cons next rest =>
      simp only [Vfs.walkDirs] at hr
      split at hr
      · cases hr
        exact ⟨.refl h, fun _ _ h0 => by cases h0⟩
      · rename_i i t hfound
        split_ifs at hr with ht
        · obtain ⟨⟨node, s₁⟩, h1, hr⟩ := Option.bind_eq_some_iff.1 hr
          obtain ⟨hgoes, hnode⟩ := h.vfsLoadFolderAt hcur h1
          simp only at hr
          split_ifs at hr with h0
          · cases hr
            exact ⟨hgoes, fun _ _ h0 => by cases h0⟩
          · obtain ⟨h2, h3⟩ := ih hgoes.inv (hnode h0) hr
            exact ⟨hgoes.trans h2, h3⟩
        · exact ih h (h.tree.sub cur _ ⟨hcur, ht, t, mem_of_searchList hfound, rfl⟩) hr

/-- The result of a search: a vnode with its type, or `NULL`. -/
def Found (s : Vfs) (node file : ℕ) : Prop := node ≠ NULL → ∃ k, s.live node = some k ∧ Fits k file

theorem Inv.loadedVnode {file node vnode f : ℕ} (h : s.Inv c) (hf : Found s node file)
    (hr : s.loadedVnode W (careful c) file node = some (vnode, f, s')) : Goes c s s' ∧ Found s' vnode f := by
  unfold Vfs.loadedVnode at hr
  split_ifs at hr with h0
  · -- a `tnode` that was freed reads `NULL`
    simp only at hr
    split_ifs at hr with hv
    cases hr
    exact ⟨.tick h, fun h1 => absurd (by simpa [careful] using hv) h1⟩
  · cases hr
    exact ⟨.refl h, hf⟩

theorem Inv.searchLast {vnode f : ℕ} (h : s.Inv c) (hcur : s.live cur = some .folder)
    (hr : s.searchLast W (careful c) cur name = some (vnode, f, s')) : Goes c s s' ∧ Found s' vnode f := by
  unfold Vfs.searchLast at hr
  split at hr
  · rename_i i t hfound
    split_ifs at hr with ht
    · obtain ⟨⟨node, s₁⟩, h1, hr⟩ := Option.bind_eq_some_iff.1 hr
      obtain ⟨hgoes, hnode⟩ := h.vfsLoadFileAt hcur h1
      obtain ⟨h2, h3⟩ := hgoes.inv.loadedVnode (fun h0 => ⟨_, hnode h0, by decide⟩) hr
      exact ⟨hgoes.trans h2, h3⟩
    · cases hr
      refine ⟨.refl h, fun _ => ⟨_, h.tree.has cur _ ⟨hcur, ht, t, mem_of_searchList hfound, rfl⟩, by decide⟩⟩
  · split at hr
    · cases hr
      exact ⟨.refl h, fun h0 => absurd rfl h0⟩
    · rename_i i t hfound
      split_ifs at hr with ht
      · obtain ⟨⟨node, s₁⟩, h1, hr⟩ := Option.bind_eq_some_iff.1 hr
        obtain ⟨hgoes, hnode⟩ := h.vfsLoadFolderAt hcur h1
        obtain ⟨h2, h3⟩ := hgoes.inv.loadedVnode (fun h0 => ⟨_, hnode h0, by decide⟩) hr
        exact ⟨hgoes.trans h2, h3⟩
      · cases hr
        refine ⟨.refl h, fun _ => ⟨_, h.tree.sub cur _ ⟨hcur, ht, t, mem_of_searchList hfound, rfl⟩, by decide⟩⟩

variable {task : VfsTask} {prev : UInt8} {path : List UInt8}

/-- **A search gives a vnode that is in memory.** -/
theorem Inv.vfsSearchVnode {vnode f : ℕ} (h : s.Inv c) (htask : task ∈ s.tasks)
    (hr : s.vfsSearchVnode W (careful c) task prev path = some (vnode, f, s')) : Goes c s s' ∧ Found s' vnode f := by
  obtain ⟨arr, -, hr⟩ := Option.bind_eq_some_iff.1 hr
  set cur := if path.head? ≠ some slash ∧ task.currentDir ≠ NULL then task.currentDir else s.root with hcurdef
  have hcur : s.live cur = some .folder := by
    rw [hcurdef]
    split_ifs with h0
    · exact h.refs.dir task htask h0.2
    · exact h.tree.root
  split at hr
  · simp only [Option.some.injEq, Prod.mk.injEq] at hr
    obtain ⟨rfl, rfl, rfl⟩ := hr
    exact ⟨.refl h, fun _ => ⟨_, hcur, by decide⟩⟩
  · obtain ⟨⟨dir, s₁⟩, h1, hr⟩ := Option.bind_eq_some_iff.1 hr
    obtain ⟨hgoes, hdir⟩ := h.walkDirs hcur h1
    simp only at hr
    split at hr
    · cases hr
      exact ⟨hgoes, fun h0 => absurd rfl h0⟩
    · obtain ⟨h2, h3⟩ := hgoes.inv.searchLast (hdir _ _ rfl) hr
      exact ⟨hgoes.trans h2, h3⟩

/-! ## Creation -/

/-- A new file or pipe is in no listing, and nobody has it. -/
theorem Inv.newFile {k : NodeKind} {f : FileNode} {s₁ : Vfs} (h : s.Inv c) (hr : s.alloc W k = some (a, s₁)) (hk : k ≠ .folder)
    (hl : f.cachedLinks = 0 ↔ k = .pipe) (hc : c = true → f.streamsOpen = 0) :
    (s₁.setFile a f).Tree ∧ Kept c s (s₁.setFile a f) ∧ s.live a = none ∧
      (s₁.setFile a f).live = Function.update s.live a (some k) ∧
      (∀ x, ¬ (s₁.setFile a f).Has x a ∧ ¬ (s₁.setFile a f).Sub x a) ∧
      ∀ x, x ≠ a → (s₁.setFile a f).streams x = s.streams x := by
  obtain ⟨ha0, ha, hs₁⟩ := alloc_eq hr
  set s₀ := s₁.setFile a f with hs₀
  have hlive : s₀.live = Function.update s.live a (some k) := by rw [hs₀, hs₁]; rfl
  have hold : ∀ x, x ≠ a → s₀.live x = s.live x := fun x hx => by rw [hlive, Function.update_of_ne hx]
  have hfolder : s₀.folders = s.folders := by rw [hs₀, hs₁]; rfl
  have hfile : ∀ x, x ≠ a → s₀.files x = s.files x := by
    intro x hx
    simp [hs₀, hs₁, setFile, hx]
  have hself : s₀.files a = f := by simp [hs₀, setFile]
  -- the new node is no folder
  have hdir : ∀ x, s₀.live x = some .folder → x ≠ a ∧ s.live x = some .folder := by
    intro x hx
    have hxa : x ≠ a := by
      rintro rfl
      exact hk (by simpa [hlive] using hx)
    exact ⟨hxa, by rwa [hold x hxa] at hx⟩
  have hsub : ∀ x e, s₀.Sub x e → x ≠ a ∧ s.Sub x e := by
    rintro x e ⟨hx, he⟩
    rw [hfolder] at he
    exact ⟨(hdir x hx).1, (hdir x hx).2, he⟩
  have hhas : ∀ x e, s₀.Has x e → x ≠ a ∧ s.Has x e := by
    rintro x e ⟨hx, he⟩
    rw [hfolder] at he
    exact ⟨(hdir x hx).1, (hdir x hx).2, he⟩
  have hstreams : ∀ x, x ≠ a → s₀.streams x = s.streams x := by
    intro x hx
    simp only [streams, hold x hx, hfolder, hfile x hx]
  refine ⟨?_, ?_, ha, hlive, fun x => ⟨fun hx => ?_, fun hx => ?_⟩, hstreams⟩
  · apply h.tree.add (p := NULL) ha0 ha hlive
    · rw [hs₀, hs₁]; rfl
    · rw [hs₀, hs₁]; exact Nat.lt_succ_self _
    · exact fun x e he => .inl (hsub x e he)
    · exact fun x e he => .inl (hhas x e he)
    · intro x hx
      rw [hfile x hx]
    · intro _
      rw [hself, hl]
  · refine h.kept_new ha (by rw [hs₀, hs₁]; rfl) hlive hstreams fun hc' => ?_
    simp [streams, hlive, hself, hk, hc hc']
  · exact absurd ((h.tree.has x a (hhas x a hx).2).symm.trans ha) (by simp)
  · exact absurd ((h.tree.sub x a (hsub x a hx).2).symm.trans ha) (by simp)

theorem Inv.createVnode {par node : ℕ} (h : s.Inv c) (hpar : s.live par = some .folder)
    (hr : s.createVnode W (careful c) par = some (node, s')) : Goes c s s' ∧ Found s' node 1 := by
  simp only [Vfs.createVnode] at hr
  split_ifs at hr with hdirty
  obtain ⟨⟨a, s₁⟩, h1, hr⟩ := Option.bind_eq_some_iff.1 hr
  obtain ⟨s₂, h2, h3⟩ := Option.map_eq_some_iff.1 hr
  cases h3
  have hclean : c = true → W.garbage s.clock = 0 := by
    rintro rfl
    simpa [careful] using hdirty
  obtain ⟨htree, hkept, ha, hlive, hfree, hstreams⟩ :=
    h.newFile (f := ⟨W.garbage s.clock, 1⟩) h1 (by decide) (by simp) hclean
  set s₀ := s₁.setFile a ⟨W.garbage s.clock, 1⟩
  have hold : ∀ x k, s₀.live x = some k → k ≠ .file → x ≠ a := by
    rintro x k hx hk rfl
    rw [hlive, Function.update_self] at hx
    exact hk (Option.some.inj hx).symm
  have hgoes : Goes c s s₀ := by
    refine h.goes htree hkept fun x hx => ?_
    have hxa := hold x _ hx (by decide)
    rw [hlive, Function.update_of_ne hxa] at hx
    exact ⟨hx, hstreams x hxa⟩
  have hpar₀ : s₀.live par = some .folder := by
    have hpa : par ≠ a := by
      rintro rfl
      exact absurd (hpar.symm.trans ha) (by simp)
    rw [hlive, Function.update_of_ne hpa, hpar]
  -- the new vnode is in no listing, so it is not freed with the others
  have hmem : a ∉ s₀.subtree par := by
    intro hmem
    obtain ⟨q, -, hq | hq⟩ := htree.parent hpar₀ hmem
    · exact (hfree q).1 hq
    · exact (hfree q).2 hq
  obtain ⟨h4, h5⟩ := hgoes.inv.vfsDirLoadList hpar₀ h2
  exact ⟨hgoes.trans h4, fun _ => ⟨.file, by rw [h5 a hmem, hlive, Function.update_self], by decide⟩⟩

theorem Inv.mknodeFile {node : ℕ} (h : s.Inv c) (hr : s.mknodeFile W (careful c) prev path = some (node, s')) :
    Goes c s s' ∧ Found s' node 1 := by
  obtain ⟨arr, -, hr⟩ := Option.bind_eq_some_iff.1 hr
  split at hr
  · cases hr
    exact ⟨.refl h, fun h0 => absurd rfl h0⟩
  · obtain ⟨⟨dir, s₁⟩, h1, hr⟩ := Option.bind_eq_some_iff.1 hr
    obtain ⟨hgoes, hdir⟩ := h.walkDirs h.tree.root h1
    simp only at hr
    split at hr
    · cases hr
      exact ⟨hgoes, fun h0 => absurd rfl h0⟩
    · have hpar := hdir _ _ rfl
      split at hr
      · rename_i i t hfound
        cases hr
        refine ⟨hgoes, fun h0 => ⟨_, hgoes.inv.tree.has _ _ ⟨hpar, h0, t, mem_of_searchList hfound, rfl⟩, by decide⟩⟩
      · obtain ⟨h2, h3⟩ := hgoes.inv.createVnode hpar hr
        exact ⟨hgoes.trans h2, h3⟩

end Nettapus.Vfs
