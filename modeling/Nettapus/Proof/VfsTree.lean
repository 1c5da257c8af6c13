import Nettapus.Code.Vfs
import Mathlib.Data.Set.Lattice

/-!
# The tree of vnodes

`Tree` says that the cached entries of the listings make up a tree: an entry's vnode is in memory, it has one
parent, and the depth of a directory is bounded. `free_dir_list` frees everything below a directory, which is
`nodesBelow` (`freeDirList_frees`). `Tree.shrink` and `Tree.add` are the two ways in which a state changes: entries
go away, or a vnode is new.
-/

namespace Nettapus.Vfs

/-- The vnodes of a list of entries. -/
def vnodes (l : List Tnode) : Set ℕ := { a | a ≠ NULL ∧ ∃ t ∈ l, t.vnode = a }

/-- The directory `e` is cached in the listing of the directory `d`. -/
def Sub (s : Vfs) (d e : ℕ) : Prop := s.live d = some .folder ∧ e ∈ vnodes (s.folders d).subfolders

/-- The file `e` is cached in the listing of the directory `d`. -/
def Has (s : Vfs) (d e : ℕ) : Prop := s.live d = some .folder ∧ e ∈ vnodes (s.folders d).subfiles

structure Tree (s : Vfs) : Prop where
  null : s.live NULL = none
  root : s.live s.root = some .folder
  sub : ∀ d e, s.Sub d e → s.live e = some .folder
  has : ∀ d e, s.Has d e → s.live e = some .file
  sub_unique : ∀ d d' e, s.Sub d e → s.Sub d' e → d = d'
  has_unique : ∀ d d' e, s.Has d e → s.Has d' e → d = d'
  root_top : ∀ d, ¬ s.Sub d s.root
  /-- A directory is deeper than its parent. -/
  ranked : ∃ rank : ℕ → ℕ, ∀ d e, s.Sub d e → rank d < rank e ∧ rank e ≤ s.clock
  /-- A pipe has no links. -/
  links : ∀ a k, s.live a = some k → k ≠ .folder → ((s.files a).cachedLinks = 0 ↔ k = .pipe)

/-! ## What is below a directory -/

/-- The vnodes in the listings below a directory. -/
def nodesBelow : ℕ → Vfs → ℕ → List ℕ
  | 0, _, _ => []
  | depth + 1, s, d =>
    (((s.folders d).subfiles.map (·.vnode)).filter (· ≠ NULL)) ++
      (((s.folders d).subfolders.map (·.vnode)).filter (· ≠ NULL)).flatMap fun e => e :: nodesBelow depth s e

variable {s s' s₀ : Vfs} {a d e : ℕ}

/-- What is below the directories of a list. -/
def foldersBelow (n : ℕ) (s : Vfs) (l : List Tnode) : Set ℕ :=
  { a | ∃ e ∈ vnodes l, a = e ∨ a ∈ nodesBelow n s e }

theorem nodesBelow_eq {n : ℕ} : { a | a ∈ nodesBelow (n + 1) s d } =
    vnodes (s.folders d).subfiles ∪ foldersBelow n s (s.folders d).subfolders := by
  ext a
  simp only [nodesBelow, List.mem_append, List.mem_filter, List.mem_map, List.mem_flatMap, List.mem_cons,
    decide_eq_true_eq, Set.mem_ofPred_eq, Set.mem_union, vnodes, foldersBelow]
  constructor
  · rintro (⟨ht, ha⟩ | ⟨e, ⟨ht, he⟩, hae⟩)
    · exact .inl ⟨ha, ht⟩
    · exact .inr ⟨e, ⟨he, ht⟩, hae⟩
  · rintro (⟨ha, ht⟩ | ⟨e, ⟨he, ht⟩, hae⟩)
    · exact .inl ⟨ht, ha⟩
    · exact .inr ⟨e, ⟨ht, he⟩, hae⟩

theorem mem_nodesBelow_succ {n : ℕ} (hd : s.live d = some .folder) :
    a ∈ nodesBelow (n + 1) s d ↔ s.Has d a ∨ ∃ e, s.Sub d e ∧ (a = e ∨ a ∈ nodesBelow n s e) := by
  have h := Set.ext_iff.1 (nodesBelow_eq (s := s) (d := d) (n := n)) a
  simpa only [Has, Sub, hd, true_and, foldersBelow, Set.mem_union, Set.mem_ofPred_eq] using h

/-- What is below a directory is in a listing there. -/
theorem Tree.parent (h : s.Tree) {n : ℕ} (hd : s.live d = some .folder) (ha : a ∈ nodesBelow n s d) :
    ∃ p, (p = d ∨ p ∈ nodesBelow n s d) ∧ (s.Has p a ∨ s.Sub p a) := by
  induction n generalizing d with
  | zero => cases ha
  | succ n ih =>
    rcases (mem_nodesBelow_succ hd).1 ha with hfile | ⟨e, he, hae⟩
    · exact ⟨d, .inl rfl, .inl hfile⟩
    rcases hae with rfl | hae
    · exact ⟨d, .inl rfl, .inr he⟩
    obtain ⟨p, hp, hpa⟩ := ih (h.sub d e he) hae
    refine ⟨p, .inr ((mem_nodesBelow_succ hd).2 (.inr ⟨e, he, ?_⟩)), hpa⟩
    exact hp

/-- What is below a directory is in memory, and a directory is not below itself. -/
theorem Tree.below (h : s.Tree) {n : ℕ} {rank : ℕ → ℕ} (hrank : ∀ d e, s.Sub d e → rank d < rank e ∧ rank e ≤ s.clock)
    (hd : s.live d = some .folder) (ha : a ∈ nodesBelow n s d) :
    s.live a = some .file ∨ (s.live a = some .folder ∧ rank d < rank a) := by
  induction n generalizing d with
  | zero => cases ha
  | succ n ih =>
    rcases (mem_nodesBelow_succ hd).1 ha with hfile | ⟨e, he, hae⟩
    · exact .inl (h.has d a hfile)
    have hde := (hrank d e he).1
    rcases hae with rfl | hae
    · exact .inr ⟨h.sub d a he, hde⟩
    rcases ih (h.sub d e he) hae with hf | ⟨hf, hea⟩
    · exact .inl hf
    · exact .inr ⟨hf, hde.trans hea⟩

theorem Tree.not_below_self (h : s.Tree) {n : ℕ} (hd : s.live d = some .folder) : d ∉ nodesBelow n s d := by
  intro hmem
  obtain ⟨rank, hrank⟩ := h.ranked
  rcases h.below hrank hd hmem with hf | ⟨-, hlt⟩
  · rw [hd] at hf
    cases hf
  · exact lt_irrefl _ hlt

/-- The root and the pipes are below nothing. -/
theorem Tree.root_not_below (h : s.Tree) {n : ℕ} (hd : s.live d = some .folder) : s.root ∉ nodesBelow n s d := by
  intro hmem
  obtain ⟨p, -, hp | hp⟩ := h.parent hd hmem
  · have hr := h.has p _ hp
    rw [h.root] at hr
    cases hr
  · exact h.root_top p hp

/-! ## `free_dir_list` -/

/-- The state after the vnodes `F` were freed, with the listings of some of them. -/
structure Cleared (s₀ : Vfs) (F : Set ℕ) (s : Vfs) : Prop where
  gone : ∀ a ∈ F, s.live a = none
  kept : ∀ a, a ∉ F → s.live a = s₀.live a
  files : s.files = s₀.files
  root : s.root = s₀.root
  tasks : s.tasks = s₀.tasks
  clock : s.clock = s₀.clock
  inode : ∀ x, (s.folders x).inodeNum = (s₀.folders x).inodeNum
  streams : ∀ x, (s.folders x).streamsOpen = (s₀.folders x).streamsOpen
  subfolders : ∀ x, (s.folders x).subfolders = (s₀.folders x).subfolders
  subfiles : ∀ x, (s.folders x).subfiles = (s₀.folders x).subfiles ∨
    ((s.folders x).subfiles = [] ∧ ∀ t ∈ (s₀.folders x).subfiles, t.vnode ≠ NULL → t.vnode ∈ F)

theorem Cleared.refl (s : Vfs) : Cleared s ∅ s where
  gone := fun _ h => h.elim
  kept := fun _ _ => rfl
  files := rfl
  root := rfl
  tasks := rfl
  clock := rfl
  inode := fun _ => rfl
  streams := fun _ => rfl
  subfolders := fun _ => rfl
  subfiles := fun _ => .inl rfl

variable {F : Set ℕ}

theorem Cleared.unload (h : Cleared s₀ F s) (a : ℕ) : Cleared s₀ (insert a F) (s.unload a) where
  gone := by
    intro x hx
    by_cases hxa : x = a
    · simp [Vfs.unload, hxa]
    · simpa [Vfs.unload, hxa] using h.gone x (hx.resolve_left hxa)
  kept := by
    intro x hx
    have hxa : x ≠ a := fun hxa => hx (.inl hxa)
    simpa [Vfs.unload, hxa] using h.kept x fun hxF => hx (.inr hxF)
  files := h.files
  root := h.root
  tasks := h.tasks
  clock := h.clock
  inode := h.inode
  streams := h.streams
  subfolders := h.subfolders
  subfiles := fun x => (h.subfiles x).imp_right fun ⟨hx, hF⟩ => ⟨hx, fun t ht h0 => .inr (hF t ht h0)⟩

/-- The listing of a directory is cleared, after its files were freed. -/
theorem Cleared.clear (h : Cleared s₀ F s) (d : ℕ) (hF : ∀ t ∈ (s₀.folders d).subfiles, t.vnode ≠ NULL → t.vnode ∈ F) :
    Cleared s₀ F (s.setFolder d { s.folders d with subfiles := [], subfileCount := 0 }) := by
  have hx : ∀ x, x ≠ d →
      (s.setFolder d { s.folders d with subfiles := [], subfileCount := 0 }).folders x = s.folders x :=
    fun x hxd => Function.update_of_ne hxd _ _
  refine ⟨h.gone, h.kept, h.files, h.root, h.tasks, h.clock, fun x => ?_, fun x => ?_, fun x => ?_, fun x => ?_⟩
  · by_cases hxd : x = d
    · simpa [setFolder, hxd] using h.inode d
    · rw [hx x hxd, h.inode]
  · by_cases hxd : x = d
    · simpa [setFolder, hxd] using h.streams d
    · rw [hx x hxd, h.streams]
  · by_cases hxd : x = d
    · simpa [setFolder, hxd] using h.subfolders d
    · rw [hx x hxd, h.subfolders]
  · by_cases hxd : x = d
    · subst hxd
      exact .inr ⟨by simp [setFolder], hF⟩
    · rw [hx x hxd]
      exact h.subfiles x

theorem vnodes_cons (t : Tnode) (l : List Tnode) : vnodes (t :: l) = (if t.vnode = NULL then ∅ else {t.vnode}) ∪ vnodes l := by
  ext a
  by_cases h : t.vnode = NULL
  · simp only [vnodes, h, if_true, Set.empty_union, Set.mem_ofPred_eq, List.mem_cons, exists_eq_or_imp]
    constructor
    · rintro ⟨h0, rfl | ha⟩
      · exact absurd rfl h0
      · exact ⟨h0, ha⟩
    · exact fun ⟨h0, ha⟩ => ⟨h0, .inr ha⟩
  · simp only [vnodes, h, if_false, Set.mem_ofPred_eq, List.mem_cons, exists_eq_or_imp, Set.mem_union,
      Set.mem_singleton_iff]
    constructor
    · rintro ⟨h0, ha | ha⟩
      · exact .inl ha.symm
      · exact .inr ⟨h0, ha⟩
    · rintro (ha | ⟨h0, ha⟩)
      · exact ⟨by rw [ha]; exact h, .inl ha.symm⟩
      · exact ⟨h0, .inr ha⟩

theorem Cleared.unloadAll (l : List Tnode) (h : Cleared s₀ F s) :
    Cleared s₀ (F ∪ vnodes l) (l.foldl (fun s t => if t.vnode = NULL then s else s.unload t.vnode) s) := by
  induction l generalizing s F with
  | nil => simpa [vnodes] using h
  | cons t l ih =>
    rw [List.foldl_cons, vnodes_cons, ← Set.union_assoc]
    apply ih
    by_cases ht : t.vnode = NULL
    · simpa [ht] using h
    · rw [if_neg ht, if_neg ht, Set.union_singleton]
      exact h.unload t.vnode

theorem Cleared.freeFiles (h : Cleared s₀ F s) (d : ℕ) : Cleared s₀ (F ∪ vnodes (s₀.folders d).subfiles) (s.freeFiles d) := by
  unfold Vfs.freeFiles
  rcases h.subfiles d with hd | ⟨hd, hF⟩
  · rw [hd]
    split_ifs with h0
    · simpa [h0, vnodes] using h
    · exact (h.unloadAll _).clear d fun t ht h0 => .inr ⟨h0, t, ht, rfl⟩
  · rw [if_pos hd, Set.union_eq_left.2]
    · exact h
    · rintro a ⟨h0, t, ht, rfl⟩
      exact hF t ht h0

theorem foldersBelow_cons {n : ℕ} (t : Tnode) (l : List Tnode) : foldersBelow n s (t :: l) =
    (if t.vnode = NULL then ∅ else insert t.vnode { a | a ∈ nodesBelow n s t.vnode }) ∪ foldersBelow n s l := by
  ext a
  simp only [foldersBelow, vnodes_cons, Set.mem_ofPred_eq, Set.mem_union]
  by_cases h : t.vnode = NULL
  · simp [h]
  · simp only [h, if_false, Set.mem_singleton_iff, Set.mem_insert_iff, Set.mem_ofPred_eq]
    constructor
    · rintro ⟨e, rfl | he, hae⟩
      · exact .inl hae
      · exact .inr ⟨e, he, hae⟩
    · rintro (hae | ⟨e, he, hae⟩)
      · exact ⟨t.vnode, .inl rfl, hae⟩
      · exact ⟨e, .inr he, hae⟩

/-- **Everything below a directory is freed**, and the depth is enough. -/
theorem Tree.freeDirList_frees (h : s₀.Tree) {rank : ℕ → ℕ}
    (hrank : ∀ d e, s₀.Sub d e → rank d < rank e ∧ rank e ≤ s₀.clock) {n : ℕ} (hd : s₀.live d = some .folder)
    (hn : s₀.clock < n + rank d) (hn0 : 0 < n) (hs : Cleared s₀ F s) :
    ∃ s', freeDirList n s d = some s' ∧ Cleared s₀ (F ∪ { a | a ∈ nodesBelow n s₀ d }) s' := by
  induction n generalizing s d F with
  | zero => cases hn0
  | succ n ih =>
    -- the loop over the folders, from any state between
    have loop : ∀ (l : List Tnode) (s : Vfs) (F : Set ℕ), (∀ t ∈ l, t ∈ (s₀.folders d).subfolders) → Cleared s₀ F s →
        ∃ s', l.foldlM (fun s t => if t.vnode = NULL then some s
          else (freeDirList n s t.vnode).map fun s => s.unload t.vnode) s = some s' ∧
            Cleared s₀ (F ∪ foldersBelow n s₀ l) s' := by
      intro l
      induction l with
      | nil => exact fun s F _ hs => ⟨s, rfl, by simpa [foldersBelow, vnodes] using hs⟩
      | cons t l ihl =>
        intro s F hl hs
        rw [foldersBelow_cons, ← Set.union_assoc]
        by_cases ht : t.vnode = NULL
        · obtain ⟨s', h1, h2⟩ := ihl s F (fun t ht => hl t (List.mem_cons_of_mem _ ht)) hs
          refine ⟨s', ?_, by simpa [ht] using h2⟩
          rw [List.foldlM_cons, if_pos ht]
          exact h1
        · have hsub : s₀.Sub d t.vnode := ⟨hd, ht, t, hl t List.mem_cons_self, rfl⟩
          have hr := hrank d _ hsub
          obtain ⟨s₁, h1, hs₁⟩ := ih (h.sub d _ hsub) (by omega) (by omega) hs
          obtain ⟨s', h2, hs'⟩ := ihl (s₁.unload t.vnode) _ (fun t ht => hl t (List.mem_cons_of_mem _ ht))
            (hs₁.unload t.vnode)
          refine ⟨s', ?_, ?_⟩
          · rw [List.foldlM_cons, if_neg ht, h1]
            exact h2
          · rw [if_neg ht, Set.union_insert]
            exact hs'
    have hf := hs.freeFiles d
    rw [nodesBelow_eq, ← Set.union_assoc]
    unfold freeDirList
    simp only [hf.subfolders]
    by_cases h0 : (s₀.folders d).subfolders = []
    · refine ⟨s.freeFiles d, by rw [if_pos h0], ?_⟩
      simpa [h0, foldersBelow, vnodes] using hf
    · obtain ⟨s', h1, hs'⟩ := loop _ _ _ (fun t ht => ht) hf
      refine ⟨_, by rw [if_neg h0, h1]; rfl, hs'.clear d ?_⟩
      intro t ht ht0
      exact .inl (.inr ⟨ht0, t, ht, rfl⟩)

/-- The vnodes that a new listing of `d` frees. -/
def subtree (s : Vfs) (d : ℕ) : List ℕ := nodesBelow (s.clock + 1) s d

theorem Tree.frees (h : s.Tree) (hd : s.live d = some .folder) :
    ∃ s', freeDirList (s.clock + 1) s d = some s' ∧ Cleared s { a | a ∈ s.subtree d } s' := by
  obtain ⟨rank, hrank⟩ := h.ranked
  simpa only [Set.empty_union, subtree] using h.freeDirList_frees hrank hd (by omega) (by omega) (Cleared.refl s)

/-! ## Changes of the tree -/

/-- Entries go away. -/
theorem Tree.shrink (h : s.Tree) (hnull : s'.live NULL = none) (hroot : s'.root = s.root)
    (hlive : s'.live s.root = some .folder) (hclock : s.clock ≤ s'.clock)
    (hsub : ∀ d e, s'.Sub d e → s.Sub d e ∧ s'.live e = s.live e)
    (hhas : ∀ d e, s'.Has d e → s.Has d e ∧ s'.live e = s.live e)
    (hlinks : ∀ a k, s'.live a = some k → s.live a = some k ∧ (s'.files a).cachedLinks = (s.files a).cachedLinks) :
    s'.Tree where
  null := hnull
  root := hroot ▸ hlive
  sub := fun d e he => by rw [(hsub d e he).2, h.sub d e (hsub d e he).1]
  has := fun d e he => by rw [(hhas d e he).2, h.has d e (hhas d e he).1]
  sub_unique := fun d d' e he he' => h.sub_unique d d' e (hsub d e he).1 (hsub d' e he').1
  has_unique := fun d d' e he he' => h.has_unique d d' e (hhas d e he).1 (hhas d' e he').1
  root_top := by
    intro d hd
    rw [hroot] at hd
    exact h.root_top d (hsub d _ hd).1
  ranked := by
    obtain ⟨rank, hrank⟩ := h.ranked
    refine ⟨rank, fun d e he => ?_⟩
    obtain ⟨h1, h2⟩ := hrank d e (hsub d e he).1
    exact ⟨h1, h2.trans hclock⟩
  links := by
    intro a k hk hf
    obtain ⟨h1, h2⟩ := hlinks a k hk
    rw [h2]
    exact h.links a k h1 hf

/-- The vnode `a` is new. It is in the listing of `p`, or in none. -/
theorem Tree.add (h : s.Tree) {k : NodeKind} {p : ℕ} (ha0 : a ≠ NULL) (ha : s.live a = none)
    (hlive : s'.live = Function.update s.live a (some k)) (hroot : s'.root = s.root) (hclock : s.clock < s'.clock)
    (hsub : ∀ d e, s'.Sub d e → (d ≠ a ∧ s.Sub d e) ∨ (d = p ∧ d ≠ a ∧ e = a ∧ k = .folder))
    (hhas : ∀ d e, s'.Has d e → (d ≠ a ∧ s.Has d e) ∨ (d = p ∧ d ≠ a ∧ e = a ∧ k = .file))
    (hfiles : ∀ x, x ≠ a → (s'.files x).cachedLinks = (s.files x).cachedLinks)
    (hlink : k ≠ .folder → ((s'.files a).cachedLinks = 0 ↔ k = .pipe)) : s'.Tree := by
  have hne : ∀ x, x ≠ a → s'.live x = s.live x := fun x hx => by rw [hlive, Function.update_of_ne hx]
  have hself : s'.live a = some k := by rw [hlive, Function.update_self]
  -- nothing refers to `a` in the old state
  have hsub_ne : ∀ d e, s.Sub d e → e ≠ a := by
    rintro d e he rfl
    have := h.sub d e he
    rw [ha] at this
    cases this
  have hhas_ne : ∀ d e, s.Has d e → e ≠ a := by
    rintro d e he rfl
    have := h.has d e he
    rw [ha] at this
    cases this
  have hroot_ne : s.root ≠ a := by
    intro hra
    have := h.root
    rw [hra, ha] at this
    cases this
  refine ⟨?_, ?_, fun d e he => ?_, fun d e he => ?_, fun d d' e he he' => ?_, fun d d' e he he' => ?_, fun d hd => ?_, ?_,
    fun x k' hk' hf => ?_⟩
  · rw [hne _ ha0.symm, h.null]
  · rw [hroot, hne _ hroot_ne, h.root]
  · rcases hsub d e he with ⟨-, he⟩ | ⟨-, -, rfl, rfl⟩
    · rw [hne e (hsub_ne d e he), h.sub d e he]
    · exact hself
  · rcases hhas d e he with ⟨-, he⟩ | ⟨-, -, rfl, rfl⟩
    · rw [hne e (hhas_ne d e he), h.has d e he]
    · exact hself
  · rcases hsub d e he with ⟨-, h1⟩ | ⟨rfl, -, h1, -⟩ <;> rcases hsub d' e he' with ⟨-, h2⟩ | ⟨rfl, -, h2, -⟩
    · exact h.sub_unique d d' e h1 h2
    · exact absurd h2 (hsub_ne d e h1)
    · exact absurd h1 (hsub_ne d' e h2)
    · rfl
  · rcases hhas d e he with ⟨-, h1⟩ | ⟨rfl, -, h1, -⟩ <;> rcases hhas d' e he' with ⟨-, h2⟩ | ⟨rfl, -, h2, -⟩
    · exact h.has_unique d d' e h1 h2
    · exact absurd h2 (hhas_ne d e h1)
    · exact absurd h1 (hhas_ne d' e h2)
    · rfl
  · rw [hroot] at hd
    rcases hsub d _ hd with ⟨-, h1⟩ | ⟨-, -, h1, -⟩
    · exact h.root_top d h1
    · exact hroot_ne h1
  · -- the new vnode is deeper than all others
    obtain ⟨rank, hrank⟩ := h.ranked
    refine ⟨fun x => if x = a then s'.clock else min (rank x) s.clock, fun d e he => ?_⟩
    rcases hsub d e he with ⟨hda, h1⟩ | ⟨-, hda, rfl, -⟩
    · obtain ⟨h2, h3⟩ := hrank d e h1
      simp only [if_neg hda, if_neg (hsub_ne d e h1)]
      omega
    · simp only [if_neg hda, if_true]
      omega
  · by_cases hx : x = a
    · subst hx
      rw [hself] at hk'
      obtain rfl := Option.some.inj hk'
      exact hlink hf
    · rw [hne x hx] at hk'
      rw [hfiles x hx]
      exact h.links x k' hk' hf

end Nettapus.Vfs
