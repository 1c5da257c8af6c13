import Nettapus.Proof.Path

/-!
# What a path leaves on the heap

`fs_parse_path` allocates a buffer for a step before it knows whether there is one. The buffer of the last call, which finds
no step, is not in the array: `parseBlocks_spec` says which blocks are new, and `fsFreePath_spec` that all of
them but this one are given back. `ext2_open_at` does not even give back the array when it succeeds.
-/

namespace Nettapus

open Segments

variable {A : Allocator} {live live' : Finset ℕ} {path step : List UInt8} {prev : UInt8} {n p k : ℕ} {slots : List Slot}
  {arr : PathArray} {fs : Ext2Fs} {io : Io} {m : Bytes.Mem}

/-! ## The array -/

/-- The places of an array up to its `NULL`, with the strings and their blocks. -/
def slotsOf (l : List (ℕ × List UInt8)) : List Slot := l.map some ++ [none]

/-- The blocks of the strings. -/
def blocksOf (l : List (ℕ × List UInt8)) : List ℕ := l.map Prod.fst

/-- The blocks of a list are new: none is live, and they are different. -/
structure NewBlocks (live : Finset ℕ) (l : List ℕ) : Prop where
  nodup : l.Nodup
  notMem : ∀ p ∈ l, p ∉ live

/-- **What the loop of `fs_parse_path` allocates**: a block for each segment, and one more, `lost`, which is in no place of
the array. -/
theorem parseBlocks_spec : ∀ {n : ℕ} {path : List UInt8} (live : Finset ℕ),
    (∀ c ∈ segments slash path, c.length ≤ 0xFF) → (segments slash path).length < n →
    ∃ l lost, parseBlocks A n path live = some (slotsOf l, insert lost (live ∪ (blocksOf l).toFinset)) ∧
      l.map Prod.snd = segments slash path ∧ NewBlocks live (lost :: blocksOf l) := by
  intro n
  induction n with
  | zero => exact fun _ _ hn => absurd hn (Nat.not_lt_zero _)
  | succ n ih =>
    intro path live hlen hn
    unfold parseBlocks
    dsimp only
    cases hs : getStep path slash 0x100 with
    | none =>
      have hwrites : (getStepWrites path slash 0x100).length ≤ 0x100 := by
        unfold getStepWrites
        rw [hs]
        exact Nat.zero_le _
      rw [if_pos hwrites, getStep_none hs]
      refine ⟨[], A.place live, ?_, rfl, ?_⟩
      · simp [slotsOf, blocksOf, Allocator.kmalloc]
      · exact ⟨List.nodup_singleton _, fun p hp => List.mem_singleton.1 hp ▸ A.fresh live⟩
    | some r =>
      obtain ⟨str, rest⟩ := r
      have hstr : str.length < 0x100 := by
        by_contra hle
        obtain ⟨c, hc, hcl⟩ := getStep_cut hs (not_lt.1 hle)
        have := hlen c hc
        omega
      have hseg := getStep_segments hs hstr
      rw [hseg] at hlen hn
      rw [List.length_cons] at hn
      obtain ⟨l, lost, hparse, hmap, hnew⟩ :=
        ih (insert (A.place live) live) (fun c hc => hlen c (List.mem_cons_of_mem _ hc)) (by omega)
      rw [if_pos (by rw [getStepWrites_length hs]; omega)]
      dsimp only [Allocator.kmalloc]
      rw [hparse]
      refine ⟨(A.place live, str) :: l, lost, ?_, by rw [List.map_cons, hmap, hseg], ?_⟩
      · simp [slotsOf, blocksOf]
      · obtain ⟨hnd, hnm⟩ := hnew
        simp only [Finset.mem_insert, not_or] at hnm
        obtain ⟨h1, h2⟩ := List.nodup_cons.1 hnd
        constructor
        · simp only [blocksOf, List.map_cons, List.nodup_cons, List.mem_cons, not_or]
          refine ⟨⟨(hnm lost List.mem_cons_self).1, h1⟩, fun h => ?_, h2⟩
          exact (hnm _ (List.mem_cons_of_mem _ h)).1 rfl
        · intro p hp
          simp only [blocksOf, List.map_cons, List.mem_cons] at hp
          rcases hp with rfl | rfl | hp
          · exact (hnm _ List.mem_cons_self).2
          · exact A.fresh live
          · exact (hnm p (List.mem_cons_of_mem _ hp)).2

/-- The loop of `fs_free_path` gives back the blocks of the strings. -/
theorem freeSlots_spec : ∀ {l : List (ℕ × List UInt8)} {live : Finset ℕ},
    freeSlots (slotsOf l) live = some (live \ (blocksOf l).toFinset) := by
  intro l
  induction l with
  | nil =>
    intro live
    simp [slotsOf, blocksOf, freeSlots]
  | cons a l ih =>
    intro live
    obtain ⟨str, step⟩ := a
    have hcons : slotsOf ((str, step) :: l) = some (str, step) :: slotsOf l := rfl
    rw [hcons, freeSlots, ih]
    congr 1
    ext x
    simp only [blocksOf, kfreeBlock, Finset.mem_sdiff, Finset.mem_erase, List.mem_toFinset, List.map_cons, List.mem_cons,
      not_or]
    tauto

/-- **What `fs_parse_path` allocates**, and what is left of it after `fs_free_path`: the block `lost`. -/
theorem fsParsePathBlocks_spec (A : Allocator) (prev : UInt8) (live : Finset ℕ)
    (h : ∀ c ∈ segments slash path, c.length ≤ 0xFF) :
    ∃ block l lost, fsParsePathBlocks A prev path live =
        some (⟨block, slotsOf l⟩, insert lost (insert block live ∪ (blocksOf l).toFinset)) ∧
      l.map Prod.snd = segments slash path ∧ NewBlocks live (lost :: block :: blocksOf l) := by
  obtain ⟨l, lost, hparse, hmap, hnd, hnm⟩ := parseBlocks_spec (A := A) (insert (A.place live) live) h
    (Nat.lt_succ_of_le (length_segments_le prev path slash))
  refine ⟨A.place live, l, lost, ?_, hmap, ?_, ?_⟩
  · unfold fsParsePathBlocks
    dsimp only [Allocator.kmalloc]
    rw [hparse]
    rfl
  · simp only [Finset.mem_insert, not_or] at hnm
    obtain ⟨h1, h2⟩ := List.nodup_cons.1 hnd
    simp only [List.nodup_cons, List.mem_cons, not_or]
    exact ⟨⟨(hnm lost List.mem_cons_self).1, h1⟩, fun hb => (hnm _ (List.mem_cons_of_mem _ hb)).1 rfl, h2⟩
  · simp only [Finset.mem_insert, not_or] at hnm
    intro p hp
    rcases List.mem_cons.1 hp with rfl | hp
    · exact (hnm _ List.mem_cons_self).2
    · rcases List.mem_cons.1 hp with rfl | hp
      · exact A.fresh live
      · exact (hnm p (List.mem_cons_of_mem _ hp)).2

/-- The array and its strings are given back, and what else was allocated is not. -/
theorem fsFreePath_spec {block lost : ℕ} {l : List (ℕ × List UInt8)} (hnew : NewBlocks live (lost :: block :: blocksOf l)) :
    fsFreePath ⟨block, slotsOf l⟩ (insert lost (insert block live ∪ (blocksOf l).toFinset)) = some (insert lost live) := by
  obtain ⟨hnd, hnm⟩ := hnew
  simp only [List.nodup_cons, List.mem_cons, not_or] at hnd
  obtain ⟨⟨h1, h2⟩, h3, -⟩ := hnd
  unfold fsFreePath
  rw [freeSlots_spec, Option.map_some]
  congr 1
  ext x
  have hb : ∀ p ∈ blocksOf l, p ∉ live := fun p hp => hnm p (List.mem_cons_of_mem _ (List.mem_cons_of_mem _ hp))
  have hbl : block ∉ live := hnm block (List.mem_cons_of_mem _ List.mem_cons_self)
  simp only [kfreeBlock, Finset.mem_erase, Finset.mem_sdiff, Finset.mem_insert, Finset.mem_union, List.mem_toFinset]
  constructor
  · rintro ⟨hx, (rfl | (rfl | hl) | hl), hnot⟩
    · exact .inl rfl
    · exact absurd rfl hx
    · exact .inr hl
    · exact absurd hl hnot
  · rintro (rfl | hx)
    · exact ⟨h1, .inl rfl, h2⟩
    · exact ⟨fun he => hbl (he ▸ hx), .inr (.inl (.inr hx)), fun hxb => hb x hxb hx⟩

/-- If `fs_parse_path` returns, it has written inside of its buffers. -/
theorem parseBlocks_inside : ∀ {n : ℕ} {path : List UInt8} {live : Finset ℕ} {r : List Slot × Finset ℕ},
    parseBlocks A n path live = some r → ∀ cur ∈ stepCalls n path, (getStepWrites cur slash 0x100).length ≤ 0x100 := by
  intro n
  induction n with
  | zero => exact fun _ cur hcur => absurd hcur List.not_mem_nil
  | succ n ih =>
    intro path live r hr
    unfold parseBlocks at hr
    unfold stepCalls
    dsimp only at hr
    split_ifs at hr with hw
    rw [List.forall_mem_cons]
    refine ⟨hw, ?_⟩
    cases hs : getStep path slash 0x100 with
    | none => exact fun cur hcur => absurd hcur List.not_mem_nil
    | some q =>
      rw [hs] at hr
      obtain ⟨r', hr', -⟩ := Option.map_eq_some_iff.1 hr
      exact ih hr'

theorem short_of_fsParsePathBlocks {r : PathArray × Finset ℕ} (h : fsParsePathBlocks A prev path live = some r) :
    ∀ c ∈ segments slash path, c.length ≤ 0xFF := by
  unfold fsParsePathBlocks at h
  obtain ⟨r', hr', -⟩ := Option.map_eq_some_iff.1 h
  exact (stepCalls_inside_iff (Nat.lt_succ_of_le (length_segments_le prev path slash))).1 (parseBlocks_inside hr')

/-! ## `ext2_open_at` -/

/-- **The loop of `ext2_open_at`** finds what it finds without the heap. On success it gives back its inode only, and else the
array as well. -/
theorem openBlocks_spec {node : ℕ} {kept freed : Finset ℕ} (hnode : node ∉ kept) (hfree : fsFreePath arr kept = some freed) :
    ∀ (l : List (ℕ × List UInt8)) (dirNode : Ext2Inode) (num : ℕ),
      (openBlocks A fs io m arr node (slotsOf l) dirNode num (insert node kept)).map Prod.fst =
          openSteps fs io m (l.map Prod.snd) dirNode num ∧
        ∀ r, openBlocks A fs io m arr node (slotsOf l) dirNode num (insert node kept) = some r →
          r.2 = kept ∨ r.2 = freed := by
  have hkfree : kfreeBlock (insert node kept) node = kept := Finset.erase_insert hnode
  have hfail : openFails arr node (insert node kept) = some (0, freed) := by
    unfold openFails
    rw [hkfree, hfree]
    rfl
  intro l
  induction l with
  | nil =>
    intro dirNode num
    have hopen : openBlocks A fs io m arr node (slotsOf []) dirNode num (insert node kept) = some (num, kept) :=
      congrArg (fun live => some (num, live)) hkfree
    rw [hopen]
    refine ⟨rfl, fun r hr => .inl ?_⟩
    obtain rfl := Option.some.inj hr
    rfl
  | cons a l ih =>
    intro dirNode num
    obtain ⟨str, step⟩ := a
    have hcons : slotsOf ((str, step) :: l) = some (str, step) :: slotsOf l := rfl
    have hfails : ∀ r, some ((0 : ℕ), freed) = some r → r.2 = kept ∨ r.2 = freed := by
      intro r hr
      obtain rfl := Option.some.inj hr
      exact .inr rfl
    rw [hcons, List.map_cons, openBlocks, openSteps]
    cases ext2SearchDir fs io m dirNode step with
    | none => exact ⟨rfl, fun r hr => absurd hr (Option.some_ne_none r).symm⟩
    | some found =>
      cases found with
      | none =>
        rw [Option.bind_some, Option.bind_some]
        dsimp only
        rw [hfail]
        exact ⟨rfl, hfails⟩
      | some entry =>
        rw [Option.bind_some, Option.bind_some]
        dsimp only
        rw [kfree_kmalloc]
        cases ext2LoadInode fs io m entry.inode with
        | none =>
          dsimp only
          rw [hfail]
          exact ⟨rfl, hfails⟩
        | some next => exact ih next entry.inode

/-- **`ext2_open_at`** with the heap: the block `lost` is live at the end. -/
theorem ext2OpenAtBlocks_spec {d : ℕ} {r : ℕ × Finset ℕ} (hne : path ≠ [slash])
    (h : ext2OpenAtBlocks A fs io m prev d path live = some r) : ∃ lost ∈ r.2, lost ∉ live := by
  unfold ext2OpenAtBlocks at h
  rw [if_neg hne] at h
  obtain ⟨⟨arr, live₁⟩, hparse, hopen⟩ := Option.bind_eq_some_iff.1 h
  obtain ⟨block, l, lost, hparse', -, hnew⟩ := fsParsePathBlocks_spec A prev live (short_of_fsParsePathBlocks hparse)
  obtain ⟨rfl, rfl⟩ := Prod.mk.inj (Option.some.inj (hparse.symm.trans hparse'))
  refine ⟨lost, ?_, hnew.notMem lost List.mem_cons_self⟩
  rcases (openBlocks_spec (A.fresh _) (fsFreePath_spec hnew) l _ d).2 r hopen with hr | hr
  · rw [hr]
    exact Finset.mem_insert_self _ _
  · rw [hr]
    exact Finset.mem_insert_self _ _

/-- With short segments and memory for an inode the result is that of `ext2_open_at` without the heap. -/
theorem ext2OpenAtBlocks_fst {d : ℕ} (hshort : ∀ c ∈ segments slash path, c.length ≤ 0xFF)
    (hmem : io.noMem inodeSize = false) :
    (ext2OpenAtBlocks A fs io m prev d path live).map Prod.fst = ext2OpenAt fs io m prev d path := by
  unfold ext2OpenAtBlocks ext2OpenAt
  by_cases hroot : path = [slash]
  · rw [if_pos hroot, if_pos hroot]
    rfl
  · obtain ⟨block, l, lost, hparse, hl, hnew⟩ := fsParsePathBlocks_spec A prev live hshort
    rw [if_neg hroot, if_neg hroot, hmem, if_neg (by decide), hparse, fsParsePath_eq prev hshort, Option.bind_some,
      Option.bind_some, ← hl]
    exact (openBlocks_spec (A.fresh _) (fsFreePath_spec hnew) l _ d).1

/-! ## What is asked of the buffers -/

/-- `fs_parse_path` and then `fs_free_path` leave the live blocks as they were. -/
def PathBalanced (A : Allocator) (live : Finset ℕ) (prev : UInt8) (path : List UInt8) : Prop :=
  ∃ arr live', fsParsePathBlocks A prev path live = some (arr, live') ∧ fsFreePath arr live' = some live

/-- So does `ext2_open_at`. -/
def OpenBalanced (A : Allocator) (live : Finset ℕ) (fs : Ext2Fs) (io : Io) (m : Bytes.Mem) (prev : UInt8) (d : ℕ)
    (path : List UInt8) : Prop :=
  ∃ k, ext2OpenAtBlocks A fs io m prev d path live = some (k, live)

/-- **When the buffers of a path are given back**: never by `fs_parse_path` and `fs_free_path`, and by `ext2_open_at` just
if the path is `/`, for which there are none. -/
theorem path_buffers_iff (A : Allocator) (live : Finset ℕ) :
    (∀ prev path, (∀ c ∈ segments slash path, c.length ≤ 0xFF) → ¬ PathBalanced A live prev path) ∧
    ∀ fs io m prev d path, OpenBalanced A live fs io m prev d path ↔ path = [slash] := by
  constructor
  · rintro prev path hshort ⟨arr, live', hparse, hfree⟩
    obtain ⟨block, l, lost, hparse', -, hnew⟩ := fsParsePathBlocks_spec A prev live hshort
    obtain ⟨rfl, rfl⟩ := Prod.mk.inj (Option.some.inj (hparse.symm.trans hparse'))
    have hlive := Option.some.inj ((fsFreePath_spec hnew).symm.trans hfree)
    refine hnew.notMem lost List.mem_cons_self ?_
    rw [← hlive]
    exact Finset.mem_insert_self _ _
  · intro fs io m prev d path
    constructor
    · rintro ⟨k, hk⟩
      by_contra hne
      obtain ⟨lost, hmem, hnot⟩ := ext2OpenAtBlocks_spec hne hk
      exact hnot hmem
    · rintro rfl
      exact ⟨d, if_pos rfl⟩

/-- **A path loses a block**: `/bin`, whose two buffers are the blocks 2 and 3; the array is the block 1. -/
theorem path_buffer_lost : fsParsePathBlocks growing 0 [47, 98, 105, 110] ∅ =
      some (⟨1, [some (2, [98, 105, 110]), none]⟩, {1, 2, 3}) ∧
    fsFreePath ⟨1, [some (2, [98, 105, 110]), none]⟩ {1, 2, 3} = some {3} ∧
    ¬ PathBalanced growing ∅ 0 [47, 98, 105, 110] := by
  have hparse : fsParsePathBlocks growing 0 [47, 98, 105, 110] ∅ =
      some (⟨1, [some (2, [98, 105, 110]), none]⟩, {1, 2, 3}) := by decide +kernel
  have hfree : fsFreePath ⟨1, [some (2, [98, 105, 110]), none]⟩ {1, 2, 3} = some {3} := by decide +kernel
  refine ⟨hparse, hfree, ?_⟩
  rintro ⟨arr, live', hparse', hfree'⟩
  obtain ⟨rfl, rfl⟩ := Prod.mk.inj (Option.some.inj (hparse.symm.trans hparse'))
  exact absurd (hfree.symm.trans hfree') (by decide)

end Nettapus
