import Nettapus.Code.Exit
import Nettapus.Proof.PageStructs
import Nettapus.Proof.SpacePages
import Nettapus.Proof.Pmm

/-!
# What the end of a task reclaims

`FreedOnly T P z z'`: from `z` to `z'` the structures of `T` were changed and freed, and the pages of `P` were freed.

* `reclaimTable_frees`: one page table;
* `reclaimBelow_frees`: a structure whose children are reclaimed, for all three levels above;
* `reclaim_iff`: when the whole address space is reclaimed.
-/

namespace Nettapus

open Forest Bitmap

variable {z z' z₀ z₁ : Spaces} {T T' P P' : ℕ → Prop} {t i j n p pt : ℕ}

/-! ## Freeing -/

/-- The structures of `T` and the valid pages of `P` were freed, and nothing else was. -/
structure FreedOnly (T P : ℕ → Prop) (z z' : Spaces) : Prop where
  tab : ∀ t, ¬ T t → z'.vmm.tab t = z.vmm.tab t
  slot : ∀ j, test z'.vmm.pageHeapBitmap j = true ↔
    test z.vmm.pageHeapBitmap j = true ∧ ¬ (j < z.vmm.pageHeapBitmapLength * 8 ∧ T (z.vmm.pageStructAt j))
  page : ∀ p, test z'.mem.bitmap p = true ↔ test z.mem.bitmap p = true ∧ ¬ (isppValid z.mem p = true ∧ P p)
  begin_eq : z'.vmm.pageHeapBegin = z.vmm.pageHeapBegin
  length_eq : z'.vmm.pageHeapBitmapLength = z.vmm.pageHeapBitmapLength
  blocks_eq : z'.mem.blocks = z.mem.blocks
  numBlocks_eq : z'.mem.numBlocks = z.mem.numBlocks

theorem FreedOnly.valid_eq (h : FreedOnly T P z z') (p : ℕ) : isppValid z'.mem p = isppValid z.mem p := by
  unfold isppValid
  rw [h.blocks_eq, h.numBlocks_eq]

theorem FreedOnly.pageStructAt_eq (h : FreedOnly T P z z') (j : ℕ) : z'.vmm.pageStructAt j = z.vmm.pageStructAt j := by
  unfold Vmm.pageStructAt
  rw [h.begin_eq, h.length_eq]

theorem FreedOnly.refl (z : Spaces) : FreedOnly (fun _ => False) (fun _ => False) z z :=
  ⟨fun _ _ => rfl, fun _ => by simp, fun _ => by simp, rfl, rfl, rfl, rfl⟩

theorem FreedOnly.trans (h : FreedOnly T P z z₁) (h' : FreedOnly T' P' z₁ z') :
    FreedOnly (fun t => T t ∨ T' t) (fun p => P p ∨ P' p) z z' := by
  refine ⟨fun t ht => ?_, fun j => ?_, fun p => ?_, h'.begin_eq.trans h.begin_eq, h'.length_eq.trans h.length_eq,
    h'.blocks_eq.trans h.blocks_eq, h'.numBlocks_eq.trans h.numBlocks_eq⟩
  · rw [h'.tab t fun hc => ht (Or.inr hc), h.tab t fun hc => ht (Or.inl hc)]
  · rw [h'.slot, h.slot, h.length_eq, h.pageStructAt_eq]
    tauto
  · rw [h'.page, h.page, h.valid_eq]
    tauto

/-- The same structures and pages, in other words. -/
theorem FreedOnly.congr (h : FreedOnly T P z z') (hT : ∀ t, T t ↔ T' t) (hP : ∀ p, P p ↔ P' p) : FreedOnly T' P' z z' := by
  obtain rfl : T = T' := funext fun t => propext (hT t)
  obtain rfl : P = P' := funext fun p => propext (hP p)
  exact h

/-! ## Single steps -/

/-- `free_page_struct` clears the bit of the structure, if it is in a slot. -/
theorem test_freePageStruct (v : Vmm) (ps j : ℕ) : test (v.freePageStruct ps).pageHeapBitmap j = true ↔
    test v.pageHeapBitmap j = true ∧ ¬ (j < v.pageHeapBitmapLength * 8 ∧ v.pageStructAt j = ps) := by
  by_cases h : ∃ k < v.pageHeapBitmapLength * 8, v.pageStructAt k = ps
  · obtain ⟨k, hk, rfl⟩ := h
    rw [freePageStruct_at hk, test_clear]
    simp only [Bool.and_eq_true, Bool.not_eq_true', decide_eq_false_iff_not]
    constructor
    · rintro ⟨hne, ht⟩
      exact ⟨ht, fun hc => hne (pageStructAt_inj hc.2)⟩
    · rintro ⟨ht, hne⟩
      exact ⟨fun hc => hne ⟨hc ▸ hk, by rw [hc]⟩, ht⟩
  · push Not at h
    rw [freePageStruct_none h]
    constructor
    · exact fun ht => ⟨ht, fun hc => h j hc.1 hc.2⟩
    · exact fun ht => ht.1

/-- What `free_page_struct` leaves alone. -/
theorem freePageStruct_frame (v : Vmm) (ps : ℕ) : (v.freePageStruct ps).tab = v.tab ∧
    (v.freePageStruct ps).pageHeapBegin = v.pageHeapBegin ∧
    (v.freePageStruct ps).pageHeapBitmapLength = v.pageHeapBitmapLength := by
  by_cases h : ∃ k < v.pageHeapBitmapLength * 8, v.pageStructAt k = ps
  · obtain ⟨k, hk, rfl⟩ := h
    rw [freePageStruct_at hk]
    exact ⟨rfl, rfl, rfl⟩
  · push Not at h
    rw [freePageStruct_none h]
    exact ⟨rfl, rfl, rfl⟩

/-- `freepp` clears the bit of a valid page. -/
theorem test_freepp (m : MemoryMap) (q p : ℕ) : test (freepp m q).2.bitmap p = true ↔
    test m.bitmap p = true ∧ ¬ (isppValid m q = true ∧ p = q) := by
  unfold freepp setppUsed
  by_cases hv : isppValid m q = true
  · simp only [hv, Bool.not_true, Bool.false_eq_true, if_false, if_true]
    rw [test_clear, Bool.and_eq_true, Bool.not_eq_true', decide_eq_false_iff_not]
    tauto
  · simp [hv]

theorem freepp_blocks (m : MemoryMap) (q : ℕ) :
    (freepp m q).2.blocks = m.blocks ∧ (freepp m q).2.numBlocks = m.numBlocks := by
  unfold freepp setppUsed
  split_ifs
  · exact ⟨rfl, rfl⟩
  · exact ⟨rfl, rfl⟩
  · contradiction

/-! ## A page table -/

/-- The loop over `l` comes to the entry `l` as it was: before, the entry at `i` was cleared by each entry that was
in use. -/
def Visited (E : ℕ → ℕ) (i l : ℕ) : Prop := E l ≠ 0 ∧ (l = i → ∀ k < i, E k = 0)

/-- The pages of the first `n` entries that the loop frees. -/
def TablePages (E : ℕ → ℕ) (i n p : ℕ) : Prop := ∃ l < n, Visited E i l ∧ E l / 0x1000 = p

/-- `z'` is `z` after the first `n` entries of the table at `pt`. -/
structure Emptied (z : Spaces) (i pt n : ℕ) (z' : Spaces) : Prop where
  vmm_eq : z'.vmm = { z.vmm with tab := z'.vmm.tab }
  tab : ∀ t, t ≠ pt → z'.vmm.tab t = z.vmm.tab t
  entries : ∀ l, (z'.vmm.tab pt).entries l =
    if l = i ∧ ∃ k < n, (z.vmm.tab pt).entries k ≠ 0 then 0 else (z.vmm.tab pt).entries l
  page : ∀ p, test z'.mem.bitmap p = true ↔
    test z.mem.bitmap p = true ∧ ¬ (isppValid z.mem p = true ∧ TablePages (z.vmm.tab pt).entries i n p)
  blocks_eq : z'.mem.blocks = z.mem.blocks
  numBlocks_eq : z'.mem.numBlocks = z.mem.numBlocks

theorem Emptied.refl (z : Spaces) (i pt : ℕ) : Emptied z i pt 0 z :=
  ⟨rfl, fun _ _ => rfl, fun l => by simp, fun p => by simp [TablePages], rfl, rfl⟩

theorem tablePages_succ {E : ℕ → ℕ} {i l p : ℕ} : TablePages E i (l + 1) p ↔
    TablePages E i l p ∨ Visited E i l ∧ E l / 0x1000 = p := by
  unfold TablePages
  constructor
  · rintro ⟨k, hk, hp⟩
    rcases Nat.eq_or_lt_of_le (Nat.le_of_lt_succ hk) with rfl | hk
    · exact Or.inr hp
    · exact Or.inl ⟨k, hk, hp⟩
  · rintro (⟨k, hk, hp⟩ | hp)
    · exact ⟨k, by omega, hp⟩
    · exact ⟨l, by omega, hp⟩

section Emptied

variable {l : ℕ}

/-- The next entry is still there exactly when it is visited. -/
theorem Emptied.visited_iff (h : Emptied z i pt l z') :
    (z'.vmm.tab pt).entries l ≠ 0 ↔ Visited (z.vmm.tab pt).entries i l := by
  rw [h.entries l]
  unfold Visited
  split_ifs with hc
  · obtain ⟨rfl, k, hk, hne⟩ := hc
    exact iff_of_false (fun h => h rfl) fun h => hne (h.2 rfl k hk)
  · rw [not_and] at hc
    push Not at hc
    exact ⟨fun h => ⟨h, fun hl k hk => by subst hl; exact hc rfl k hk⟩, fun h => h.1⟩

theorem Emptied.valid_eq (h : Emptied z i pt n z') (p : ℕ) : isppValid z'.mem p = isppValid z.mem p := by
  unfold isppValid
  rw [h.blocks_eq, h.numBlocks_eq]

/-- An entry that was not in use, or was cleared before. -/
theorem Emptied.skip (h : Emptied z i pt l z') (h0 : (z'.vmm.tab pt).entries l = 0) : Emptied z i pt (l + 1) z' := by
  have hnot : ¬ Visited (z.vmm.tab pt).entries i l := fun hv => h.visited_iff.2 hv h0
  refine ⟨h.vmm_eq, h.tab, fun k => ?_, fun p => ?_, h.blocks_eq, h.numBlocks_eq⟩
  · rw [h.entries k]
    refine if_congr (and_congr_right fun _ => ⟨fun ⟨a, ha, hne⟩ => ⟨a, by omega, hne⟩, fun ⟨a, ha, hne⟩ => ?_⟩) rfl rfl
    rcases Nat.eq_or_lt_of_le (Nat.le_of_lt_succ ha) with rfl | ha
    · -- it was in use, so an entry before it was
      by_contra hc
      push Not at hc
      exact hnot ⟨hne, fun hai k hk => hc k (by omega)⟩
    · exact ⟨a, ha, hne⟩
  · rw [h.page, tablePages_succ]
    tauto

/-- A page is freed, and the entry at `i` is cleared. -/
theorem Emptied.visit (h : Emptied z i pt l z') (h0 : (z'.vmm.tab pt).entries l ≠ 0) :
    Emptied z i pt (l + 1) { z'.freepp ((z'.vmm.tab pt).entries l / 0x1000) with vmm := z'.vmm.setEntry pt i 0 } := by
  have hv := h.visited_iff.1 h0
  have hentry : (z'.vmm.tab pt).entries l = (z.vmm.tab pt).entries l := by
    rw [h.entries l] at h0 ⊢
    split_ifs at h0 ⊢
    · exact absurd rfl h0
    · rfl
  rw [hentry]
  obtain ⟨hb, hn⟩ := freepp_blocks z'.mem ((z.vmm.tab pt).entries l / 0x1000)
  refine ⟨?_, fun t ht => ?_, fun k => ?_, fun p => ?_, hb.trans h.blocks_eq, hn.trans h.numBlocks_eq⟩
  · show z'.vmm.setEntry pt i 0 = { z.vmm with tab := (z'.vmm.setEntry pt i 0).tab }
    unfold Vmm.setEntry
    conv_lhs => rw [h.vmm_eq]
  · exact (Function.update_of_ne ht _ _).trans (h.tab t ht)
  · show (Function.update z'.vmm.tab pt _ pt).entries k = _
    rw [Function.update_self]
    by_cases hk : k = i
    · subst hk
      rw [if_pos ⟨rfl, l, by omega, hv.1⟩]
      exact Function.update_self _ _ _
    · rw [if_neg fun hc => hk hc.1]
      refine (Function.update_of_ne hk _ _).trans ((h.entries k).trans (if_neg fun hc => hk hc.1))
  · show test (Nettapus.freepp z'.mem ((z.vmm.tab pt).entries l / 0x1000)).2.bitmap p = true ↔ _
    rw [test_freepp, h.page, tablePages_succ, h.valid_eq]
    constructor
    · rintro ⟨⟨h1, h2⟩, h3⟩
      refine ⟨h1, ?_⟩
      rintro ⟨hvp, hp | ⟨-, rfl⟩⟩
      · exact h2 ⟨hvp, hp⟩
      · exact h3 ⟨hvp, rfl⟩
    · rintro ⟨h1, h2⟩
      refine ⟨⟨h1, fun hc => h2 ⟨hc.1, Or.inl hc.2⟩⟩, ?_⟩
      rintro ⟨hvp, rfl⟩
      exact h2 ⟨hvp, Or.inr ⟨hv, rfl⟩⟩

/-- One more entry. -/
theorem Emptied.step (h : Emptied z i pt l z') : Emptied z i pt (l + 1) (z'.reclaimEntry i pt l) := by
  unfold Spaces.reclaimEntry
  dsimp only
  split_ifs with h0
  · exact h.skip h0
  · exact h.visit h0

end Emptied

theorem emptied_loop (z : Spaces) (i pt n : ℕ) :
    Emptied z i pt n ((List.range n).foldl (fun z l => z.reclaimEntry i pt l) z) := by
  induction n with
  | zero => exact Emptied.refl z i pt
  | succ n ih =>
    rw [List.range_succ, List.foldl_append]
    exact ih.step

/-- **One page table.** -/
theorem reclaimTable_frees (z : Spaces) (i pt : ℕ) :
    FreedOnly (· = pt) (TablePages (z.vmm.tab pt).entries i 512) z (z.reclaimTable i pt) := by
  have h := emptied_loop z i pt 512
  unfold Spaces.reclaimTable
  generalize (List.range 512).foldl (fun z l => z.reclaimEntry i pt l) z = z₁ at h ⊢
  have hlen : z₁.vmm.pageHeapBitmapLength = z.vmm.pageHeapBitmapLength := by rw [h.vmm_eq]
  have hbit : z₁.vmm.pageHeapBitmap = z.vmm.pageHeapBitmap := by rw [h.vmm_eq]
  have hbegin : z₁.vmm.pageHeapBegin = z.vmm.pageHeapBegin := by rw [h.vmm_eq]
  obtain ⟨hf1, hf2, hf3⟩ := freePageStruct_frame z₁.vmm pt
  refine ⟨fun t ht => ?_, fun j => ?_, h.page, hf2.trans hbegin, hf3.trans hlen, h.blocks_eq, h.numBlocks_eq⟩
  · exact (congrFun hf1 t).trans (h.tab t ht)
  · refine (test_freePageStruct z₁.vmm pt j).trans ?_
    unfold Vmm.pageStructAt
    rw [hlen, hbit, hbegin]

/-! ## The structures above -/

/-- The path begins with one of the first `n` children. -/
def First (n : ℕ) (p : List ℕ) : Prop := ∀ k ∈ p.head?, k < n

/-- The structures below the first `n` children of `t`, up to the depth `d`, and `t`. -/
def Sub (v : Vmm) (t n d a : ℕ) : Prop := ∃ p, First n p ∧ p.length ≤ d ∧ walk v.kids t p = some a

/-- They are a tree. -/
def TreeAt (v : Vmm) (t n d : ℕ) : Prop := ∀ p q a, First n p → First n q → p.length ≤ d → q.length ≤ d →
  walk v.kids t p = some a → walk v.kids t q = some a → p = q

/-- The structures below a root of the forest are a tree. -/
theorem Tables.treeAt {R s : ℕ → Prop} {v : Vmm} {r n : ℕ} (hT : Tables R s v) (hr : R r) : TreeAt v r n 3 :=
  fun _ _ _ _ _ hp hq h1 h2 => hT.forest.path_eq hr hr hp hq h1 h2

/-- The pages that are freed of the tables at the depth `d`; `idx` is the index of the entry that the loop clears, by
the path of the table. -/
def SubPages (v : Vmm) (t n d : ℕ) (idx : List ℕ → ℕ) (p : ℕ) : Prop := ∃ q pt, First n q ∧ q.length = d ∧
  walk v.kids t q = some pt ∧ TablePages (v.tab pt).entries (idx q) 512 p

/-- `f` frees the tree below a structure, as long as this is as it was in `v`. -/
def Frees (v : Vmm) (n d : ℕ) (idx : List ℕ → ℕ) (f : Spaces → ℕ → Spaces) : Prop := ∀ z t,
  (∀ a, Sub v t n d a → z.vmm.tab a = v.tab a) → TreeAt v t n d →
    FreedOnly (Sub v t n d) (SubPages v t n d idx) z (f z t)

variable {v : Vmm} {d k c : ℕ} {idx : List ℕ → ℕ} {q : List ℕ}

theorem first_of_walk {a : ℕ} (h : walk v.kids t q = some a) : First 512 q := by
  rintro k hk
  cases q with
  | nil => cases hk
  | cons i q =>
    obtain rfl := Option.some.inj hk
    rw [walk_cons] at h
    obtain ⟨c, hc, -⟩ := Option.bind_eq_some_iff.1 h
    exact (kids_eq_some.1 hc).1

theorem first_nil (n : ℕ) : First n [] := fun _ hk => by cases hk

theorem first_cons (hk : k < n) : First n (k :: q) := by
  rintro i hi
  obtain rfl := Option.some.inj hi
  exact hk

theorem walk_child {a : ℕ} (hc : v.kids t k = some c) (h : walk v.kids c q = some a) : walk v.kids t (k :: q) = some a := by
  rw [walk_cons, hc]
  exact h

/-- A structure of the tree is its root, or in the tree of a child. -/
theorem sub_succ {a : ℕ} : Sub v t n (d + 1) a ↔ a = t ∨ ∃ k < n, ∃ c, v.kids t k = some c ∧ Sub v c 512 d a := by
  constructor
  · rintro ⟨p, hf, hl, hw⟩
    cases p with
    | nil => exact Or.inl (Option.some.inj hw).symm
    | cons k p =>
      rw [walk_cons] at hw
      obtain ⟨c, hc, hw⟩ := Option.bind_eq_some_iff.1 hw
      exact Or.inr ⟨k, hf k rfl, c, hc, p, first_of_walk hw, by simpa using hl, hw⟩
  · rintro (rfl | ⟨k, hk, c, hc, p, -, hl, hw⟩)
    · exact ⟨[], first_nil n, Nat.zero_le _, rfl⟩
    · exact ⟨k :: p, first_cons hk, by simpa using hl, walk_child hc hw⟩

theorem subPages_succ {p : ℕ} : SubPages v t n (d + 1) idx p ↔
    ∃ k < n, ∃ c, v.kids t k = some c ∧ SubPages v c 512 d (fun q => idx (k :: q)) p := by
  constructor
  · rintro ⟨q, pt, hf, hl, hw, hp⟩
    cases q with
    | nil => cases hl
    | cons k q =>
      rw [walk_cons] at hw
      obtain ⟨c, hc, hw⟩ := Option.bind_eq_some_iff.1 hw
      exact ⟨k, hf k rfl, c, hc, q, pt, first_of_walk hw, by simpa using hl, hw, hp⟩
  · rintro ⟨k, hk, c, hc, q, pt, -, hl, hw, hp⟩
    exact ⟨k :: q, pt, first_cons hk, by simpa using hl, walk_child hc hw, hp⟩

theorem TreeAt.child (h : TreeAt v t n (d + 1)) (hk : k < n) (hc : v.kids t k = some c) : TreeAt v c 512 d := by
  intro p q a _ _ hp hq h1 h2
  have := h (k :: p) (k :: q) a (first_cons hk) (first_cons hk) (by simpa using hp) (by simpa using hq)
    (walk_child hc h1) (walk_child hc h2)
  exact (List.cons.inj this).2

/-- The trees of two children are apart. -/
theorem TreeAt.apart {k' c' a : ℕ} (h : TreeAt v t n (d + 1)) (hk : k < n) (hc : v.kids t k = some c) (hk' : k' < n)
    (hc' : v.kids t k' = some c') (ha : Sub v c 512 d a) (ha' : Sub v c' 512 d a) : k = k' := by
  obtain ⟨p, -, hp, hw⟩ := ha
  obtain ⟨q, -, hq, hw'⟩ := ha'
  have := h (k :: p) (k' :: q) a (first_cons hk) (first_cons hk') (by simpa using hp) (by simpa using hq)
    (walk_child hc hw) (walk_child hc' hw')
  exact (List.cons.inj this).1

/-- The root is not in the tree of a child. -/
theorem TreeAt.root_notMem (h : TreeAt v t n (d + 1)) (hk : k < n) (hc : v.kids t k = some c) : ¬ Sub v c 512 d t := by
  rintro ⟨p, -, hp, hw⟩
  have := h [] (k :: p) t (first_nil n) (first_cons hk) (Nat.zero_le _) (by simpa using hp) rfl
    (walk_child hc hw)
  cases this

theorem frees_table (v : Vmm) (i : ℕ) : Frees v 512 0 (fun _ => i) fun z pt => z.reclaimTable i pt := by
  intro z t hsame _
  have ht : Sub v t 512 0 t := ⟨[], first_nil 512, Nat.le_refl _, rfl⟩
  refine (reclaimTable_frees z i t).congr (fun a => ?_) fun p => ?_
  · constructor
    · rintro rfl
      exact ht
    · rintro ⟨q, -, hq, hw⟩
      obtain rfl := List.length_eq_zero_iff.1 (Nat.le_zero.1 hq)
      exact (Option.some.inj hw).symm
  · rw [hsame t ht]
    constructor
    · exact fun h => ⟨[], t, first_nil 512, rfl, rfl, h⟩
    · rintro ⟨q, pt, -, hq, hw, h⟩
      obtain rfl := List.length_eq_zero_iff.1 hq
      obtain rfl := Option.some.inj hw
      exact h

/-- The structure itself: the two `memset`s and `free_page_struct`. -/
theorem clear_frees (z : Spaces) (t : ℕ) : FreedOnly (· = t) (fun _ => False) z ((z.clearPageStruct t).freePageStruct t) := by
  obtain ⟨hf1, hf2, hf3⟩ := freePageStruct_frame (z.clearPageStruct t).vmm t
  refine ⟨fun a ha => (congrFun hf1 a).trans (Function.update_of_ne ha _ _),
    fun j => test_freePageStruct (z.clearPageStruct t).vmm t j, fun p => ?_, hf2, hf3, rfl, rfl⟩
  show test z.mem.bitmap p = true ↔ _
  simp

/-- **A structure whose children are reclaimed by `f`.** -/
theorem frees_below {f : Spaces → ℕ → ℕ → Spaces} (hn : n ≤ 512)
    (hf : ∀ k < n, Frees v 512 d (fun q => idx (k :: q)) fun z c => f z k c) :
    Frees v n (d + 1) idx fun z t => z.reclaimBelow f n t := by
  intro z t hsame htree
  -- the first `m` children are freed, and the others are as they were
  have hloop : ∀ m ≤ n, FreedOnly (fun a => ∃ k < m, ∃ c, v.kids t k = some c ∧ Sub v c 512 d a)
      (fun p => ∃ k < m, ∃ c, v.kids t k = some c ∧ SubPages v c 512 d (fun q => idx (k :: q)) p) z
      ((List.range m).foldl (fun z k =>
        let c := (z.vmm.tab t).child k
        if c = NULL then z else f z k c) z) := by
    intro m
    induction m with
    | zero => exact fun _ => (FreedOnly.refl z).congr (fun a => by simp) fun p => by simp
    | succ m ih =>
      intro hm
      rw [List.range_succ, List.foldl_append]
      generalize (List.range m).foldl (fun z k =>
        let c := (z.vmm.tab t).child k
        if c = NULL then z else f z k c) z = z₁ at ih
      have h₁ := ih (by omega)
      have hroot : z₁.vmm.tab t = v.tab t := by
        rw [h₁.tab t, hsame t (sub_succ.2 (Or.inl rfl))]
        rintro ⟨k, hk, c, hc, ha⟩
        exact htree.root_notMem (show k < n by omega) hc ha
      simp only [List.foldl_cons, List.foldl_nil, hroot]
      split_ifs with h0
      · -- there is no child `m`
        have hnone : v.kids t m = none := kids_of_eq h0
        refine h₁.congr (fun a => ?_) fun p => ?_
        all_goals
          constructor
          · rintro ⟨k, hk, h⟩
            exact ⟨k, by omega, h⟩
          · rintro ⟨k, hk, c, hc, h⟩
            refine ⟨k, ?_, c, hc, h⟩
            rcases Nat.eq_or_lt_of_le (Nat.le_of_lt_succ hk) with rfl | hk
            · rw [hnone] at hc
              cases hc
            · exact hk
      · have hsome : v.kids t m = some ((v.tab t).child m) := kids_of_ne (by omega) h0
        have hsame₁ : ∀ a, Sub v ((v.tab t).child m) 512 d a → z₁.vmm.tab a = v.tab a := by
          intro a ha
          rw [h₁.tab a, hsame a (sub_succ.2 (Or.inr ⟨m, by omega, _, hsome, ha⟩))]
          rintro ⟨k, hk, c, hc, ha'⟩
          have := htree.apart (show k < n by omega) hc (show m < n by omega) hsome ha' ha
          omega
        have hstep := hf m (by omega) z₁ _ hsame₁ (htree.child (show m < n by omega) hsome)
        refine (h₁.trans hstep).congr (fun a => ?_) fun p => ?_
        all_goals
          constructor
          · rintro (⟨k, hk, h⟩ | h)
            · exact ⟨k, by omega, h⟩
            · exact ⟨m, by omega, _, hsome, h⟩
          · rintro ⟨k, hk, c, hc, h⟩
            rcases Nat.eq_or_lt_of_le (Nat.le_of_lt_succ hk) with rfl | hk
            · obtain rfl := Option.some.inj (hsome.symm.trans hc)
              exact Or.inr h
            · exact Or.inl ⟨k, hk, c, hc, h⟩
  refine ((hloop n (Nat.le_refl n)).trans (clear_frees _ t)).congr (fun a => ?_) fun p => ?_
  · rw [sub_succ, or_comm]
  · rw [subPages_succ, or_false]

/-- **The whole address space**: the structures of the user half and the PML4T, and the pages that the loops visit. -/
theorem reclaim_frees (v : Vmm) : Frees v 511 3 (fun q => q.headD 0) fun z r => z.reclaim r := by
  refine frees_below (by omega) fun i _ => ?_
  refine frees_below (Nat.le_refl _) fun j _ => ?_
  refine frees_below (Nat.le_refl _) fun k _ => ?_
  exact frees_table v i

/-! ## The page map -/

variable {r vp : ℕ}

/-- The loop does not come to the page: its index in the table is the table's index in the PML4T, and a page before it
in the table is mapped. -/
def Missed (v : Vmm) (r vp : ℕ) : Prop :=
  vp % 512 = vp / 512 ^ 3 ∧ ∃ l < vp % 512, flat v r (vp / 512 * 512 + l) ≠ 0

theorem flat_table (hw : walk v.kids r (path vp) = some pt) {l : ℕ} (hl : l < 512) :
    flat v r (vp / 512 * 512 + l) = (v.tab pt).entries l := by
  have hp : path (vp / 512 * 512 + l) = path vp := by
    unfold path
    simp only [List.cons.injEq, and_true]
    omega
  rw [flat_of_walk (hp ▸ hw)]
  congr 1
  omega

/-- The entries that the loop visits, as pages. -/
theorem visited_iff (hw : walk v.kids r (path vp) = some pt) :
    Visited (v.tab pt).entries (vp / 512 ^ 3) (vp % 512) ↔ flat v r vp ≠ 0 ∧ ¬ Missed v r vp := by
  unfold Visited Missed
  rw [← flat_of_walk hw]
  refine and_congr_right fun _ => ?_
  constructor
  · rintro h ⟨he, l, hl, hne⟩
    rw [flat_table hw (by omega)] at hne
    exact hne (h he l (by omega))
  · intro h he k hk
    by_contra hne
    refine h ⟨he, k, by omega, ?_⟩
    rwa [flat_table hw (by omega)]

/-- **The pages that are freed** are the mapped ones that the loops do not miss. -/
theorem subPages_iff {p : ℕ} : SubPages v r 511 3 (fun q => q.headD 0) p ↔
    ∃ vp < userHalf, flat v r vp ≠ 0 ∧ ¬ Missed v r vp ∧ flat v r vp / 0x1000 = p := by
  constructor
  · rintro ⟨q, pt, hf, hlen, hw, l, hl, hv, rfl⟩
    obtain ⟨i, j, k, rfl⟩ := List.length_eq_three.1 hlen
    have hi := hf i rfl
    have hw' := hw
    simp only [walk_cons, walk_nil, Option.bind_eq_some_iff] at hw'
    obtain ⟨a, -, b, hj, c, hk, -⟩ := hw'
    have hj := (kids_eq_some.1 hj).1
    have hk := (kids_eq_some.1 hk).1
    have hvp : ∃ vp, vp = ((i * 512 + j) * 512 + k) * 512 + l := ⟨_, rfl⟩
    obtain ⟨vp, hvp⟩ := hvp
    have hpath : path vp = [i, j, k] := by
      unfold path
      simp only [List.cons.injEq, and_true]
      omega
    have hvi : vp / 512 ^ 3 = i := by omega
    have hvl : vp % 512 = l := by omega
    rw [← hpath] at hw
    have hvis := visited_iff hw
    rw [hvi, hvl] at hvis
    obtain ⟨h1, h2⟩ := hvis.1 hv
    refine ⟨vp, ?_, h1, h2, ?_⟩
    · unfold userHalf
      omega
    · rw [flat_of_walk hw, hvl]
  · rintro ⟨vp, hvp, h0, hm, rfl⟩
    have hw : ∃ pt, walk v.kids r (path vp) = some pt := by
      by_contra hc
      exact h0 (flat_of_none (Option.eq_none_iff_forall_ne_some.2 fun pt hpt => hc ⟨pt, hpt⟩))
    obtain ⟨pt, hw⟩ := hw
    unfold userHalf at hvp
    refine ⟨path vp, pt, first_cons (by omega), rfl, hw, vp % 512, Nat.mod_lt _ (by decide), (visited_iff hw).2 ⟨h0, hm⟩, ?_⟩
    rw [flat_of_walk hw]

/-- Different pages of the user half are mapped to different frames. -/
def DistinctFrames (v : Vmm) (r : ℕ) : Prop := ∀ vp < userHalf, ∀ vp' < userHalf,
  flat v r vp ≠ 0 → flat v r vp' ≠ 0 → flat v r vp / 0x1000 = flat v r vp' / 0x1000 → vp = vp'

/-- **All of it is reclaimed**: the valid pages that were mapped and the page structures are free, and no other bit of the
two bitmaps has changed. -/
structure Reclaimed (z : Spaces) (r : ℕ) (z' : Spaces) : Prop where
  pages : ∀ vp < userHalf, flat z.vmm r vp ≠ 0 → isppValid z.mem (flat z.vmm r vp / 0x1000) = true →
    isppUsed z'.mem (flat z.vmm r vp / 0x1000) = 0
  structs : ∀ j < z.vmm.pageHeapBitmapLength * 8, Sub z.vmm r 511 3 (z.vmm.pageStructAt j) →
    test z'.vmm.pageHeapBitmap j = false
  otherPages : ∀ p, (∀ vp < userHalf, flat z.vmm r vp ≠ 0 → isppValid z.mem p = true → flat z.vmm r vp / 0x1000 ≠ p) →
    test z'.mem.bitmap p = test z.mem.bitmap p
  otherStructs : ∀ j, (j < z.vmm.pageHeapBitmapLength * 8 → ¬ Sub z.vmm r 511 3 (z.vmm.pageStructAt j)) →
    test z'.vmm.pageHeapBitmap j = test z.vmm.pageHeapBitmap j

/-- **When the end of a task reclaims its address space.** For every address space whose user half is a tree and maps its
pages to different frames: all of it is reclaimed exactly when the loops miss no page that is in use. -/
theorem reclaim_iff (ht : TreeAt z.vmm r 511 3) (hd : DistinctFrames z.vmm r) :
    Reclaimed z r (z.reclaim r) ↔
      ∀ vp < userHalf, flat z.vmm r vp ≠ 0 → Missed z.vmm r vp → isppUsed z.mem (flat z.vmm r vp / 0x1000) ≠ 1 := by
  have h : FreedOnly (Sub z.vmm r 511 3) (SubPages z.vmm r 511 3 fun q => q.headD 0) z (z.reclaim r) :=
    reclaim_frees z.vmm z r (fun _ _ => rfl) ht
  generalize z.reclaim r = z' at h ⊢
  have hbit : ∀ p, isppUsed z'.mem p = 0 ↔ isppValid z.mem p = true ∧ test z'.mem.bitmap p = false := by
    intro p
    rw [isppUsed_eq_zero_iff, h.valid_eq]
    rfl
  constructor
  · intro hR vp hvp h0 hm hused
    obtain ⟨hv, hset⟩ := isppUsed_eq_one_iff.1 hused
    have hclear := ((hbit _).1 (hR.pages vp hvp h0 hv)).2
    rw [← Bool.not_eq_true, h.page, not_and_not_right] at hclear
    obtain ⟨-, hsub⟩ := hclear hset
    obtain ⟨vp', hvp', h0', hm', he⟩ := subPages_iff.1 hsub
    obtain rfl := hd vp' hvp' vp hvp h0' h0 he
    exact hm' hm
  · intro hc
    refine ⟨fun vp hvp h0 hv => (hbit _).2 ⟨hv, ?_⟩, fun j hj hs => ?_, fun p hp => ?_, fun j hj => ?_⟩
    · rw [← Bool.not_eq_true, h.page]
      rintro ⟨hset, hnot⟩
      by_cases hm : Missed z.vmm r vp
      · exact hc vp hvp h0 hm (isppUsed_eq_one_iff.2 ⟨hv, hset⟩)
      · exact hnot ⟨hv, subPages_iff.2 ⟨vp, hvp, h0, hm, rfl⟩⟩
    · rw [← Bool.not_eq_true, h.slot]
      exact fun hn => hn.2 ⟨hj, hs⟩
    · rw [Bool.eq_iff_iff, h.page]
      refine and_iff_left ?_
      rintro ⟨hv, hs⟩
      obtain ⟨vp, hvp, h0, -, he⟩ := subPages_iff.1 hs
      exact hp vp hvp h0 hv he
    · rw [Bool.eq_iff_iff, h.slot]
      exact and_iff_left fun hs => hj hs.1 hs.2

end Nettapus
