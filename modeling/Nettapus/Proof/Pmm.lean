import Nettapus.Code.Pmm
import Mathlib.Data.List.Basic
import Mathlib.Order.Nat

/-!
# Ownership of physical pages

* `allocpp_spec`, `allocpps_spec`: an allocation either fails and changes nothing, or
  returns pages that were valid and free, and sets exactly their bits.
* `PmmReach`: the states that sequences of allocations and frees lead to, with the pages
  each allocation call owns. Frees name owned pages only.
* `pmm_ownership`: in every state reached, the bits of the usable pages above the first
  4 MiB are the owned pages, and each is owned through one call.
-/

namespace Nettapus

open Bitmap

variable {m : MemoryMap}

/-! ## One page -/

/-- The bit of a page. -/
def pageBit (m : MemoryMap) (p : ℕ) : Bool := test m.bitmap p

theorem isppUsed_eq_zero_iff {p : ℕ} : isppUsed m p = 0 ↔ isppValid m p = true ∧ pageBit m p = false := by
  unfold isppUsed pageBit test
  rw [shiftRight_and_one]
  cases isppValid m p <;> cases (m.bitmap (p / 64)).getLsbD (p % 64) <;> simp

theorem isppUsed_eq_one_iff {p : ℕ} : isppUsed m p = 1 ↔ isppValid m p = true ∧ pageBit m p = true := by
  unfold isppUsed pageBit test
  rw [shiftRight_and_one]
  cases isppValid m p <;> cases (m.bitmap (p / 64)).getLsbD (p % 64) <;> simp

/-- Setting the bit of a page does not change the blocks. -/
theorem isppValid_setppUsed (p v q : ℕ) : isppValid (setppUsed m p v).2 q = isppValid m q := by
  unfold setppUsed
  split_ifs <;> rfl

theorem pageBit_mark {p : ℕ} (hp : isppValid m p = true) (q : ℕ) :
    pageBit (setppUsed m p 1).2 q = (decide (q = p) || pageBit m q) := by
  unfold setppUsed pageBit
  rw [if_neg (by simp [hp]), if_neg (by decide)]
  exact test_mark _ _ _

theorem pageBit_clear {p : ℕ} (hp : isppValid m p = true) (q : ℕ) :
    pageBit (setppUsed m p 0).2 q = (!decide (q = p) && pageBit m q) := by
  unfold setppUsed pageBit
  rw [if_neg (by simp [hp]), if_pos rfl]
  exact test_clear _ _ _

/-! ## Allocation -/

/-- `m'` is `m` with exactly the bits of the `k` pages from `p` set. -/
structure Marked (m : MemoryMap) (p k : ℕ) (m' : MemoryMap) : Prop where
  valid : ∀ q, isppValid m' q = isppValid m q
  bit : ∀ q, pageBit m' q = (decide (p ≤ q ∧ q < p + k) || pageBit m q)

/-- The `k` pages from `p` are valid and free. -/
def FreeRun (m : MemoryMap) (p k : ℕ) : Prop := ∀ q, p ≤ q → q < p + k → isppUsed m q = 0

theorem allocppLoop_spec : ∀ n i, (∃ p, allocppLoop m n i = (p, (setppUsed m p 1).2) ∧
    isppUsed m p = 0 ∧ i ≤ p ∧ p < i + n ∧ ∀ q, i ≤ q → q < p → isppUsed m q ≠ 0) ∨
    (allocppLoop m n i = (0, m) ∧ ∀ q, i ≤ q → q < i + n → isppUsed m q ≠ 0) := by
  intro n
  induction n with
  | zero => intro i; exact Or.inr ⟨rfl, fun q h1 h2 => by omega⟩
  | succ n ih =>
    intro i
    unfold allocppLoop
    by_cases hi : isppUsed m i = 0
    · rw [if_pos hi]
      exact Or.inl ⟨i, rfl, hi, le_rfl, by omega, fun q h1 h2 => by omega⟩
    · rw [if_neg hi]
      rcases ih (i + 1) with ⟨p, h1, h2, h3, h4, h5⟩ | ⟨h1, h2⟩
      · refine Or.inl ⟨p, h1, h2, by omega, by omega, fun q hq1 hq2 => ?_⟩
        rcases Nat.eq_or_lt_of_le hq1 with rfl | h
        · exact hi
        · exact h5 q h hq2
      · refine Or.inr ⟨h1, fun q hq1 hq2 => ?_⟩
        rcases Nat.eq_or_lt_of_le hq1 with rfl | h
        · exact hi
        · exact h2 q h (by omega)

/-- **`allocpp`** fails and changes nothing, or takes one free page. -/
theorem allocpp_spec : (∃ p, (allocpp m).1 = p ∧ FreeRun m p 1 ∧ Marked m p 1 (allocpp m).2) ∨
    allocpp m = (0, m) := by
  unfold allocpp
  rcases allocppLoop_spec (m := m) pageLimit 0 with ⟨p, h1, h2, -, -, -⟩ | ⟨h1, -⟩
  · refine Or.inl ⟨p, by rw [h1], ?_, ?_⟩
    · intro q hq1 hq2
      obtain rfl : q = p := by omega
      exact h2
    · rw [h1]
      refine ⟨isppValid_setppUsed p 1, fun q => ?_⟩
      rw [pageBit_mark (isppUsed_eq_zero_iff.1 h2).1]
      congr 1
      exact decide_eq_decide.2 (by omega)
  · exact Or.inr h1

/-- The inner loop of `allocpps` counts free pages, and stops at a page that is not free. -/
theorem allocppsRun_spec (i : ℕ) : ∀ n j ia, ∃ k, allocppsRun m i n j ia = ia + k ∧ k ≤ n ∧
    (∀ t, j ≤ t → t < j + k → isppUsed m (u64 (i + t)) = 0) ∧
    (k < n → isppUsed m (u64 (i + (j + k))) ≠ 0) := by
  intro n
  induction n with
  | zero => exact fun j ia => ⟨0, rfl, le_rfl, fun t h1 h2 => by omega, fun h => by omega⟩
  | succ n ih =>
    intro j ia
    unfold allocppsRun
    by_cases hj : isppUsed m (u64 (i + j)) = 0
    · rw [if_neg (by simpa using hj)]
      obtain ⟨k, h1, h2, h3, h4⟩ := ih (j + 1) (ia + 1)
      refine ⟨k + 1, by rw [h1]; omega, by omega, fun t ht1 ht2 => ?_, fun hk => ?_⟩
      · rcases Nat.eq_or_lt_of_le ht1 with rfl | h
        · exact hj
        · exact h3 t h (by omega)
      · rw [show j + (k + 1) = j + 1 + k by omega]
        exact h4 (by omega)
    · rw [if_pos hj]
      exact ⟨0, rfl, by omega, fun t h1 h2 => by omega, fun _ => hj⟩

/-- **`allocpps` goes through the pages in order**: it takes the first place where the inner loop comes to its end, and
fails if there is none. -/
theorem allocpps_cases (m : MemoryMap) (amount : ℕ) :
    (∃ p < pageLimit, allocpps m amount = (p, markUsed p amount 0 m) ∧ (∀ t < amount, isppUsed m (u64 (p + t)) = 0) ∧
      ∀ b < p, ¬ ∀ t < amount, isppUsed m (u64 (b + t)) = 0) ∨
    (allocpps m amount = (0, m) ∧ ∀ b < pageLimit, ¬ ∀ t < amount, isppUsed m (u64 (b + t)) = 0) := by
  have key : ∀ fuel i, pageLimit ≤ i + fuel → (∀ b < i, ¬ ∀ t < amount, isppUsed m (u64 (b + t)) = 0) →
      (∃ p < pageLimit, allocppsLoop m amount fuel i = (p, markUsed p amount 0 m) ∧
        (∀ t < amount, isppUsed m (u64 (p + t)) = 0) ∧ ∀ b < p, ¬ ∀ t < amount, isppUsed m (u64 (b + t)) = 0) ∨
      (allocppsLoop m amount fuel i = (0, m) ∧ ∀ b < pageLimit, ¬ ∀ t < amount, isppUsed m (u64 (b + t)) = 0) := by
    intro fuel
    induction fuel with
    | zero => exact fun i hi hno => .inr ⟨rfl, fun b hb => hno b (by omega)⟩
    | succ fuel ih =>
      intro i hi hno
      unfold allocppsLoop
      by_cases hlt : i < pageLimit
      · rw [if_pos hlt]
        dsimp only
        obtain ⟨k, h1, h2, h3, h4⟩ := allocppsRun_spec (m := m) i amount 0 0
        by_cases hk : k = amount
        · subst hk
          rw [if_neg (by omega)]
          exact .inl ⟨i, hlt, rfl, fun t ht => h3 t (Nat.zero_le t) (by omega), hno⟩
        · rw [if_pos (by omega), h1, Nat.zero_add]
          refine ih _ (by omega) fun b hb hfree => ?_
          by_cases hbi : b < i
          · exact hno b hbi hfree
          · -- the page that ended the run is used
            obtain ⟨t, ht⟩ := Nat.exists_eq_add_of_le (show b ≤ i + k by omega)
            have hused := h4 (by omega)
            rw [Nat.zero_add, ht] at hused
            exact hused (hfree t (by omega))
      · rw [if_neg hlt]
        exact .inr ⟨rfl, fun b hb => hno b (by omega)⟩
  exact key pageLimit 0 (by omega) fun b hb => absurd hb (Nat.not_lt_zero b)

/-- Every valid page has a bit. -/
def BelowLimit (m : MemoryMap) : Prop := ∀ p, isppValid m p = true → p < pageLimit

/-- The addition of the inner loop does not wrap: the pages up to the limit come first,
and the page at the limit is not valid. -/
theorem freeRun_of_u64 (hl : BelowLimit m) {i k : ℕ} (hi : i < pageLimit)
    (h : ∀ t, t < k → isppUsed m (u64 (i + t)) = 0) : FreeRun m i k ∧ i + k ≤ pageLimit := by
  have hlim : pageLimit < 2 ^ 64 := by decide
  have hle : ∀ t, t ≤ k → i + t ≤ pageLimit := by
    intro t
    induction t with
    | zero => intro _; omega
    | succ t ih =>
      intro ht
      have := ih (by omega)
      have hv := h t (by omega)
      rw [u64_of_lt (by omega)] at hv
      have := hl _ (isppUsed_eq_zero_iff.1 hv).1
      omega
  refine ⟨fun q hq1 hq2 => ?_, hle k le_rfl⟩
  have hq := h (q - i) (by omega)
  have := hle (q - i) (by omega)
  rwa [show i + (q - i) = q by omega, u64_of_lt (by omega)] at hq

theorem markUsed_spec (i : ℕ) : ∀ n j (m : MemoryMap), FreeRun m (i + j) n → i + j + n < 2 ^ 64 →
    Marked m (i + j) n (markUsed i n j m) := by
  intro n
  induction n with
  | zero =>
    intro j m _ _
    refine ⟨fun _ => rfl, fun q => ?_⟩
    rw [decide_eq_false (by omega)]; rfl
  | succ n ih =>
    intro j m hf hlt
    have h0 := hf (i + j) le_rfl (by omega)
    have hv := (isppUsed_eq_zero_iff.1 h0).1
    unfold markUsed
    rw [u64_of_lt (by omega)]
    have hf' : FreeRun (setppUsed m (i + j) 1).2 (i + (j + 1)) n := by
      intro q hq1 hq2
      have := isppUsed_eq_zero_iff.1 (hf q (by omega) (by omega))
      rw [isppUsed_eq_zero_iff, isppValid_setppUsed, pageBit_mark hv, this.2,
        decide_eq_false (by omega)]
      exact ⟨this.1, rfl⟩
    obtain ⟨h1, h2⟩ := ih (j + 1) _ hf' (by omega)
    refine ⟨fun q => by rw [h1, isppValid_setppUsed], fun q => ?_⟩
    rw [h2, pageBit_mark hv, ← Bool.or_assoc]
    congr 1
    rw [← Bool.decide_or]
    exact decide_eq_decide.2 (by omega)

/-- The pages that `allocpps` takes were free, whatever the blocks are. -/
theorem allocpps_free (amount : ℕ) : (allocpps m amount).1 < pageLimit ∧
    ((allocpps m amount).1 ≠ 0 → ∀ t < amount, isppUsed m (u64 ((allocpps m amount).1 + t)) = 0) := by
  rcases allocpps_cases m amount with ⟨p, hlt, heq, hfree, -⟩ | ⟨heq, -⟩
  · rw [heq]
    exact ⟨hlt, fun _ => hfree⟩
  · rw [heq]
    exact ⟨show 0 < pageLimit by decide, fun h => absurd rfl h⟩

/-- A run that `allocpps` takes, if every valid page has a bit. -/
theorem freeRun_marked (hl : BelowLimit m) {p amount : ℕ} (hlt : p < pageLimit)
    (hfree : ∀ t < amount, isppUsed m (u64 (p + t)) = 0) :
    FreeRun m p amount ∧ Marked m p amount (markUsed p amount 0 m) := by
  have hlim : pageLimit < 2 ^ 64 := by decide
  obtain ⟨hrun, hle⟩ := freeRun_of_u64 hl hlt hfree
  exact ⟨hrun, markUsed_spec p amount 0 m hrun (by omega)⟩

/-- **`allocpps`** fails and changes nothing, or takes a run of free pages. -/
theorem allocpps_spec (hl : BelowLimit m) (amount : ℕ) :
    (∃ p, (allocpps m amount).1 = p ∧ FreeRun m p amount ∧ Marked m p amount (allocpps m amount).2) ∨
      allocpps m amount = (0, m) := by
  rcases allocpps_cases m amount with ⟨p, hlt, heq, hfree, -⟩ | ⟨heq, -⟩
  · rw [heq]
    exact .inl ⟨p, rfl, freeRun_marked hl hlt hfree⟩
  · exact .inr heq

/-- **`allocpps` finds a run** if there is one, and none that begins later. -/
theorem allocpps_first (hl : BelowLimit m) {amount b : ℕ} (hb : FreeRun m b amount) (hlt : b < pageLimit)
    (hend : b + amount ≤ pageLimit) :
    ∃ p ≤ b, (allocpps m amount).1 = p ∧ FreeRun m p amount ∧ Marked m p amount (allocpps m amount).2 := by
  have hlim : pageLimit < 2 ^ 64 := by decide
  have hfits : ∀ t < amount, isppUsed m (u64 (b + t)) = 0 := by
    intro t ht
    rw [u64_of_lt (by omega)]
    exact hb _ (by omega) (by omega)
  rcases allocpps_cases m amount with ⟨p, hp, heq, hfree, hleast⟩ | ⟨-, hno⟩
  · rw [heq]
    exact ⟨p, not_lt.1 fun h => hleast b h hfits, rfl, freeRun_marked hl hp hfree⟩
  · exact absurd hfits (hno b hlt)

/-- **`allocpp` finds a page** if there is one, and none behind it. -/
theorem allocpp_first {b : ℕ} (hb : isppUsed m b = 0) (hlt : b < pageLimit) :
    ∃ p ≤ b, (allocpp m).1 = p ∧ Marked m p 1 (allocpp m).2 := by
  unfold allocpp
  rcases allocppLoop_spec (m := m) pageLimit 0 with ⟨p, h1, h2, -, -, h5⟩ | ⟨-, h2⟩
  · refine ⟨p, ?_, by rw [h1], ?_⟩
    · by_contra hc
      exact h5 b (Nat.zero_le _) (by omega) hb
    · rw [h1]
      refine ⟨isppValid_setppUsed p 1, fun q => ?_⟩
      rw [pageBit_mark (isppUsed_eq_zero_iff.1 h2).1]
      congr 1
      exact decide_eq_decide.2 (by omega)
  · exact absurd hb (h2 b (Nat.zero_le _) (by omega))

/-- What is left of a run behind an allocation. -/
theorem Marked.freeRun {m' : MemoryMap} {p b n k : ℕ} (h : Marked m p n m') (hp : p ≤ b) (hf : FreeRun m b (n + k)) :
    FreeRun m' (b + n) k := by
  intro q h1 h2
  have hq := isppUsed_eq_zero_iff.1 (hf q (by omega) (by omega))
  rw [isppUsed_eq_zero_iff, h.valid, h.bit, hq.2, decide_eq_false (by omega)]
  exact ⟨hq.1, rfl⟩

/-- The pages of an allocation, and those that were used, are used. -/
theorem Marked.used {m' : MemoryMap} {p n q : ℕ} (h : Marked m p n m') (hq : isppUsed m q ≠ 0 ∨ (p ≤ q ∧ q < p + n)) :
    isppUsed m' q ≠ 0 := by
  intro h0
  obtain ⟨h1, h2⟩ := isppUsed_eq_zero_iff.1 h0
  rw [h.valid] at h1
  rw [h.bit, Bool.or_eq_false_iff, decide_eq_false_iff_not] at h2
  rcases hq with hq | hq
  · exact hq (isppUsed_eq_zero_iff.2 ⟨h1, h2.2⟩)
  · exact h2.1 hq

/-! ## Frees -/

/-- `m'` is `m` with exactly the bits of the `k` pages from `p` cleared. -/
structure Cleared (m : MemoryMap) (p k : ℕ) (m' : MemoryMap) : Prop where
  valid : ∀ q, isppValid m' q = isppValid m q
  bit : ∀ q, pageBit m' q = (!decide (p ≤ q ∧ q < p + k) && pageBit m q)

/-- **`freepps`** of valid pages succeeds and clears exactly their bits. -/
theorem freeppsLoop_spec (p : ℕ) : ∀ n i (m : MemoryMap),
    (∀ q, p + i ≤ q → q < p + i + n → isppValid m q = true) → p + i + n < 2 ^ 64 →
    (freeppsLoop p n i m).1 = 0 ∧ Cleared m (p + i) n (freeppsLoop p n i m).2 := by
  intro n
  induction n with
  | zero =>
    intro i m _ _
    refine ⟨rfl, fun _ => rfl, fun q => ?_⟩
    rw [decide_eq_false (by omega)]; rfl
  | succ n ih =>
    intro i m hv hlt
    have h0 := hv (p + i) le_rfl (by omega)
    have hr : (setppUsed m (p + i) 0).1 = 0 := by simp [setppUsed, h0, GENERIC_SUCCESS]
    unfold freeppsLoop
    rw [u64_of_lt (by omega)]
    dsimp only
    rw [if_neg (by simpa using hr)]
    obtain ⟨h1, h2, h3⟩ := ih (i + 1) (setppUsed m (p + i) 0).2
      (fun q hq1 hq2 => by rw [isppValid_setppUsed]; exact hv q (by omega) (by omega)) (by omega)
    refine ⟨h1, fun q => by rw [h2, isppValid_setppUsed], fun q => ?_⟩
    rw [h3, pageBit_clear h0, ← Bool.and_assoc, ← Bool.not_or, ← Bool.decide_or]
    congr 2
    exact decide_eq_decide.2 (by omega)

/-- **`freepp`** of a valid page clears exactly its bit. -/
theorem freepp_spec {p : ℕ} (hp : isppValid m p = true) : Cleared m p 1 (freepp m p).2 := by
  refine ⟨isppValid_setppUsed p 0, fun q => ?_⟩
  unfold freepp
  rw [pageBit_clear hp]
  congr 2
  exact decide_eq_decide.2 (by omega)

/-! ## `init_pmm` -/

/-- Page `p` lies in a usable entry of the memory map. -/
def Usable (tag : MemmapTag) (p : ℕ) : Prop :=
  ∃ e ∈ tag.memmap, e.type = STIVALE2_MMAP_USABLE ∧ e.base ≤ p * 0x1000 ∧
    (p + 1) * 0x1000 ≤ e.base + e.length

/-- A memory map that the manager can hold: at most 32 usable entries, all of them page
aligned and below the 24 GiB of the bitmap. -/
structure MemmapTag.Ok (tag : MemmapTag) : Prop where
  ident : tag.identifier = STIVALE2_STRUCT_TAG_MEMMAP_ID
  count : (tag.memmap.filter fun e => e.type = STIVALE2_MMAP_USABLE).length ≤ maxBlocks
  aligned : ∀ e ∈ tag.memmap, e.type = STIVALE2_MMAP_USABLE → e.base % 0x1000 = 0 ∧ e.length % 0x1000 = 0
  below : ∀ e ∈ tag.memmap, e.type = STIVALE2_MMAP_USABLE → e.base + e.length ≤ pageLimit * 0x1000

/-- The page is in the block of a usable entry. -/
def InEntry (e : MmapEntry) (p : ℕ) : Prop :=
  e.type = STIVALE2_MMAP_USABLE ∧ addrToPage e.base ≤ p ∧
    p < u64 (addrToPage e.base + addrToPage e.length)

theorem isppValid_iff {p : ℕ} : isppValid m p = true ↔ ∃ i < m.numBlocks,
    (m.blocks i).basePage ≤ p ∧ p < u64 ((m.blocks i).basePage + (m.blocks i).length) := by
  unfold isppValid
  simp only [List.any_eq_true, List.mem_range, Bool.and_eq_true, decide_eq_true_eq]
  exact exists_congr fun i => and_congr_right fun _ => and_comm

/-- The loop of `init_pmm` adds one block for every usable entry. -/
theorem initPmmLoop_spec : ∀ (es : List MmapEntry) (m : MemoryMap),
    m.numBlocks + (es.filter fun e => e.type = STIVALE2_MMAP_USABLE).length ≤ maxBlocks →
    ∃ m', initPmmLoop es m = some m' ∧ m'.bitmap = m.bitmap ∧
      ∀ p, isppValid m' p = true ↔ isppValid m p = true ∨ ∃ e ∈ es, InEntry e p := by
  intro es
  induction es with
  | nil => intro m _; exact ⟨m, rfl, rfl, fun p => by simp⟩
  | cons e es ih =>
    intro m hc
    unfold initPmmLoop
    by_cases he : e.type = STIVALE2_MMAP_USABLE
    · rw [List.filter_cons_of_pos (by simpa using he), List.length_cons] at hc
      rw [if_neg (by simpa using he), if_pos (by omega)]
      set m1 : MemoryMap := { m with
        blocks := Function.update m.blocks m.numBlocks (createBlock e.base e.length)
        numBlocks := m.numBlocks + 1 } with hm1
      obtain ⟨m', h1, h2, h3⟩ := ih m1 (by simp only [hm1]; omega)
      refine ⟨m', h1, h2, fun p => ?_⟩
      -- the new block is behind the ones that were there
      have hm1v : isppValid m1 p = true ↔ isppValid m p = true ∨ InEntry e p := by
        rw [isppValid_iff, isppValid_iff]
        constructor
        · rintro ⟨i, hi, hp⟩
          simp only [hm1] at hi hp
          by_cases hin : i = m.numBlocks
          · subst hin
            rw [Function.update_self] at hp
            exact Or.inr ⟨he, hp⟩
          · rw [Function.update_of_ne hin] at hp
            exact Or.inl ⟨i, by omega, hp⟩
        · rintro (⟨i, hi, hp⟩ | ⟨-, hp⟩)
          · refine ⟨i, by simp only [hm1]; omega, ?_⟩
            simp only [hm1]
            rw [Function.update_of_ne (by omega)]
            exact hp
          · refine ⟨m.numBlocks, by simp [hm1], ?_⟩
            simp only [hm1]
            rw [Function.update_self]
            exact hp
      rw [h3, hm1v, List.exists_mem_cons_iff, or_assoc]
    · rw [List.filter_cons_of_neg (by simpa using he)] at hc
      rw [if_pos he]
      obtain ⟨m', h1, h2, h3⟩ := ih m hc
      refine ⟨m', h1, h2, fun p => ?_⟩
      have hne : ¬ InEntry e p := fun h => he h.1
      rw [h3, List.exists_mem_cons_iff]
      tauto

theorem test_markLow (w : Words) (n p : ℕ) :
    test (markLow n w) p = (decide (p < n * 64) || test w p) := by
  induction n with
  | zero => simp [markLow]
  | succ n ih =>
    unfold test at ih ⊢
    unfold markLow
    by_cases hp : p / 64 = n
    · rw [hp, Function.update_self, getLsbD_ones (by omega), decide_eq_true (by omega)]; rfl
    · rw [Function.update_of_ne hp, ih]
      congr 1
      exact decide_eq_decide.2 (by omega)

/-- **`init_pmm`** makes the pages of the usable entries valid and marks the first 1024
pages. -/
theorem initPmm_spec {tag : MemmapTag} (ht : tag.Ok) : ∃ m',
    initPmm MemoryMap.zero (some tag) = some (0, m') ∧ (∀ p, isppValid m' p = true ↔ Usable tag p) ∧
      BelowLimit m' ∧ ∀ p, pageBit m' p = decide (p < 1024) := by
  obtain ⟨m', h1, h2, h3⟩ := initPmmLoop_spec tag.memmap { MemoryMap.zero with numBlocks := 0 }
    (by have := ht.count; simpa using this)
  have hlim : pageLimit = 6291456 := by decide
  have hv : ∀ p, isppValid { m' with bitmap := markLow 16 m'.bitmap } p = true ↔ Usable tag p := by
    intro p
    have hz : isppValid { MemoryMap.zero with numBlocks := 0 } p = false := by simp [isppValid]
    rw [show isppValid { m' with bitmap := markLow 16 m'.bitmap } p = isppValid m' p from rfl, h3]
    simp only [hz, Bool.false_eq_true, false_or]
    refine exists_congr fun e => and_congr_right fun he => ?_
    unfold InEntry
    refine and_congr_right fun hu => ?_
    have ha := ht.aligned e he hu
    have hb := ht.below e he hu
    unfold addrToPage
    rw [u64_of_lt (by omega)]
    constructor <;> intro h <;> omega
  refine ⟨{ m' with bitmap := markLow 16 m'.bitmap }, ?_, hv, ?_, ?_⟩
  · simp only [initPmm]
    rw [if_neg (by simp [ht.ident]), h1]
    rfl
  · intro p hp
    obtain ⟨e, he, hu, -, h5⟩ := (hv p).1 hp
    have hb := ht.below e he hu
    omega
  · intro p
    have hz : test m'.bitmap p = false := by
      rw [h2]; simp [test, MemoryMap.zero]
    unfold pageBit
    rw [test_markLow, hz, Bool.or_false]

/-! ## Runs -/

/-- The memory map, the number of allocation calls so far, and the pages each call owns,
as pairs of a call and a page. -/
structure PmmSys where
  mem : MemoryMap
  calls : ℕ
  owned : List (ℕ × ℕ)

/-- The call `c` now owns the `k` pages from `p`. -/
def PmmSys.own (s : PmmSys) (m : MemoryMap) (p k : ℕ) : PmmSys :=
  ⟨m, s.calls + 1, (List.range k).map (fun i => (s.calls, p + i)) ++ s.owned⟩

/-- The `k` pages from `p` are not owned any more. -/
def PmmSys.disown (s : PmmSys) (m : MemoryMap) (p k : ℕ) : PmmSys :=
  ⟨m, s.calls, s.owned.filter fun e => ¬ (p ≤ e.2 ∧ e.2 < p + k)⟩

/-- Page `p` is owned. -/
def PmmSys.Owned (s : PmmSys) (p : ℕ) : Prop := ∃ c, (c, p) ∈ s.owned

/-- The states reached by sequences of allocations and frees after `init_pmm`. A result
of zero is a failed allocation and owns nothing. -/
inductive PmmReach (tag : MemmapTag) : PmmSys → Prop
  | init {m : MemoryMap} (h : initPmm MemoryMap.zero (some tag) = some (0, m)) : PmmReach tag ⟨m, 0, []⟩
  | allocpp {s : PmmSys} (hs : PmmReach tag s) : PmmReach tag
      (s.own (allocpp s.mem).2 (allocpp s.mem).1 (if (allocpp s.mem).1 = 0 then 0 else 1))
  | allocpps {s : PmmSys} (hs : PmmReach tag s) (k : ℕ) (hk : k < 2 ^ 64) : PmmReach tag
      (s.own (allocpps s.mem k).2 (allocpps s.mem k).1 (if (allocpps s.mem k).1 = 0 then 0 else k))
  | freepp {s : PmmSys} (hs : PmmReach tag s) {p : ℕ} (hp : s.Owned p) :
      PmmReach tag (s.disown (freepp s.mem p).2 p 1)
  | freepps {s : PmmSys} (hs : PmmReach tag s) {p k : ℕ}
      (hp : ∀ q, p ≤ q → q < p + k → s.Owned q) :
      PmmReach tag (s.disown (freepps s.mem p k).2 p k)

/-- The invariant of the allocator. -/
structure PmmInv (tag : MemmapTag) (s : PmmSys) : Prop where
  valid : ∀ p, isppValid s.mem p = true ↔ Usable tag p
  limit : BelowLimit s.mem
  low : ∀ p < 1024, pageBit s.mem p = true
  used : ∀ p, Usable tag p → 1024 ≤ p → (pageBit s.mem p = true ↔ s.Owned p)
  usable : ∀ p, s.Owned p → Usable tag p ∧ 1024 ≤ p
  once : ∀ c c' p, (c, p) ∈ s.owned → (c', p) ∈ s.owned → c = c'

variable {tag : MemmapTag} {s : PmmSys}

theorem owned_own {m : MemoryMap} {p k q : ℕ} :
    (s.own m p k).Owned q ↔ (p ≤ q ∧ q < p + k) ∨ s.Owned q := by
  unfold PmmSys.Owned PmmSys.own
  simp only [List.mem_append, List.mem_map, List.mem_range, Prod.mk.injEq]
  constructor
  · rintro ⟨c, ⟨i, hi, -, rfl⟩ | h⟩
    · exact Or.inl (by omega)
    · exact Or.inr ⟨c, h⟩
  · rintro (h | ⟨c, h⟩)
    · exact ⟨s.calls, Or.inl ⟨q - p, by omega, rfl, by omega⟩⟩
    · exact ⟨c, Or.inr h⟩

theorem owned_disown {m : MemoryMap} {p k q : ℕ} :
    (s.disown m p k).Owned q ↔ ¬ (p ≤ q ∧ q < p + k) ∧ s.Owned q := by
  unfold PmmSys.Owned PmmSys.disown
  simp only [List.mem_filter, decide_eq_true_eq]
  constructor
  · rintro ⟨c, h1, h2⟩; exact ⟨h2, c, h1⟩
  · rintro ⟨h2, c, h1⟩; exact ⟨c, h1, h2⟩

/-- An allocation that fails changes no ownership. -/
theorem PmmInv.own_nothing (hi : PmmInv tag s) (p : ℕ) : PmmInv tag (s.own s.mem p 0) := by
  have h0 : (s.own s.mem p 0).owned = s.owned := by simp [PmmSys.own]
  have ho : ∀ q, (s.own s.mem p 0).Owned q ↔ s.Owned q := by
    intro q; unfold PmmSys.Owned; rw [h0]
  exact ⟨hi.valid, hi.limit, hi.low, fun q h1 h2 => (hi.used q h1 h2).trans (ho q).symm,
    fun q hq => hi.usable q ((ho q).1 hq), fun c c' q => by rw [h0]; exact hi.once c c' q⟩

/-- **An allocation of free pages** keeps the invariant: no page of a free run is owned,
because the bit of an owned page is set. -/
theorem PmmInv.own (hi : PmmInv tag s) {m : MemoryMap} {p k : ℕ} (hf : FreeRun s.mem p k)
    (hm : Marked s.mem p k m) : PmmInv tag (s.own m p k) := by
  have hfree : ∀ q, p ≤ q → q < p + k → Usable tag q ∧ 1024 ≤ q ∧ ¬ s.Owned q := by
    intro q h1 h2
    obtain ⟨hv, hb⟩ := isppUsed_eq_zero_iff.1 (hf q h1 h2)
    have hu := (hi.valid q).1 hv
    have hq : 1024 ≤ q := by
      by_contra hlt
      have := hi.low q (by omega)
      rw [hb] at this; cases this
    refine ⟨hu, hq, fun ho => ?_⟩
    have := (hi.used q hu hq).2 ho
    rw [hb] at this; cases this
  refine ⟨fun q => by rw [← hi.valid, ← hm.valid]; rfl, fun q hq => hi.limit q (by rw [← hm.valid]; exact hq),
    ?_, ?_, ?_, ?_⟩
  · intro q hq
    show pageBit m q = true
    rw [hm.bit, hi.low q hq, Bool.or_true]
  · intro q hu hq
    show pageBit m q = true ↔ _
    rw [hm.bit, owned_own, Bool.or_eq_true, decide_eq_true_eq, hi.used q hu hq]
  · intro q hq
    rcases owned_own.1 hq with ⟨h1, h2⟩ | h
    · exact ⟨(hfree q h1 h2).1, (hfree q h1 h2).2.1⟩
    · exact hi.usable q h
  · intro c c' q h1 h2
    simp only [PmmSys.own, List.mem_append, List.mem_map, List.mem_range, Prod.mk.injEq] at h1 h2
    -- a page of the run was free, so no older allocation owns it
    rcases h1 with ⟨i, hik, rfl, rfl⟩ | h1 <;> rcases h2 with ⟨j, hjk, rfl, hj⟩ | h2
    · rfl
    · exact absurd ⟨c', h2⟩ (hfree (p + i) (by omega) (by omega)).2.2
    · exact absurd ⟨c, h1⟩ (hfree q (by omega) (by omega)).2.2
    · exact hi.once c c' q h1 h2

/-- **A free of owned pages** keeps the invariant. -/
theorem PmmInv.disown (hi : PmmInv tag s) {m : MemoryMap} {p k : ℕ}
    (hp : ∀ q, p ≤ q → q < p + k → s.Owned q) (hm : Cleared s.mem p k m) :
    PmmInv tag (s.disown m p k) := by
  refine ⟨fun q => by rw [← hi.valid, ← hm.valid]; rfl, fun q hq => hi.limit q (by rw [← hm.valid]; exact hq),
    ?_, ?_, ?_, ?_⟩
  · intro q hq
    show pageBit m q = true
    have hn : ¬ (p ≤ q ∧ q < p + k) := by
      rintro ⟨h1, h2⟩
      have := (hi.usable q (hp q h1 h2)).2
      omega
    rw [hm.bit, hi.low q hq, decide_eq_false hn]; rfl
  · intro q hu hq
    show pageBit m q = true ↔ _
    rw [hm.bit, owned_disown, Bool.and_eq_true, Bool.not_eq_true', decide_eq_false_iff_not,
      hi.used q hu hq]
  · exact fun q hq => hi.usable q (owned_disown.1 hq).2
  · intro c c' q h1 h2
    exact hi.once c c' q (List.mem_of_mem_filter h1) (List.mem_of_mem_filter h2)

theorem PmmInv.allocation (hi : PmmInv tag s) {r : ℕ × MemoryMap} (k : ℕ)
    (hr : (∃ p, r.1 = p ∧ FreeRun s.mem p k ∧ Marked s.mem p k r.2) ∨ r = (0, s.mem)) :
    PmmInv tag (s.own r.2 r.1 (if r.1 = 0 then 0 else k)) := by
  rcases hr with ⟨p, rfl, hf, hm⟩ | rfl
  · by_cases h0 : r.1 = 0
    · -- a run at page 0 can only be empty: the bit of page 0 is set
      rw [if_pos h0, h0]
      rw [h0] at hf hm
      have hk : k = 0 := by
        by_contra hk
        have hb := (isppUsed_eq_zero_iff.1 (hf 0 le_rfl (by omega))).2
        rw [hi.low 0 (by decide)] at hb; cases hb
      subst hk
      exact hi.own hf hm
    · rw [if_neg h0]
      exact hi.own hf hm
  · exact hi.own_nothing 0

/-- **The invariant holds in every state reached.** -/
theorem PmmReach.inv (ht : tag.Ok) (hs : PmmReach tag s) : PmmInv tag s := by
  induction hs with
  | init h =>
    obtain ⟨m', h1, h2, h3, h4⟩ := initPmm_spec ht
    rw [h1, Option.some.injEq, Prod.mk.injEq] at h
    obtain ⟨-, rfl⟩ := h
    refine ⟨h2, h3, fun p hp => by rw [h4]; simpa using hp, ?_, ?_, ?_⟩
    · intro p _ hp
      rw [h4, decide_eq_true_eq]
      constructor
      · intro h; omega
      · rintro ⟨c, hc⟩; cases hc
    · rintro p ⟨c, hc⟩; cases hc
    · intro c c' p hc; cases hc
  | allocpp _ ih => exact ih.allocation 1 allocpp_spec
  | allocpps _ k _ ih => exact ih.allocation k (allocpps_spec ih.limit k)
  | @freepp s _ p hp ih =>
    refine ih.disown (fun q h1 h2 => ?_) (freepp_spec ((ih.valid p).2 (ih.usable p hp).1))
    obtain rfl : q = p := by omega
    exact hp
  | @freepps s _ p k hp ih =>
    have hv : ∀ q, p ≤ q → q < p + k → isppValid s.mem q = true :=
      fun q h1 h2 => (ih.valid q).2 (ih.usable q (hp q h1 h2)).1
    rcases Nat.eq_zero_or_pos k with rfl | hk
    · exact ih.disown hp ⟨fun _ => rfl, fun q => by rw [decide_eq_false (by omega)]; rfl⟩
    · -- the page numbers do not wrap: the last one is valid, so below the limit
      have hlim : pageLimit < 2 ^ 64 - 1 := by decide
      have := ih.limit (p + k - 1) (hv _ (by omega) (by omega))
      exact ih.disown hp (freeppsLoop_spec p k 0 s.mem hv (by omega)).2

/-- **Ownership of physical pages.** After `init_pmm` on a memory map with at most 32 usable
entries, page aligned and below 24 GiB, in every state that allocations and frees of owned
pages lead to: no page is owned through two calls; every owned page is in a usable entry
and numbered 1024 or above; a usable page numbered 1024 or above is marked used exactly
when it is owned; and the pages below 1024 stay marked used. -/
theorem pmm_ownership (ht : tag.Ok) (hs : PmmReach tag s) :
    (∀ c c' p, (c, p) ∈ s.owned → (c', p) ∈ s.owned → c = c') ∧
    (∀ p, s.Owned p → Usable tag p ∧ 1024 ≤ p) ∧
    (∀ p, Usable tag p → 1024 ≤ p → (isppUsed s.mem p = 1 ↔ s.Owned p)) ∧
    ∀ p < 1024, test s.mem.bitmap p = true := by
  have hi := hs.inv ht
  refine ⟨hi.once, hi.usable, fun p hu hp => ?_, hi.low⟩
  rw [← hi.used p hu hp]
  unfold isppUsed pageBit test
  rw [if_neg (by simp [(hi.valid p).2 hu]), shiftRight_and_one]
  cases (s.mem.bitmap (p / 64)).getLsbD (p % 64) <;> simp

/-- 64 MiB of usable memory from 1 MiB on. -/
def memmap64M : MemmapTag := ⟨STIVALE2_STRUCT_TAG_MEMMAP_ID, [⟨0x100000, 0x4000000, 1⟩]⟩

/-- Two allocations after `init_pmm`, the second of three pages. -/
theorem pmm_ownership_allocpps : ∃ s : PmmSys,
    s.owned = [(1, 1025), (1, 1026), (1, 1027), (0, 1024)] ∧
    (∀ p, Usable memmap64M p → 1024 ≤ p → (isppUsed s.mem p = 1 ↔ s.Owned p)) := by
  have ht : memmap64M.Ok := ⟨rfl, by decide, by decide, by decide⟩
  have h0 : (initPmm MemoryMap.zero (some memmap64M)).isSome = true := rfl
  obtain ⟨⟨r, m⟩, hm⟩ := Option.isSome_iff_exists.1 h0
  have hr : r = 0 := by
    have : (initPmm MemoryMap.zero (some memmap64M)).map (·.1) = some 0 := rfl
    rw [hm] at this
    exact Option.some.inj this
  subst hr
  have ho : (initPmm MemoryMap.zero (some memmap64M)).map
      (fun r => ((allocpp r.2).1, (allocpps (allocpp r.2).2 3).1)) = some (1024, 1025) := by
    decide +kernel
  rw [hm] at ho
  simp only [Option.map_some, Option.some.injEq, Prod.mk.injEq] at ho
  have hs := ((PmmReach.init hm).allocpp).allocpps 3 (by decide)
  refine ⟨_, ?_, (pmm_ownership ht hs).2.2.1⟩
  simp [PmmSys.own, ho.1, ho.2, List.range_succ]

end Nettapus
