import Nettapus.Proof.Pmm
import Mathlib.Order.Bounds.Defs

/-!
# First fit, and what `init_pmm` leaves

* `allocpps_first_fit`: `allocpps` takes the first run of free pages that is long enough, and `allocpps(1)` is
  `allocpp`.
* `init_pmm_iff`: for which memory maps the tables of the allocator are large enough.
-/

namespace Nettapus

open Bitmap

variable {m : MemoryMap}

/-! ## First fit -/

/-- The two loops do the same for one page. -/
theorem allocppsLoop_one : ∀ fuel i, i + fuel = pageLimit → allocppsLoop m 1 fuel i = allocppLoop m fuel i := by
  have hlim : pageLimit < 2 ^ 64 := by decide
  intro fuel
  induction fuel with
  | zero => exact fun _ _ => rfl
  | succ fuel ih =>
    intro i hi
    have hu : u64 (i + 0) = i := u64_of_lt (by omega)
    have hrun : allocppsRun m i 1 0 0 = if isppUsed m i = 0 then 1 else 0 := by
      simp only [allocppsRun, hu, ne_eq, ite_not, Nat.zero_add]
    simp only [allocppsLoop, allocppLoop, hrun]
    rw [if_pos (by omega)]
    by_cases h0 : isppUsed m i = 0
    · have hmark : markUsed i 1 0 m = (setppUsed m i 1).2 := by simp only [markUsed, hu]
      rw [if_pos h0, if_pos h0, if_neg (by decide), hmark]
    · rw [if_neg h0, if_neg h0, if_pos (by decide)]
      exact ih (i + 1) (by omega)

/-- A run of valid pages ends before the limit. -/
theorem FreeRun.end_le (hl : BelowLimit m) {p amount : ℕ} (h : FreeRun m p amount) (ha : 1 ≤ amount) :
    p + amount ≤ pageLimit := by
  have hv := (isppUsed_eq_zero_iff.1 (h (p + amount - 1) (by omega) (by omega))).1
  have := hl _ hv
  omega

/-- **`allocpps` is a first fit**: it takes the first run of free pages that is long enough, sets the bits of the
run and no others, and fails only if there is no run. With one page it is `allocpp`. -/
theorem allocpps_first_fit (m : MemoryMap) :
    (BelowLimit m → pageBit m 0 = true → ∀ amount, 1 ≤ amount →
      (∃ p, IsLeast { p | FreeRun m p amount } p ∧ p ≠ 0 ∧ (allocpps m amount).1 = p ∧
        Marked m p amount (allocpps m amount).2) ∨
      ((∀ p, ¬ FreeRun m p amount) ∧ allocpps m amount = (0, m))) ∧
    allocpps m 1 = allocpp m := by
  refine ⟨fun hl h0 amount ha => ?_, allocppsLoop_one pageLimit 0 (Nat.zero_add _)⟩
  by_cases hex : ∃ p, FreeRun m p amount
  · left
    obtain ⟨b, hb⟩ := hex
    have hend := hb.end_le hl ha
    obtain ⟨p, -, h1, h2, h3⟩ := allocpps_first hl hb (by omega) hend
    refine ⟨p, ⟨h2, fun q hq => ?_⟩, ?_, h1, h3⟩
    · -- the result is before every run, since it is the same for all of them
      have hqend := FreeRun.end_le hl hq ha
      obtain ⟨p', hp', h1', -⟩ := allocpps_first hl hq (by omega) hqend
      rw [h1] at h1'
      omega
    · rintro rfl
      have := (isppUsed_eq_zero_iff.1 (h2 0 le_rfl (by omega))).2
      rw [h0] at this
      cases this
  · right
    push Not at hex
    refine ⟨hex, ?_⟩
    rcases allocpps_spec hl amount with ⟨p, -, h2, -⟩ | h
    · exact absurd h2 (hex p)
    · exact h

/-- Six pages, of which the first and the third are used. -/
def sixPages : MemoryMap := ⟨fun _ => ⟨0, 6⟩, 1, fun _ => 5#64⟩

/-- Two pages fit behind the third. -/
theorem allocpps_first_fit_six : (allocpps sixPages 2).1 = 3 ∧ Marked sixPages 3 2 (allocpps sixPages 2).2 ∧
    allocpps sixPages 1 = allocpp sixPages := by
  have hl : BelowLimit sixPages := by
    intro p hp
    obtain ⟨i, hi, -, h2⟩ := isppValid_iff.1 hp
    have : u64 (0 + 6) < pageLimit := by decide
    exact lt_trans h2 this
  have hp : (allocpps sixPages 2).1 = 3 := by decide
  rcases (allocpps_first_fit sixPages).1 hl (by decide) 2 (by decide) with ⟨p, -, -, h1, h2⟩ | ⟨-, h1⟩
  · rw [hp] at h1
    subst h1
    exact ⟨hp, h2, (allocpps_first_fit sixPages).2⟩
  · rw [h1] at hp
    cases hp

/-! ## `init_pmm` -/

/-- The usable entries of a memory map. -/
def MemmapTag.usable (tag : MemmapTag) : List MmapEntry := tag.memmap.filter fun e => e.type = STIVALE2_MMAP_USABLE

/-- A memory map as the protocol has it: 64-bit fields, and usable entries that are page aligned. -/
structure MemmapTag.Protocol (tag : MemmapTag) : Prop where
  ident : tag.identifier = STIVALE2_STRUCT_TAG_MEMMAP_ID
  words : ∀ e ∈ tag.memmap, e.base < 2 ^ 64 ∧ e.length < 2 ^ 64
  aligned : ∀ e ∈ tag.memmap, e.type = STIVALE2_MMAP_USABLE → e.base % 0x1000 = 0 ∧ e.length % 0x1000 = 0

/-- What the allocator relies on: the table of blocks holds all blocks, they are the usable entries, and every
valid page has a bit. -/
structure PmmReady (tag : MemmapTag) (m : MemoryMap) : Prop where
  blocks : m.numBlocks ≤ maxBlocks
  valid : ∀ p, isppValid m p = true ↔ Usable tag p
  bits : ∀ p, isppValid m p = true → p < pageLimit

theorem initPmmLoop_count : ∀ (es : List MmapEntry) (m m' : MemoryMap), m.numBlocks ≤ maxBlocks →
    initPmmLoop es m = some m' →
    m'.numBlocks = m.numBlocks + (es.filter fun e => e.type = STIVALE2_MMAP_USABLE).length ∧ m'.numBlocks ≤ maxBlocks := by
  intro es
  induction es with
  | nil =>
    intro m m' hm h
    obtain rfl := Option.some.inj h
    exact ⟨rfl, hm⟩
  | cons e es ih =>
    intro m m' hm h
    unfold initPmmLoop at h
    by_cases he : e.type = STIVALE2_MMAP_USABLE
    · rw [if_neg (not_not.2 he)] at h
      split_ifs at h with hroom
      obtain ⟨h1, h2⟩ := ih _ m' (show m.numBlocks + 1 ≤ maxBlocks from hroom) h
      rw [List.filter_cons_of_pos (by simpa using he), List.length_cons]
      refine ⟨?_, h2⟩
      rw [h1]
      show m.numBlocks + 1 + _ = _
      omega
    · rw [if_pos he] at h
      rw [List.filter_cons_of_neg (by simpa using he)]
      exact ih m m' hm h

/-- The blocks are the usable entries. -/
theorem MemmapTag.Protocol.inEntry_iff {tag : MemmapTag} (ht : tag.Protocol) (p : ℕ) :
    (∃ e ∈ tag.memmap, InEntry e p) ↔ Usable tag p := by
  refine exists_congr fun e => and_congr_right fun he => ?_
  unfold InEntry
  refine and_congr_right fun hu => ?_
  have ha := ht.aligned e he hu
  have hw := ht.words e he
  unfold addrToPage
  rw [u64_of_lt (by omega)]
  constructor
  · intro h
    omega
  · intro h
    omega

/-- **When the tables of the allocator are large enough**: at most 32 usable entries, all of them below
24 GiB. -/
theorem init_pmm_iff {tag : MemmapTag} (ht : tag.Protocol) (m : MemoryMap) :
    (∃ m', initPmm m (some tag) = some (0, m') ∧ PmmReady tag m') ↔
      tag.usable.length ≤ 32 ∧ ∀ e ∈ tag.usable, 0 < e.length → e.base + e.length ≤ 98304 * 64 * 0x1000 := by
  have hz : ∀ p, isppValid { m with numBlocks := 0 } p = false := fun p => by simp [isppValid]
  have hinit : ∀ m', initPmm m (some tag) = some (0, m') ↔ ∃ m₁, initPmmLoop tag.memmap { m with numBlocks := 0 } = some m₁ ∧
      { m₁ with bitmap := markLow 16 m₁.bitmap } = m' := by
    intro m'
    simp only [initPmm]
    rw [if_neg (not_not.2 ht.ident), Option.map_eq_some_iff]
    simp only [Prod.mk.injEq, true_and]
  constructor
  · rintro ⟨m', h1, hready⟩
    obtain ⟨m₁, h2, rfl⟩ := (hinit m').1 h1
    obtain ⟨h3, h4⟩ := initPmmLoop_count tag.memmap _ m₁ (Nat.zero_le _) h2
    refine ⟨?_, fun e he h0 => ?_⟩
    · rw [h3, Nat.zero_add] at h4
      exact h4
    · -- the last page of the entry is valid
      obtain ⟨he, hu⟩ := List.mem_filter.1 he
      have hu : e.type = STIVALE2_MMAP_USABLE := by simpa using hu
      have ha := ht.aligned e he hu
      have hp : Usable tag ((e.base + e.length) / 0x1000 - 1) := ⟨e, he, hu, by omega, by omega⟩
      have hlt := hready.bits _ ((hready.valid _).2 hp)
      have hlim : pageLimit = 98304 * 64 := rfl
      omega
  · rintro ⟨hcount, hbelow⟩
    obtain ⟨m₁, h1, -, h3⟩ := initPmmLoop_spec tag.memmap { m with numBlocks := 0 }
      (by rw [Nat.zero_add]; exact hcount)
    have hvalid : ∀ p, isppValid m₁ p = true ↔ Usable tag p := by
      intro p
      rw [h3, hz, ← ht.inEntry_iff]
      simp
    refine ⟨_, (hinit _).2 ⟨m₁, h1, rfl⟩, (initPmmLoop_count tag.memmap _ m₁ (Nat.zero_le _) h1).2, hvalid, fun p hp => ?_⟩
    obtain ⟨e, he, hu, h4, h5⟩ := (hvalid p).1 hp
    have hb := hbelow e (List.mem_filter.2 ⟨he, by simpa using hu⟩) (by omega)
    have hlim : pageLimit = 98304 * 64 := rfl
    omega

theorem init_pmm_iff_64M : ∃ m', initPmm MemoryMap.zero (some memmap64M) = some (0, m') ∧ PmmReady memmap64M m' :=
  (init_pmm_iff ⟨rfl, by decide, by decide⟩ MemoryMap.zero).2 ⟨by decide, by decide⟩

/-- One usable page, at 24 GiB. -/
def memmapHigh : MemmapTag := ⟨STIVALE2_STRUCT_TAG_MEMMAP_ID, [⟨0x600000000, 0x1000, 1⟩]⟩

/-- 33 usable pages, one entry each. -/
def memmapMany : MemmapTag :=
  ⟨STIVALE2_STRUCT_TAG_MEMMAP_ID, (List.range 33).map fun i => ⟨0x1000000 + i * 0x2000, 0x1000, 1⟩⟩

/-- A valid page has no bit, or the blocks do not fit in their table. -/
theorem init_pmm_overflows :
    (¬ ∃ m', initPmm MemoryMap.zero (some memmapHigh) = some (0, m') ∧ PmmReady memmapHigh m') ∧
      ¬ ∃ m', initPmm MemoryMap.zero (some memmapMany) = some (0, m') ∧ PmmReady memmapMany m' := by
  constructor
  · rintro ⟨m', h, hready⟩
    have hv : Usable memmapHigh (98304 * 64) := ⟨_, List.mem_cons_self, rfl, by decide, by decide⟩
    have hlt := hready.bits _ ((hready.valid _).2 hv)
    exact absurd hlt (by decide)
  · rintro ⟨m', h, -⟩
    have hnone : (initPmm MemoryMap.zero (some memmapMany)).isNone = true := by decide
    rw [h] at hnone
    cases hnone

end Nettapus
