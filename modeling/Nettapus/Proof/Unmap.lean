import Nettapus.Proof.MapMemory

/-!
# `unmap_memory` and missing tables

When a page of the range has no page table, `unmap_memory` goes to its next round without
moving on (`unmapLoop_stops`), so the pages behind it stay as they are.

* `Unmaps`: all pages of the range are unmapped, and no others;
* `NoneBehind`: no page is mapped behind one that has no table;
* `unmap_memory_iff`: the one holds exactly when the other does.
-/

namespace Nettapus

open Forest

variable {v v' : Vmm} {r : ℕ}

/-- The page structures, with a page heap that has no slots. -/
def Vmm.noSlots (v : Vmm) : Vmm :=
  { v with pageHeapBegin := 1, pageHeapPhys := 0, pageHeapBitmapLength := 0 }

/-- `unmap_memory` does not look at the page heap. -/
theorem unmapLoop_noSlots : ∀ n (v : Vmm) (va : ℕ),
    Vmm.unmapLoop r n v.noSlots va = (Vmm.unmapLoop r n v va).map Vmm.noSlots := by
  intro n
  induction n with
  | zero => intro v va; rfl
  | succ n ih =>
    intro v va
    have hl : v.noSlots.lookupTable r va = v.lookupTable r va := rfl
    have hs : ∀ t i, v.noSlots.setEntry t i 0 = (v.setEntry t i 0).noSlots := fun _ _ => rfl
    unfold Vmm.unmapLoop
    dsimp only
    rw [hl, hs]
    split_ifs
    · rfl
    · exact ih v va
    · exact ih _ _

/-- Without slots nothing has to be asked of the page heap. -/
theorem PageTree.tables_noSlots (h : PageTree v r) : Tables (· = r) (fun _ => False) v.noSlots := by
  have ht : PageTree v.noSlots r := ⟨h.root, h.tree, h.carries⟩
  refine ht.tables ⟨fun j hj => ?_, Nat.one_pos, rfl, rfl⟩
  have := (mem_freeSlots.1 hj).1
  have h0 : v.noSlots.pageHeapBitmapLength = 0 := rfl
  omega

/-- The address of the page `k` of the range. -/
def pageOf (va k : ℕ) : ℕ := (va &&& 0x0000FFFFFFFFF000) + k * 0x1000

/-- **The whole range is unmapped**, and nothing else. -/
structure Unmaps (pml4t va amount : ℕ) (v v' : Vmm) : Prop where
  inside : ∀ k < amount, v'.getPageEntry pml4t (pageOf va k) = 0
  outside : ∀ x, (∀ k < amount, x % 2 ^ 48 / 0x1000 ≠ pageOf va k / 0x1000) →
    v'.getPageEntry pml4t x = v.getPageEntry pml4t x

/-- No page of the range is mapped behind one whose table is missing. -/
def NoneBehind (v : Vmm) (pml4t va amount : ℕ) : Prop := ∀ j k, j < k → k < amount →
  v.lookupTable pml4t (pageOf va j) = NULL → v.getPageEntry pml4t (pageOf va k) = 0

theorem pageOf_eq (va k : ℕ) : pageOf va k = (va % 2 ^ 48 / 0x1000 + k) * 0x1000 := by
  unfold pageOf
  rw [and_page]
  omega

theorem getPageEntry_pageOf {va amount k : ℕ} (hr : r ≠ NULL) (hva : va % 2 ^ 48 / 0x1000 + amount ≤ 2 ^ 36)
    (hk : k < amount) : v.getPageEntry r (pageOf va k) = flat v r (va % 2 ^ 48 / 0x1000 + k) := by
  rw [getPageEntry_eq hr, pageOf_eq]
  congr 1
  omega

theorem lookupTable_pageOf {va amount k : ℕ} (hr : r ≠ NULL) (hva : va % 2 ^ 48 / 0x1000 + amount ≤ 2 ^ 36)
    (hk : k < amount) : v.lookupTable r (pageOf va k) = NULL ↔ walk v.kids r (path (va % 2 ^ 48 / 0x1000 + k)) = none := by
  rw [pageOf_eq, lookupTable_eq (by omega)]
  cases hw : walk v.kids r (path (va % 2 ^ 48 / 0x1000 + k)) with
  | none => simp
  | some pt => simpa using walk_ne_null hr hw

/-- **When `unmap_memory` unmaps the whole range.** It returns for every range that lies in the
address space, and when it reports success, the range is unmapped exactly when no page of it
was mapped behind one whose table is missing. -/
theorem unmap_memory_iff {pml4t : ℕ} (ht : PageTree v pml4t) (va amount : ℕ)
    (hva : va % 2 ^ 48 + amount * 0x1000 ≤ 2 ^ 48) :
    ∃ st v', v.unmapMemory va amount pml4t = some (st, v') ∧
      (st = GENERIC_SUCCESS → (Unmaps pml4t va amount v v' ↔ NoneBehind v pml4t va amount)) := by
  have hr := ht.root
  have hvp : va % 2 ^ 48 / 0x1000 + amount ≤ 2 ^ 36 := by omega
  unfold Vmm.unmapMemory
  rw [if_neg hr, and_page]
  dsimp only
  split_ifs with h0
  · exact ⟨_, _, rfl, fun h => absurd h (by decide)⟩
  -- the loop runs over the pages up to the first one without a table
  obtain ⟨w, m, h1, hE, hm, hpass, hstop⟩ := unmapLoop_stops amount v.noSlots _ ht.tables_noSlots rfl hvp
  rw [unmapLoop_noSlots] at h1
  obtain ⟨v', h2, rfl⟩ := Option.map_eq_some_iff.1 h1
  refine ⟨_, v', by rw [h2]; rfl, fun _ => ?_⟩
  have hin : ∀ k < m, flat v' pml4t (va % 2 ^ 48 / 0x1000 + k) = 0 := hE.inside
  have hout : ∀ vp, (vp < va % 2 ^ 48 / 0x1000 ∨ va % 2 ^ 48 / 0x1000 + m ≤ vp) →
      flat v' pml4t vp = flat v pml4t vp := fun vp h => hE.outside pml4t vp rfl (Or.inl h)
  have hbehind : NoneBehind v pml4t va amount ↔
      ∀ k, m ≤ k → k < amount → flat v pml4t (va % 2 ^ 48 / 0x1000 + k) = 0 := by
    constructor
    · intro h k hmk hk
      rcases Nat.eq_or_lt_of_le hmk with rfl | hlt
      · exact flat_of_none (hstop hk)
      · rw [← getPageEntry_pageOf hr hvp hk]
        exact h m k hlt hk ((lookupTable_pageOf hr hvp (by omega)).2 (hstop (by omega)))
    · intro h j k hjk hk hj
      rw [lookupTable_pageOf hr hvp (by omega)] at hj
      rw [getPageEntry_pageOf hr hvp hk]
      refine h k ?_ hk
      by_contra hkm
      exact hpass j (by omega) hj
  rw [hbehind]
  constructor
  · intro h k hmk hk
    rw [← hout _ (Or.inr (by omega)), ← getPageEntry_pageOf hr hvp hk]
    exact h.inside k hk
  · intro h
    refine ⟨fun k hk => ?_, fun x hx => ?_⟩
    · rw [getPageEntry_pageOf hr hvp hk]
      rcases Nat.lt_or_ge k m with hkm | hkm
      · exact hin k hkm
      · rw [hout _ (Or.inr (by omega))]
        exact h k hkm hk
    · rw [getPageEntry_eq hr, getPageEntry_eq hr]
      refine hout _ ?_
      by_contra hc
      have hk := hx (x % 2 ^ 48 / 0x1000 - va % 2 ^ 48 / 0x1000) (by omega)
      rw [pageOf_eq] at hk
      omega

/-- An address space with one page before a hole of a whole table and one behind it. -/
def holedSpace : Option Vmm :=
  (emptySpace.mapMemory 0x200000 0x1FF000 1 0x1000 1).bind fun r =>
    (r.2.mapMemory 0x300000 0x400000 1 0x1000 1).map (·.2)

theorem pageTree_holedSpace {v : Vmm} (h : holedSpace = some v) : PageTree v 0x1000 := by
  obtain ⟨⟨st, v₁⟩, h1, h2⟩ := Option.bind_eq_some_iff.1 h
  obtain ⟨⟨st', v₂⟩, h3, rfl⟩ := Option.map_eq_some_iff.1 h2
  have hT₁ := (mapMemory_spec (pageTree_emptySpace.tables (s := fun _ => False) freshHeap_emptySpace) rfl h1).2.tables
  exact (mapMemory_spec hT₁ rfl h3).2.tables.pageTree

/-- The page behind the hole stays mapped. -/
theorem unmap_memory_hole : ∃ v v', PageTree v 0x1000 ∧
    v.unmapMemory 0x1FF000 514 0x1000 = some (GENERIC_SUCCESS, v') ∧
    v'.getPageEntry 0x1000 0x400000 = 0x300007 ∧ ¬ Unmaps 0x1000 0x1FF000 514 v v' := by
  have hv : (holedSpace.bind fun v => (v.unmapMemory 0x1FF000 514 0x1000).map fun r =>
      (r.1, r.2.getPageEntry 0x1000 0x400000)) = some (GENERIC_SUCCESS, 0x300007) := by decide +kernel
  obtain ⟨v, h1, h2⟩ := Option.bind_eq_some_iff.1 hv
  obtain ⟨⟨st, v'⟩, h3, h4⟩ := Option.map_eq_some_iff.1 h2
  obtain ⟨rfl, h5⟩ := Prod.mk.inj h4
  refine ⟨v, v', pageTree_holedSpace h1, h3, h5, fun h => ?_⟩
  have h6 : v'.getPageEntry 0x1000 0x400000 = 0 := h.inside 513 (by decide)
  rw [h6] at h5
  cases h5

/-- The page before the hole alone, as a case of `unmap_memory_iff`. -/
theorem unmap_memory_iff_one : ∃ v v', v.unmapMemory 0x1FF000 1 0x1000 = some (GENERIC_SUCCESS, v') ∧
    Unmaps 0x1000 0x1FF000 1 v v' := by
  have hv : (holedSpace.bind fun v => (v.unmapMemory 0x1FF000 1 0x1000).map (·.1)) = some GENERIC_SUCCESS := by
    decide +kernel
  obtain ⟨v, h1, h2⟩ := Option.bind_eq_some_iff.1 hv
  obtain ⟨⟨st, v'⟩, h3, h4⟩ := Option.map_eq_some_iff.1 h2
  obtain ⟨st', w, h5, h6⟩ := unmap_memory_iff (pageTree_holedSpace h1) 0x1FF000 1 (by decide)
  obtain ⟨rfl, rfl⟩ := Prod.mk.inj (Option.some.inj (h3.symm.trans h5))
  obtain rfl : st = GENERIC_SUCCESS := h4
  exact ⟨v, v', h3, (h6 rfl).2 fun j k hjk hk => by omega⟩

end Nettapus
