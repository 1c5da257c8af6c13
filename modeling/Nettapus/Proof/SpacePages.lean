import Nettapus.Proof.SpaceRun
import Nettapus.Proof.Pmm

/-!
# Pages and frames of an address space

* `OnePage`, `mapOne_yields`: what `map_memory` of one page does.
* `freePages`, `allocpp_takes`: the frames that `allocpp` hands out.
* `Begun`, `newPml4t_yields`: a new address space has no pages of its own.
* `SpaceCreated`, `createAddressSpace_yields`: `create_address_space` maps the two stacks, and nothing else.
-/

namespace Nettapus

open Forest Runs

variable {z z' z₀ : Spaces} {r r' : ℕ}

/-- The pages below the last entry of a PML4T. -/
def userHalf : ℕ := 511 * 512 ^ 3

/-- The frame of an entry. -/
def frame (e : ℕ) : ℕ := e % 2 ^ 64 / 0x1000

/-- The page of the window. -/
def windowVp : ℕ := WINDOW % 2 ^ 48 / 0x1000

/-! ## One page -/

/-- `z'` is `z` with the page `vp` of `r` mapped to the frame `pp`. -/
structure OnePage (z z' : Spaces) (r vp pp u : ℕ) : Prop where
  keeps : Keeps z z'
  mem_eq : z'.mem = z.mem
  page_eq : z'.page = z.page
  cr3_eq : z'.cr3 = z.cr3
  entry : flat z'.vmm r vp = pp * 0x1000 + if u ≠ 0 then 7 else 3
  other : ∀ r' vp', z.Root r' → (vp' ≠ vp ∨ (r' ≠ r ∧ vp' / 512 ^ 3 ≠ 511)) → flat z'.vmm r' vp' = flat z.vmm r' vp'
  slots : z.vmm.freeSlots.card ≤ z'.vmm.freeSlots.card + 6

theorem pageEntry_frame (pa u : ℕ) : Vmm.pageEntry (u64 ((pa &&& 0xFFFFFFFFFFFFF000) + 0 * 0x1000)) u =
    frame pa * 0x1000 + if u ≠ 0 then 7 else 3 := by
  have ha : u64 ((pa &&& 0xFFFFFFFFFFFFF000) + 0 * 0x1000) = frame pa * 0x1000 := by
    rw [and_frame]
    unfold u64 frame
    omega
  rw [ha]
  exact pageEntry_aligned (by omega) u

/-- **One page is mapped**, if there are structures for it. -/
theorem mapOne_yields (pa va u : ℕ) (h : SpaceInv z) (hr : z.Root r) (hva : va % 0x1000 = 0) :
    Yields (6 ≤ z.vmm.freeSlots.card) (z.mapMemory pa va 1 r u)
      fun z' => OnePage z z' r (va % 2 ^ 48 / 0x1000) (frame pa) u := by
  constructor
  · intro z' hm
    have hk := (mapMemory_keeps h hr hm).1
    obtain ⟨⟨st, v⟩, h1, rfl⟩ := Option.map_eq_some_iff.1 hm
    obtain ⟨-, hM⟩ := mapMemory_spec h.tables hr h1
    refine ⟨hk, rfl, rfl, rfl, ?_, fun r' vp' hr' hne => ?_, mapMemory_slots h.tables hr h1⟩
    · exact (hM.inside 0 (by decide)).trans (pageEntry_frame pa u)
    · exact hM.outside r' vp' hr' (hne.imp (fun hne => by omega) id)
  · intro hc
    obtain ⟨v, hv⟩ : ∃ v', z.vmm.mapMemory pa va 1 r u = some (GENERIC_SUCCESS, v') :=
      mapMemory_total h.tables hr (by omega) (by omega)
    exact ⟨_, Option.map_eq_some_iff.2 ⟨_, hv, rfl⟩⟩

/-- The pages of the kernel are the same in all address spaces. -/
theorem SpaceInv.flat_kernel (h : SpaceInv z) (hr : z.Root r) (hr' : z.Root r') {vp : ℕ} (hvp : vp / 512 ^ 3 = 511) :
    flat z.vmm r vp = flat z.vmm r' vp := by
  unfold flat
  rw [walk_path, walk_path, hvp, (h.kernel r hr).1, (h.kernel r' hr').1]

/-- What the window shows after a page was mapped there. -/
theorem OnePage.window {pp u : ℕ} (h : OnePage z z' r windowVp pp u) (hr : z.Root r) (hcr : z.Root z.cr3) :
    z'.windowPage = pp := by
  have hr' : z'.Root r := h.keeps.root ▸ hr
  have hcr' : z'.Root z'.cr3 := by rw [h.cr3_eq]; exact h.keeps.root ▸ hcr
  have he := h.entry
  unfold Spaces.windowPage
  rw [getPageEntry_eq (h.keeps.inv.tables.root _ hcr')]
  show flat z'.vmm z'.cr3 windowVp / 0x1000 = pp
  rw [h.keeps.inv.flat_kernel hcr' hr' (by decide), he]
  split_ifs
  · omega
  · omega

/-! ## Frames -/

/-- The free pages that `allocpp` can find. -/
def freePages (m : MemoryMap) : Finset ℕ := (Finset.range pageLimit).filter fun q => isppUsed m q = 0

/-- `allocpp` takes a free page, if there is one. -/
theorem allocpp_takes (m : MemoryMap) (h : 0 < (freePages m).card) : isppUsed m (allocpp m).1 = 0 ∧
    (allocpp m).1 < pageLimit ∧
    ∀ q, isppUsed (allocpp m).2 q = 0 ↔ isppUsed m q = 0 ∧ q ≠ (allocpp m).1 := by
  obtain ⟨q₀, hq₀⟩ := Finset.card_pos.1 h
  obtain ⟨hlt, hfree⟩ := Finset.mem_filter.1 hq₀
  unfold allocpp
  rcases allocppLoop_spec (m := m) pageLimit 0 with ⟨p, h1, h2, -, h4, -⟩ | ⟨-, h2⟩
  · rw [h1]
    have hv := (isppUsed_eq_zero_iff.1 h2).1
    refine ⟨h2, by omega, fun q => ?_⟩
    rw [isppUsed_eq_zero_iff, isppUsed_eq_zero_iff, isppValid_setppUsed, pageBit_mark hv]
    by_cases hq : q = p
    · simp [hq]
    · simp [hq]
  · have := Finset.mem_range.1 hlt
    exact absurd hfree (h2 q₀ (by omega) (by omega))

/-- `allocpp` sets the bit of this page, and that is all. -/
theorem allocpp_bits (m : MemoryMap) (h : 0 < (freePages m).card) :
    (∀ q, isppValid (allocpp m).2 q = isppValid m q) ∧
      ∀ q, pageBit (allocpp m).2 q = true ↔ q = (allocpp m).1 ∨ pageBit m q = true := by
  obtain ⟨q₀, hq₀⟩ := Finset.card_pos.1 h
  obtain ⟨hlt, hfree⟩ := Finset.mem_filter.1 hq₀
  unfold allocpp
  rcases allocppLoop_spec (m := m) pageLimit 0 with ⟨p, h1, h2, -, -, -⟩ | ⟨-, h2⟩
  · rw [h1]
    have hv := (isppUsed_eq_zero_iff.1 h2).1
    refine ⟨isppValid_setppUsed p 1, fun q => ?_⟩
    rw [pageBit_mark hv, Bool.or_eq_true, decide_eq_true_eq]
  · have := Finset.mem_range.1 hlt
    exact absurd hfree (h2 q₀ (by omega) (by omega))

theorem freePages_allocpp (m : MemoryMap) (h : 0 < (freePages m).card) :
    (freePages (allocpp m).2).card + 1 = (freePages m).card := by
  obtain ⟨h1, h2, h3⟩ := allocpp_takes m h
  have he : freePages (allocpp m).2 = (freePages m).erase (allocpp m).1 := by
    ext q
    unfold freePages
    rw [Finset.mem_erase, Finset.mem_filter, Finset.mem_filter, h3]
    exact ⟨fun ⟨hq, h0, hne⟩ => ⟨hne, hq, h0⟩, fun ⟨hne, hq, h0⟩ => ⟨hq, h0, hne⟩⟩
  rw [he]
  exact Finset.card_erase_add_one (Finset.mem_filter.2 ⟨Finset.mem_range.2 h2, h1⟩)

/-! ## A new address space -/

/-- `z'` is `z` with a new address space `r`, which has the pages of the kernel only. -/
structure Begun (z : Spaces) (r : ℕ) (z' : Spaces) : Prop where
  space : NewSpace z z' r
  mem_eq : z'.mem = z.mem
  page_eq : z'.page = z.page
  cr3_eq : z'.cr3 = z.cr3
  others : ∀ r' vp, z.Root r' → flat z'.vmm r' vp = flat z.vmm r' vp
  zero : ∀ vp < userHalf, flat z'.vmm r vp = 0
  entry : (z'.vmm.tab r).entries 511 = (z.vmm.tab z.kFirstPdpt).physicalAddress ||| 2 ||| 1
  slots : z'.vmm.freeSlots.card + 1 = z.vmm.freeSlots.card

/-- A new PML4T has no pages below its last entry. -/
theorem NewRoot.flat_new {v v' : Vmm} {k j vp : ℕ} (h : NewRoot v v' k r j) (hvp : vp < userHalf) : flat v' r vp = 0 := by
  have hi : vp / 512 ^ 3 ≠ 511 := by unfold userHalf at hvp; omega
  refine flat_of_none ?_
  rw [walk_path, kids_of_eq (by rw [h.child, Function.update_of_ne hi]; rfl)]
  rfl

/-- **A new address space**, if there is a structure for it. -/
theorem newPml4t_yields (h : SpaceInv z) :
    Yields (0 < z.vmm.freeSlots.card) z.newPml4t fun p => Begun z p.1 p.2 := by
  have hK : z.Root z.kpml4 := Or.inl rfl
  obtain ⟨hk, -⟩ := h.kernel _ hK
  constructor
  · rintro ⟨r, z'⟩ hm
    have hS := newPml4t_spec h hm
    obtain ⟨v, j, rfl, hN⟩ := h.newRoot hm
    exact ⟨hS, rfl, rfl, rfl, fun r' vp hr' => hN.flat_eq h.tables hk hr' vp, fun vp hvp => hN.flat_new hvp, hN.entry,
      hN.card⟩
  · intro hc
    obtain ⟨j, ha, hne⟩ := h.tables.alloc hc
    unfold Spaces.newPml4t
    rw [ha]
    dsimp only
    rw [if_neg hne]
    exact ⟨_, rfl⟩

/-- The page of the user's stack. -/
def userStackPage : ℕ := USER_STACK % 2 ^ 48 / 0x1000

/-- `z'` is `z` after `create_address_space` made `r`. -/
structure SpaceCreated (z : Spaces) (r : ℕ) (z' : Spaces) : Prop where
  space : NewSpace z z' r
  mem_eq : z'.mem = (Nettapus.allocpp (Nettapus.allocpp z.mem).2).2
  cr3_eq : z'.cr3 = z.cr3
  others : ∀ r' vp, z.Root r' → flat z'.vmm r' vp = flat z.vmm r' vp
  userStack : flat z'.vmm r userStackPage = frame (u64 ((Nettapus.allocpp z.mem).1 * 0x1000)) * 0x1000 + 7
  kernelStack : flat z'.vmm r stackPage =
    frame (u64 ((Nettapus.allocpp (Nettapus.allocpp z.mem).2).1 * 0x1000)) * 0x1000 + 3
  zero : ∀ vp < userHalf, vp ≠ userStackPage → vp ≠ stackPage → flat z'.vmm r vp = 0
  slots : z.vmm.freeSlots.card ≤ z'.vmm.freeSlots.card + 13

/-- **`create_address_space` maps the two stacks.** -/
theorem createAddressSpace_yields (h : SpaceInv z) :
    Yields (13 ≤ z.vmm.freeSlots.card) z.createAddressSpace fun p => SpaceCreated z p.1 p.2 := by
  unfold Spaces.createAddressSpace
  refine Yields.bind (Q := fun p => Begun z p.1 p.2)
    ⟨(newPml4t_yields h).1, fun hc => (newPml4t_yields h).2 (by omega)⟩ ?_
  rintro ⟨r, z₁⟩ b1
  have k1 := keeps_allocpp b1.space.inv
  have hr₁ : z₁.Root r := Or.inr b1.space.mem
  have c1 := b1.slots
  dsimp only
  refine Yields.bind (Q := fun z₂ => OnePage z₁.allocpp.2 z₂ r userStackPage (frame (u64 (z₁.allocpp.1 * 0x1000))) 1) ?_ ?_
  · have hy := mapOne_yields (u64 (z₁.allocpp.1 * 0x1000)) USER_STACK 1 k1.inv (k1.root ▸ hr₁) (by decide)
    exact ⟨hy.1, fun hc => hy.2 (show 6 ≤ z₁.vmm.freeSlots.card by dsimp only at c1; omega)⟩
  intro z₂ o2
  have k12 := k1.trans o2.keeps
  have k3 := keeps_allocpp k12.inv
  have k13 := k12.trans k3
  have c2 : z₁.vmm.freeSlots.card ≤ z₂.vmm.freeSlots.card + 6 := o2.slots
  refine Yields.map (Q := fun z₃ => OnePage z₂.allocpp.2 z₃ r stackPage (frame (u64 (z₂.allocpp.1 * 0x1000))) 0) ?_ ?_
  · have hy := mapOne_yields (u64 (z₂.allocpp.1 * 0x1000)) KERNEL_STACK 0 k3.inv (k13.root ▸ hr₁)
      (by decide)
    exact ⟨hy.1, fun hc => hy.2 (show 6 ≤ z₂.vmm.freeSlots.card by dsimp only at c1; omega)⟩
  intro z₃ o3
  have m1 : z₁.mem = z.mem := b1.mem_eq
  have m2 : z₂.mem = (Nettapus.allocpp z.mem).2 := by
    rw [o2.mem_eq, ← m1]
    rfl
  -- the pages that the two calls leave alone
  have hother : ∀ r' vp, z₁.Root r' → (vp ≠ userStackPage ∨ (r' ≠ r ∧ vp / 512 ^ 3 ≠ 511)) →
      (vp ≠ stackPage ∨ (r' ≠ r ∧ vp / 512 ^ 3 ≠ 511)) → flat z₃.vmm r' vp = flat z₁.vmm r' vp := by
    intro r' vp hr' h1 h2
    have e3 : flat z₃.vmm r' vp = flat z₂.vmm r' vp := o3.other r' vp (k13.root ▸ hr') h2
    have e2 : flat z₂.vmm r' vp = flat z₁.vmm r' vp := o2.other r' vp (k1.root ▸ hr') h1
    exact e3.trans e2
  have hstack : ∀ r', z.Root r' → flat z₃.vmm r' stackPage = flat z₁.vmm r' stackPage := fun r' hr' => by
    have hne : r' ≠ r := fun e => b1.space.fresh (e ▸ hr')
    exact hother r' stackPage (b1.space.root hr') (Or.inr ⟨hne, by decide⟩) (Or.inr ⟨hne, by decide⟩)
  refine ⟨b1.space.trans (k13.trans o3.keeps) hstack, ?_, ?_, fun r' vp hr' => ?_, ?_, ?_, fun vp hvp h1 h2 => ?_, ?_⟩
  · show z₃.mem = _
    rw [o3.mem_eq, ← m2]
    rfl
  · show z₃.cr3 = _
    rw [o3.cr3_eq, ← b1.cr3_eq]
    exact o2.cr3_eq
  · show flat z₃.vmm r' vp = _
    have hne : r' ≠ r := fun e => b1.space.fresh (e ▸ hr')
    rw [hother r' vp (b1.space.root hr'), b1.others r' vp hr']
    · by_cases hvp : vp / 512 ^ 3 = 511
      · exact Or.inl (by rintro rfl; revert hvp; decide)
      · exact Or.inr ⟨hne, hvp⟩
    · by_cases hvp : vp / 512 ^ 3 = 511
      · exact Or.inl (by rintro rfl; revert hvp; decide)
      · exact Or.inr ⟨hne, hvp⟩
  · have e3 : flat z₃.vmm r userStackPage = flat z₂.vmm r userStackPage :=
      o3.other r _ (k13.root ▸ hr₁) (Or.inl (by decide))
    show flat z₃.vmm r userStackPage = _
    rw [e3, o2.entry, if_pos (by decide), ← m1]
    rfl
  · show flat z₃.vmm r stackPage = _
    rw [o3.entry, if_neg (by decide), ← m2]
    rfl
  · show flat z₃.vmm r vp = 0
    rw [hother r vp hr₁ (Or.inl h1) (Or.inl h2)]
    exact b1.zero vp hvp
  · have c3 : z₂.vmm.freeSlots.card ≤ z₃.vmm.freeSlots.card + 6 := o3.slots
    show z.vmm.freeSlots.card ≤ z₃.vmm.freeSlots.card + 13
    dsimp only at c1
    omega

theorem card_freeSlots_bootedSpaces : bootedSpaces.vmm.freeSlots.card = 0x10000 := by
  have h : bootedSpaces.vmm.freeSlots = Finset.range 0x10000 := by
    ext j
    rw [mem_freeSlots, Finset.mem_range]
    simp [bootedSpaces, Bitmap.test]
  rw [h, Finset.card_range]

end Nettapus
