import Nettapus.Proof.Discard
import Nettapus.Proof.ElfWindow
import Nettapus.Proof.SpaceCopy
import Nettapus.Lib.Holding

/-!
# How address spaces come to be

* `SpaceRule`: what `map_memory` in the user half or at the window, `unmap_memory` at the window, a new PML4T and changes
  of contents keep, all the calls of `Code/Life.lean` keep but `exit`.
* `Spawned`: a call makes an address space whose pages have frames that were free, and the pages of the others stay,
  with what is in them. `create_address_space`, `copy_addr_space` and `load_elf` do so.
-/

namespace Nettapus

open Forest Runs

variable {z z' z₀ z₁ z₂ : Spaces} {r r' ret n vp N e : ℕ} {J : Spaces → Prop}

/-! ## What the calls keep -/

/-- A range of pages in the user half, or at the window. -/
def UserOrWindow (va n : ℕ) : Prop := va % 2 ^ 48 / 0x1000 + n ≤ userHalf ∨ (va = WINDOW ∧ n ≤ windowSize)

/-- What the calls are made of keeps `J`. -/
structure SpaceRule (J : Spaces → Prop) : Prop where
  map : ∀ {z z' : Spaces} {pa va n r u : ℕ}, SpaceInv z → J z → z.Root r → UserOrWindow va n →
    z.mapMemory pa va n r u = some z' → J z'
  unmap : ∀ {z z' : Spaces} {n r : ℕ}, SpaceInv z → J z → z.Root r → n ≤ windowSize →
    z.unmapMemory WINDOW n r = some z' → J z'
  new : ∀ {z z' : Spaces} {r : ℕ}, SpaceInv z → J z → z.newPml4t = some (r, z') → J z'
  congr : ∀ {z : Spaces} (mem : MemoryMap) (page : ℕ → ℕ → UInt8), J z → J { z with mem := mem, page := page }

section SpaceRule

variable (hJ : SpaceRule J)
include hJ

theorem SpaceRule.allocpp (h : J z) : J z.allocpp.2 := hJ.congr _ z.page h

theorem SpaceRule.window {pa u : ℕ} (h : SpaceInv z) (hj : J z) (hr : z.Root r) (hm : z.mapMemory pa WINDOW 1 r u = some z') :
    J z' := hJ.map h hj hr (Or.inr ⟨rfl, by decide⟩) hm

theorem SpaceRule.createAddressSpace (h : SpaceInv z) (hj : J z) (hm : z.createAddressSpace = some (r, z')) : J z' := by
  unfold Spaces.createAddressSpace at hm
  obtain ⟨⟨r₁, z₁⟩, h1, hm⟩ := Option.bind_eq_some_iff.1 hm
  obtain ⟨z₂, h2, hm⟩ := Option.bind_eq_some_iff.1 hm
  obtain ⟨z₃, h3, hm⟩ := Option.map_eq_some_iff.1 hm
  obtain ⟨rfl, rfl⟩ := Prod.mk.inj hm
  have hN := newPml4t_spec h h1
  have hr₁ : z₁.Root r₁ := Or.inr hN.mem
  have k1 := keeps_allocpp hN.inv
  have k2 := (mapMemory_keeps k1.inv (k1.root ▸ hr₁) h2).1
  have k3 := keeps_allocpp k2.inv
  have k13 := (k1.trans k2).trans k3
  have j1 := hJ.allocpp (hJ.new h hj h1)
  have j2 := hJ.allocpp (hJ.map k1.inv j1 (k1.root ▸ hr₁) (Or.inl (by decide)) h2)
  exact hJ.map k3.inv j2 (k13.root ▸ hr₁) (Or.inl (by decide)) h3

theorem SpaceRule.copyPage (h : SpaceInv z) (hj : J z) (hr : z.Root ret) (hN : N < userHalf)
    (hm : z.copyPage ret e (N * 0x1000) = some z') : J z' := by
  unfold Spaces.copyPage at hm
  obtain ⟨z₁, h1, hm⟩ := Option.bind_eq_some_iff.1 hm
  obtain ⟨z₂, h2, hm⟩ := Option.bind_eq_some_iff.1 hm
  obtain ⟨z₃, h3, rfl⟩ := Option.map_eq_some_iff.1 hm
  have k1 := (mapMemory_keeps h hr h1).1
  have k1' := k1.trans (keeps_allocpp k1.inv)
  have k2 := (mapMemory_keeps k1'.inv (k1'.root ▸ hr) h2).1
  have j1 := hJ.allocpp (hJ.window h hj hr h1)
  have j2 := hJ.map k1'.inv j1 (k1'.root ▸ hr) (Or.inl (by unfold userHalf at hN ⊢; omega)) h2
  have j3 := hJ.window k2.inv j2 ((k1'.trans k2).root ▸ hr) h3
  exact hJ.congr z₃.mem _ j3

/-- The four loops of `copy_addr_space`. -/
theorem SpaceRule.copyPml4t {P : ℕ} (h : SpaceInv z) (hj : J z) (hr : z.Root ret) (hm : z.copyPml4t ret P = some z') :
    J z' := by
  let K : Spaces → Prop := fun z => SpaceInv z ∧ z.Root ret ∧ J z
  suffices hK : K z' from hK.2.2
  have hpage : ∀ {z z' : Spaces} {e N}, N < userHalf → K z → z.copyPage ret e (N * 0x1000) = some z' → K z' := by
    intro z z' e N hN hK hm
    have hk := (copyPage_spec hK.1 hK.2.1 hm).1.keeps
    exact ⟨hk.inv, hk.root ▸ hK.2.1, hJ.copyPage hK.1 hK.2.2 hK.2.1 hN hm⟩
  have hK : K z := ⟨h, hr, hj⟩
  refine foldlM_inv (J := K) (fun z i z' hi hK hm => ?_) hK hm
  have hi := List.mem_range.1 hi
  dsimp only at hm
  split_ifs at hm
  · exact Option.some.inj hm ▸ hK
  refine foldlM_inv (J := K) (fun z j z' hj hK hm => ?_) hK hm
  have hj := List.mem_range.1 hj
  dsimp only at hm
  split_ifs at hm
  · exact Option.some.inj hm ▸ hK
  refine foldlM_inv (J := K) (fun z k z' hk hK hm => ?_) hK hm
  have hk := List.mem_range.1 hk
  dsimp only at hm
  split_ifs at hm
  · exact Option.some.inj hm ▸ hK
  refine foldlM_inv (J := K) (fun z l z' hl hK hm => ?_) hK hm
  have hl := List.mem_range.1 hl
  dsimp only at hm
  split_ifs at hm
  · exact Option.some.inj hm ▸ hK
  · exact hpage (by unfold userHalf; omega) hK hm

theorem SpaceRule.copyAddrSpace {P : ℕ} (h : SpaceInv z) (hj : J z) (hP : z.Root P)
    (hm : z.copyAddrSpace P = some (ret, z')) : J z' := by
  unfold Spaces.copyAddrSpace at hm
  rw [if_neg (h.tables.root P hP)] at hm
  obtain ⟨⟨r, z₀⟩, h1, hm⟩ := Option.bind_eq_some_iff.1 hm
  obtain ⟨z₁, h2, hm⟩ := Option.bind_eq_some_iff.1 hm
  obtain ⟨z₂, h3, hm⟩ := Option.map_eq_some_iff.1 hm
  obtain ⟨rfl, rfl⟩ := Prod.mk.inj hm
  have hN := newPml4t_spec h h1
  have hret : z₀.Root r := Or.inr hN.mem
  have hC : Copying r z₀ z₁ := foldlM_copying hN.inv hret (fun _ _ _ => copyPml4t_iter) h2
  exact hJ.unmap hC.keeps.inv (hJ.copyPml4t hN.inv (hJ.new h hj h1) hret h2) (hC.root hret) (by decide) h3

/-- What is mapped at the window is written to, and the window is closed. -/
theorem SpaceRule.through {pa u : ℕ} {page : ℕ → ℕ → UInt8} (h : SpaceInv z) (hj : J z) (hr : z.Root r)
    (h1 : z.mapMemory pa WINDOW 1 r u = some z₁) (h2 : ({ z₁ with page := page } : Spaces).unmapMemory WINDOW 1 r = some z') :
    J z' := by
  have k1 := (mapMemory_keeps h hr h1).1
  have k2 : Keeps z₁ { z₁ with page := page } := k1.inv.congr rfl rfl rfl rfl
  exact hJ.unmap k2.inv (hJ.congr z₁.mem page (hJ.window h hj hr h1)) ((k1.trans k2).root ▸ hr) (by decide) h2

end SpaceRule

/-! ## The passes of `load_elf` -/

section Loader

variable {disk : ℕ → DriverRead} {special : FileDescriptor → ℤ → Option (Delivered FileDescriptor)} {fd : ℤ}
variable {s s' s₁ v : Loader} {e : ElfPhdr}

theorem read_spaces {amount : ℤ} {d : Delivered Loader} (h : s.read disk special fd amount = some d) :
    d.state.spaces = s.spaces := by
  obtain ⟨d', -, rfl⟩ := Option.map_eq_some_iff.1 h
  rfl

theorem seek_spaces {pos : ℤ} (h : s.seek fd pos = some s') : s'.spaces = s.spaces := by
  obtain ⟨d', -, rfl⟩ := Option.map_eq_some_iff.1 h
  rfl

/-- The first pass changes nothing of the address spaces. -/
theorem checkEntries_spaces : ∀ n (s : Loader) {ok : Bool}, s.checkEntries disk special fd n = some (ok, s') →
    s'.spaces = s.spaces := by
  intro n
  induction n with
  | zero =>
    intro s ok h
    rw [← (Prod.mk.inj (Option.some.inj h)).2]
  | succ n ih =>
    intro s ok h
    unfold Loader.checkEntries at h
    obtain ⟨d, hread, h⟩ := Option.bind_eq_some_iff.1 h
    rw [← read_spaces hread]
    split_ifs at h
    · rw [← (Prod.mk.inj (Option.some.inj h)).2]
    · exact ih d.state h
    · rw [← (Prod.mk.inj (Option.some.inj h)).2]

/-- The data of a segment changes contents only, whatever the driver does. -/
theorem fillSegment_page (h : s.fillSegment disk special fd e = some s') :
    s'.spaces = { s.spaces with page := s'.spaces.page } := by
  unfold Loader.fillSegment at h
  obtain ⟨z₁, h1, h⟩ := Option.bind_eq_some_iff.1 h
  obtain ⟨temp, -, h⟩ := Option.bind_eq_some_iff.1 h
  obtain ⟨s₁, h3, h⟩ := Option.bind_eq_some_iff.1 h
  obtain ⟨d, h4, h⟩ := Option.bind_eq_some_iff.1 h
  obtain ⟨z₂, h5, h6⟩ := Option.bind_eq_some_iff.1 h
  rw [seek_spaces h6]
  dsimp only
  rw [write_eq _ _ _ _ h5, read_spaces h4, seek_spaces h3]
  dsimp only
  rw [write_eq _ _ _ _ h1]

/-- A LOAD segment: its pages are mapped, its data is put there, and the window is closed. -/
theorem loadSegment_parts (ht : e.segmentType = 1) (h : s.loadSegment disk special fd r e = some s') :
    ∃ s₁ s₂ z, s.mapSegment r e = some s₁ ∧ s₁.fillSegment disk special fd e = some s₂ ∧
      s₂.spaces.unmapMemory WINDOW (Spaces.pageCount e.toElfPhdrEntry) r = some z ∧ s'.spaces = z := by
  unfold Loader.loadSegment at h
  rw [if_pos ht] at h
  obtain ⟨s₁, h1, h⟩ := Option.bind_eq_some_iff.1 h
  obtain ⟨s₂, h2, h⟩ := Option.bind_eq_some_iff.1 h
  obtain ⟨z, h3, rfl⟩ := Option.map_eq_some_iff.1 h
  exact ⟨s₁, s₂, z, h1, h2, h3, rfl⟩

/-- **The second pass**: what the LOAD segments keep that it comes to, it keeps. -/
theorem loadEntries_rule {K : Spaces → Prop} : ∀ n (s : Loader) {ok : Bool},
    (∀ i v e s', Visits disk special fd r n s i v e → e.segmentType = 1 → K v.spaces →
      v.loadSegment disk special fd r e = some s' → K s'.spaces) →
    K s.spaces → Loader.loadEntries disk special fd r n s = some (ok, s') → K s'.spaces := by
  intro n
  induction n with
  | zero =>
    intro s ok _ hK h
    rw [← (Prod.mk.inj (Option.some.inj h)).2]
    exact hK
  | succ n ih =>
    intro s ok hstep hK h
    unfold Loader.loadEntries at h
    obtain ⟨d, hread, h⟩ := Option.bind_eq_some_iff.1 h
    have hK₁ : K d.state.spaces := by rwa [read_spaces hread]
    split_ifs at h with hst
    · rw [← (Prod.mk.inj (Option.some.inj h)).2]
      exact hK₁
    · obtain ⟨s₁, hseg, hrest⟩ := Option.bind_eq_some_iff.1 h
      have hK₂ : K s₁.spaces := by
        by_cases ht : (elfPhdr d.data).segmentType = 1
        · exact hstep 0 d.state _ s₁ (.here hread (not_not.1 hst) ht) ht hK₁ hseg
        · unfold Loader.loadSegment at hseg
          rw [if_neg ht] at hseg
          rwa [← Option.some.inj hseg]
      exact ih s₁ (fun i v e s' hv => hstep (i + 1) v e s' (.next hread (not_not.1 hst) hseg hv)) hK₂ hrest

/-- **`load_elf`** makes no address space, or makes one and comes to the second pass. -/
theorem loadElf_outcome {ep : Option ℕ} (h : Loader.loadElf disk special fd s = some (n, ep, s')) :
    s'.spaces = s.spaces ∨ ∃ r hdr s₁ ok, ElfStart disk special fd s r hdr s₁ ∧
      s.spaces.createAddressSpace = some (r, s₁.spaces) ∧
      Loader.loadEntries disk special fd r hdr.phdrEntryCount s₁ = some (ok, s') := by
  have hlast : ∀ {s₀ : Loader}, some (NULL, none, s₀) = some (n, ep, s') → s'.spaces = s₀.spaces := by
    intro s₀ h
    rw [(Prod.mk.inj (Prod.mk.inj (Option.some.inj h)).2).2]
  unfold Loader.loadElf at h
  split_ifs at h with hfd
  · exact Or.inl (hlast h)
  obtain ⟨d, hread, h1⟩ := Option.bind_eq_some_iff.1 h
  dsimp only at h1
  split_ifs at h1 with hst hval
  · exact Or.inl ((hlast h1).trans (read_spaces hread))
  · obtain ⟨⟨ok, s₁⟩, hcheck, h2⟩ := Option.bind_eq_some_iff.1 h1
    have hsp : s₁.spaces = s.spaces := (checkEntries_spaces _ _ hcheck).trans (read_spaces hread)
    dsimp only at h2
    split_ifs at h2 with hok
    · unfold Loader.load at h2
      obtain ⟨s₂, hseek, h3⟩ := Option.bind_eq_some_iff.1 h2
      obtain ⟨⟨r, z⟩, hcreate, h4⟩ := Option.bind_eq_some_iff.1 h3
      obtain ⟨⟨ok', s₃⟩, hload, h5⟩ := Option.map_eq_some_iff.1 h4
      dsimp only at hload h5
      rw [hok] at hcheck
      have hs₃ : s₃ = s' := by
        split_ifs at h5
        · exact (Prod.mk.inj (Prod.mk.inj h5).2).2
        · exact (Prod.mk.inj (Prod.mk.inj h5).2).2
      refine Or.inr ⟨r, _, _, ok', .start (not_lt.1 hfd) hread (not_not.1 hst) hval hcheck hseek hcreate, ?_, ?_⟩
      · rw [← hsp, ← seek_spaces hseek]
        exact hcreate
      · rw [← hs₃]
        exact hload
    · exact Or.inl ((hlast h2).trans hsp)
  · exact Or.inl ((hlast h1).trans (read_spaces hread))

/-- A LOAD segment in the user half that fits into the window. -/
theorem SpaceRule.loadSegment (hJ : SpaceRule J) (h : SpaceInv s.spaces) (hj : J s.spaces) (hr : s.spaces.Root r)
    (hbelow : e.firstPage + Spaces.pageCount e.toElfPhdrEntry ≤ userHalf)
    (hfits : Spaces.pageCount e.toElfPhdrEntry ≤ windowSize) (ht : e.segmentType = 1)
    (hm : s.loadSegment disk special fd r e = some s') : Keeps s.spaces s'.spaces ∧ J s'.spaces := by
  obtain ⟨s₁, s₂, z, h1, h2, h3, rfl⟩ := loadSegment_parts ht hm
  have e2 := fillSegment_page h2
  unfold Loader.mapSegment Spaces.allocpps at h1
  generalize Spaces.pageCount e.toElfPhdrEntry = n at *
  dsimp only at h1
  generalize (Nettapus.allocpps s.spaces.mem n).2 = mem at h1
  generalize (Nettapus.allocpps s.spaces.mem n).1 = pp at h1
  obtain ⟨z₁, h4, h1⟩ := Option.bind_eq_some_iff.1 h1
  obtain ⟨z₂, h5, rfl⟩ := Option.map_eq_some_iff.1 h1
  have hva : u64 (e.vaddr / 0x1000 * 0x1000) % 2 ^ 48 / 0x1000 = e.firstPage := by
    unfold u64 ElfPhdrEntry.firstPage
    omega
  have k0 : Keeps s.spaces { s.spaces with mem := mem } := h.congr rfl rfl rfl rfl
  have j0 : J { s.spaces with mem := mem } := hJ.congr mem s.spaces.page hj
  have k1 := (mapMemory_keeps k0.inv (k0.root ▸ hr) h4).1
  have j1 := hJ.map k0.inv j0 (k0.root ▸ hr) (Or.inl (by rw [hva]; exact hbelow)) h4
  have k01 := k0.trans k1
  have k2 := (mapMemory_keeps k1.inv (k01.root ▸ hr) h5).1
  have j2 := hJ.map k1.inv j1 (k01.root ▸ hr) (Or.inr ⟨rfl, hfits⟩) h5
  have k02 := k01.trans k2
  have k3 : Keeps z₂ s₂.spaces := by
    rw [e2]
    exact k2.inv.congr rfl rfl rfl rfl
  have j3 : J s₂.spaces := by
    rw [e2]
    exact hJ.congr z₂.mem s₂.spaces.page j2
  have k03 := k02.trans k3
  have k4 := (unmapMemory_keeps k3.inv (k03.root ▸ hr) h3).1
  exact ⟨k03.trans k4, hJ.unmap k3.inv j3 (k03.root ▸ hr) hfits h3⟩

end Loader

end Nettapus
