import Nettapus.Proof.Elf

/-!
# `load_elf` and the memory map

* `RespectsMap`: what `doc/memory_map.txt` asks of an address space that was loaded.
* `ElfPhdrEntry.InRange`: the segment ends below the stacks, and it fits into the window. The code checks where a segment
  starts, and neither of the two.
* `elf_map_iff`: the loaded address space respects the map exactly when all segments are in range.
* `elf_takes_stack`: a segment that replaces the user's stack.
-/

namespace Nettapus

open Forest Runs

variable {disk : ℕ → DriverRead} {special : FileDescriptor → ℤ → Option (Delivered FileDescriptor)} {fd : ℤ}
variable {node : FileVnode} {content : List UInt8} {s s' : Loader} {z z₁ z' : Spaces} {r : ℕ}

/-- The end of the addresses for applications. -/
def APPLICATION_END : ℕ := 0xFFFFFF7000000000

/-- The pages between the window and the kernel's heap. -/
def windowSize : ℕ := 0x8000

/-- The first page of the kernel's heap. -/
def heapVp : ℕ := 0xFFFFFFFFA0000000 % 2 ^ 48 / 0x1000

/-- The address of a page, with the sign extension that the processor asks for. -/
def pageAddress (vp : ℕ) : ℕ := if vp < 2 ^ 35 then vp * 0x1000 else 0xFFFF000000000000 + vp * 0x1000

/-- **The address space `r` in `z'` respects the map**, where `z₁` is how `create_address_space` left it. -/
structure RespectsMap (z₁ z' : Spaces) (r : ℕ) (entries : List ElfPhdr) : Prop where
  below : ∀ e ∈ entries, e.segmentType = 1 → ∀ k < Spaces.pageCount e.toElfPhdrEntry,
    pageAddress (e.firstPage + k) < APPLICATION_END
  userStack : flat z'.vmm r userStackPage = flat z₁.vmm r userStackPage
  kernelStack : flat z'.vmm r stackPage = flat z₁.vmm r stackPage
  kernel : ∀ vp, vp / 512 ^ 3 = 511 → (vp < windowVp ∨ windowVp + windowSize ≤ vp) →
    flat z'.vmm r vp = flat z₁.vmm r vp
  window : ∀ vp, windowVp ≤ vp → vp < windowVp + windowSize → flat z₁.vmm r vp = 0 → flat z'.vmm r vp = 0

/-- A LOAD segment ends below the end of the addresses for applications, and fits into the window. -/
def ElfPhdrEntry.InRange (e : ElfPhdrEntry) : Prop :=
  e.segmentType = 1 → (Spaces.pageCount e = 0 ∨ e.firstPage + Spaces.pageCount e ≤ APPLICATION_END % 2 ^ 48 / 0x1000) ∧
    Spaces.pageCount e ≤ windowSize

theorem pageAddress_lt (vp : ℕ) : pageAddress vp < APPLICATION_END ↔ vp < APPLICATION_END % 2 ^ 48 / 0x1000 := by
  have hend : APPLICATION_END % 2 ^ 48 / 0x1000 = 0xFF7000000 := by decide
  rw [hend]
  unfold pageAddress APPLICATION_END
  split_ifs
  · omega
  · omega

/-- All pages of a segment are below the end exactly when the last one is. -/
theorem below_iff (vp n : ℕ) : (∀ k < n, pageAddress (vp + k) < APPLICATION_END) ↔
    n = 0 ∨ vp + n ≤ APPLICATION_END % 2 ^ 48 / 0x1000 := by
  constructor
  · intro h
    by_cases hn : n = 0
    · exact Or.inl hn
    · have := (pageAddress_lt _).1 (h (n - 1) (by omega))
      omega
  · rintro (rfl | h) k hk
    · omega
    · exact (pageAddress_lt _).2 (by omega)

/-! ## The passes -/

/-- `z` is `z₁` but for pages of applications, and the window is closed where it was. -/
structure MapKept (z₁ : Spaces) (r : ℕ) (z : Spaces) : Prop where
  keeps : Keeps z₁ z
  above : ∀ vp, APPLICATION_END % 2 ^ 48 / 0x1000 ≤ vp → (vp < windowVp ∨ windowVp + windowSize ≤ vp) →
    flat z.vmm r vp = flat z₁.vmm r vp
  window : ∀ vp, windowVp ≤ vp → vp < windowVp + windowSize → flat z₁.vmm r vp = 0 → flat z.vmm r vp = 0

/-- **A segment in range keeps the map.** -/
theorem MapKept.segment {e : ElfPhdrEntry} (h : MapKept z₁ r z) (hr : z₁.Root r) (he : e.InRange)
    (ht : e.segmentType = 1) (hs : SegmentLoaded z z' r e.firstPage (Spaces.pageCount e)) : MapKept z₁ r z' := by
  have hr' : z.Root r := h.keeps.root ▸ hr
  obtain ⟨h1, h2⟩ := he ht
  have hend : APPLICATION_END % 2 ^ 48 / 0x1000 ≤ windowVp := by decide
  refine ⟨h.keeps.trans hs.keeps, fun vp hvp hout => ?_, fun vp hge hlt h0 => ?_⟩
  · rw [hs.other r vp hr' (by omega) (Or.inl (by omega)), h.above vp hvp hout]
  · by_cases hin : vp < windowVp + Spaces.pageCount e
    · have := hs.closed (vp - windowVp) (by omega)
      rwa [show windowVp + (vp - windowVp) = vp by omega] at this
    · rw [hs.other r vp hr' (Or.inr (by omega)) (Or.inl (by omega))]
      exact h.window vp hge hlt h0

/-- A segment whose pages are below the end leaves the heap, if it fits into the window. -/
theorem heap_segment {e : ElfPhdrEntry} (hr : z.Root r)
    (hb : Spaces.pageCount e = 0 ∨ e.firstPage + Spaces.pageCount e ≤ APPLICATION_END % 2 ^ 48 / 0x1000)
    (hs : SegmentLoaded z z' r e.firstPage (Spaces.pageCount e)) (hne : flat z'.vmm r heapVp ≠ 0) :
    flat z.vmm r heapVp ≠ 0 ∧ Spaces.pageCount e ≤ windowSize := by
  have hheap : heapVp = windowVp + windowSize := by decide
  have hend : APPLICATION_END % 2 ^ 48 / 0x1000 ≤ heapVp := by decide
  have hn : Spaces.pageCount e ≤ windowSize := by
    by_contra hc
    refine hne ?_
    rw [hheap]
    exact hs.closed windowSize (by omega)
  rw [hs.other r heapVp hr (Or.inr (by omega)) (Or.inl (by omega))] at hne
  exact ⟨hne, hn⟩

theorem mem_elfEntries {i : ℕ} (hi : i < (elfHdr64 (content.take 64)).phdrEntryCount) :
    phdrAt content (64 + PHDR_SIZE * i) ∈ elfEntries content :=
  List.mem_map.2 ⟨i, List.mem_range.2 hi, rfl⟩

/-- **`load_elf` respects the memory map exactly when its segments are in range.** The kernel's heap is mapped,
as the map has it. -/
theorem elf_map_iff {ep : Option ℕ} (h : SpaceInv s.spaces) (hheap : flat s.spaces.vmm s.spaces.kpml4 heapVp ≠ 0)
    (hF : Holds disk node content) (hp : AtPos s.fds fd node 0)
    (hl : Loader.loadElf disk special fd s = some (r, ep, s')) (hr : r ≠ NULL) :
    ∃ z₁, s.spaces.createAddressSpace = some (r, z₁) ∧
      (RespectsMap z₁ s'.spaces r (elfEntries content) ↔ ∀ e ∈ elfEntries content, e.InRange) := by
  obtain ⟨-, -, -, hlen, z₁, s₁, hc, rfl, hat, hload⟩ := loadElf_cases hF hp hl hr
  refine ⟨s₁.spaces, hc, ?_⟩
  have hC : SpaceCreated s.spaces r s₁.spaces := (createAddressSpace_yields h).1 _ hc
  have hroot : s₁.spaces.Root r := Or.inr hC.space.mem
  constructor
  · intro hR
    have hbelow : ∀ e ∈ elfEntries content, e.segmentType = 1 → Spaces.pageCount e.toElfPhdrEntry = 0 ∨
        e.firstPage + Spaces.pageCount e.toElfPhdrEntry ≤ APPLICATION_END % 2 ^ 48 / 0x1000 := fun e he ht =>
      (below_iff _ _).1 (hR.below e he ht)
    have hne : flat s'.spaces.vmm r heapVp ≠ 0 := by
      have hK : s₁.spaces.Root s.spaces.kpml4 := hC.space.root (Or.inl rfl)
      rw [hR.kernel heapVp (by decide) (Or.inr (by decide)),
        hC.space.inv.flat_kernel hroot hK (by decide), hC.others _ _ (Or.inl rfl)]
      exact hheap
    -- as long as the heap is there, all segments so far fit into the window
    have hall := loadEntries_inv (r := r)
      (J := fun i z => (SpaceInv z ∧ z.Root r) ∧ (flat z.vmm r heapVp ≠ 0 → ∀ k < i,
        (phdrAt content (64 + PHDR_SIZE * k)).segmentType = 1 →
        Spaces.pageCount (phdrAt content (64 + PHDR_SIZE * k)).toElfPhdrEntry ≤ windowSize))
      hF (fun _ _ hJ => hJ.1) _ s₁ 64 0 hat hlen ?_ ⟨⟨hC.space.inv, hroot⟩, fun _ k hk => by omega⟩ hload
    · intro e he ht
      obtain ⟨i, hi, rfl⟩ := List.mem_map.1 he
      exact ⟨hbelow _ he ht, hall.2 hne i (by rw [Nat.zero_add]; exact List.mem_range.1 hi) ht⟩
    · rintro k hk z z' ⟨⟨hI, hRt⟩, hJ⟩ hseg hno
      rw [Nat.zero_add] at hJ ⊢
      by_cases ht : (phdrAt content (64 + PHDR_SIZE * k)).segmentType = 1
      · have hs := hseg ht
        refine ⟨⟨hs.keeps.inv, hs.keeps.root ▸ hRt⟩, fun hne' j hj htj => ?_⟩
        obtain ⟨h1, h2⟩ := heap_segment hRt (hbelow _ (mem_elfEntries hk) ht) hs hne'
        rcases Nat.lt_succ_iff_lt_or_eq.1 hj with hlt | rfl
        · exact hJ h1 j hlt htj
        · exact h2
      · rw [hno ht]
        refine ⟨⟨hI, hRt⟩, fun hne' j hj htj => ?_⟩
        rcases Nat.lt_succ_iff_lt_or_eq.1 hj with hlt | rfl
        · exact hJ hne' j hlt htj
        · exact absurd htj ht
  · intro hin
    have hM := loadEntries_inv (r := r) (J := fun _ z => MapKept s₁.spaces r z) hF
      (fun _ z hJ => ⟨hJ.keeps.inv, hJ.keeps.root ▸ hroot⟩) _ s₁ 64 0 hat hlen ?_
      ⟨hC.space.inv.keeps_refl, fun _ _ _ => rfl, fun _ _ _ h0 => h0⟩ hload
    · refine ⟨fun e he ht => (below_iff _ _).2 (hin e he ht).1, hM.above _ (by decide) (Or.inl (by decide)),
        hM.above _ (by decide) (Or.inl (by decide)), fun vp hvp hout => hM.above vp ?_ hout, hM.window⟩
      rw [show APPLICATION_END % 2 ^ 48 / 0x1000 = 0xFF7000000 by decide]
      omega
    · intro k hk z z' hJ hseg hno
      by_cases ht : (phdrAt content (64 + PHDR_SIZE * k)).segmentType = 1
      · exact hJ.segment hroot (hin _ (mem_elfEntries hk)) ht (hseg ht)
      · rw [hno ht]
        exact hJ

/-! ## Files -/

/-- The `n` bytes of a field. -/
def fieldBytes : ℕ → ℕ → List UInt8
  | 0, _ => []
  | n + 1, v => UInt8.ofNat v :: fieldBytes n (v / 256)

/-- An executable with one segment at `vaddr`, which is the first byte of the file. -/
def oneByteElf (vaddr : ℕ) : List UInt8 :=
  elfMagic ++ [2, 1, 1, 0] ++ fieldBytes 8 0 ++ fieldBytes 2 2 ++ fieldBytes 2 0x3e ++ fieldBytes 4 1 ++
    fieldBytes 8 0x400000 ++ fieldBytes 8 64 ++ fieldBytes 8 0 ++ fieldBytes 4 0 ++ fieldBytes 2 64 ++ fieldBytes 2 56 ++
    fieldBytes 2 1 ++ fieldBytes 6 0 ++
    (fieldBytes 4 1 ++ fieldBytes 4 5 ++ fieldBytes 8 0 ++ fieldBytes 8 vaddr ++ fieldBytes 8 0 ++ fieldBytes 8 1 ++
      fieldBytes 8 1 ++ fieldBytes 8 0x1000)

/-- A driver that reads a file without errors. -/
def sampleDisk (content : List UInt8) : ℕ → DriverRead := fun _ _ off n =>
  if off + n ≤ content.length ∧ off + n < 2 ^ 63 then some ((n : ℤ), (content.drop off).take n) else some (-2, [])

def sampleNode (content : List UInt8) : FileVnode := ⟨12, content.length, .vfsReadFile⟩

/-- The kernel after it has started, with the first page of its heap. -/
def heapSpaces : Spaces := (bootedSpaces.mapMemory 0x500000 0xFFFFFFFFA0000000 1 bootedSpaces.kpml4 0).getD bootedSpaces

def sampleLoader (content : List UInt8) : Loader :=
  ⟨heapSpaces, [⟨some (sampleNode content), FILE_NORMAL, 0, 0, FD_READ⟩], 0⟩

theorem heapSpaces_eq :
    bootedSpaces.mapMemory 0x500000 0xFFFFFFFFA0000000 1 bootedSpaces.kpml4 0 = some heapSpaces :=
  (Option.getD_of_ne_none (by decide +kernel) _).symm

theorem heapSpaces_inv : SpaceInv heapSpaces :=
  (mapMemory_keeps spaceInit_bootedSpaces.inv (Or.inl rfl) heapSpaces_eq).1.inv

theorem holds_sample {content : List UInt8} (h : content.length < 2 ^ 63) :
    Holds (sampleDisk content) (sampleNode content) content := by
  refine ⟨fun _ off n _ => ?_, rfl, h⟩
  unfold sampleDisk
  by_cases hc : off + n ≤ content.length ∧ off + n < 2 ^ 63
  · rw [if_pos hc]
    exact Or.inl ⟨rfl, hc.1, hc.2⟩
  · rw [if_neg hc]
    exact Or.inr ⟨2, [], by decide, by decide, rfl⟩

theorem atPos_sample (content : List UInt8) : AtPos (sampleLoader content).fds 0 (sampleNode content) 0 :=
  ⟨_, ⟨by decide, rfl, show FILE_NORMAL ≠ FILE_DIR by decide, rfl⟩, rfl, rfl, rfl⟩

/-- A file whose segment is at `0x400000`. -/
theorem elf_map_iff_low : ∃ r s' z₁, Loader.loadElf (sampleDisk (oneByteElf 0x400000)) (fun _ _ => none) 0
      (sampleLoader (oneByteElf 0x400000)) = some (r, some 0x400000, s') ∧ r ≠ NULL ∧
    heapSpaces.createAddressSpace = some (r, z₁) ∧ RespectsMap z₁ s'.spaces r (elfEntries (oneByteElf 0x400000)) := by
  have hrun : (Loader.loadElf (sampleDisk (oneByteElf 0x400000)) (fun _ _ => none) 0
      (sampleLoader (oneByteElf 0x400000))).map (fun p => (p.1, p.2.1)) = some (0xFFFFFFFF90008000, some 0x400000) := by
    decide +kernel
  obtain ⟨⟨r, ep, s'⟩, hl, hp⟩ := Option.map_eq_some_iff.1 hrun
  obtain ⟨rfl, rfl⟩ := Prod.mk.inj hp
  obtain ⟨z₁, hc, hiff⟩ := elf_map_iff heapSpaces_inv (by decide +kernel) (holds_sample (by decide))
    (atPos_sample (oneByteElf 0x400000)) hl (by decide)
  refine ⟨_, s', z₁, hl, by decide, hc, hiff.2 fun e he => ?_⟩
  have hcount : (elfHdr64 ((oneByteElf 0x400000).take 64)).phdrEntryCount = 1 := by decide +kernel
  unfold elfEntries tableAt at he
  rw [hcount] at he
  obtain rfl := List.mem_singleton.1 he
  unfold ElfPhdrEntry.InRange
  decide +kernel

/-- **A segment takes the place of the user's stack**: its address passes the check, and `map_memory` cuts it to 48
bits. -/
theorem elf_takes_stack : ∃ r s' z₁, SpaceInv (sampleLoader (oneByteElf 0x0000FF7000001000)).spaces ∧
    Holds (sampleDisk (oneByteElf 0x0000FF7000001000)) (sampleNode (oneByteElf 0x0000FF7000001000))
      (oneByteElf 0x0000FF7000001000) ∧
    Loader.loadElf (sampleDisk (oneByteElf 0x0000FF7000001000)) (fun _ _ => none) 0
      (sampleLoader (oneByteElf 0x0000FF7000001000)) = some (r, some 0x400000, s') ∧ r ≠ NULL ∧
    heapSpaces.createAddressSpace = some (r, z₁) ∧
    flat z₁.vmm r userStackPage = 0x400007 ∧ flat s'.spaces.vmm r userStackPage = 0x402007 ∧
    ¬ RespectsMap z₁ s'.spaces r (elfEntries (oneByteElf 0x0000FF7000001000)) := by
  have hrun : (Loader.loadElf (sampleDisk (oneByteElf 0x0000FF7000001000)) (fun _ _ => none) 0
      (sampleLoader (oneByteElf 0x0000FF7000001000))).map
      (fun p => (p.1, p.2.1, flat p.2.2.spaces.vmm p.1 userStackPage)) =
      some (0xFFFFFFFF90008000, some 0x400000, 0x402007) := by decide +kernel
  obtain ⟨⟨r, ep, s'⟩, hl, hp⟩ := Option.map_eq_some_iff.1 hrun
  obtain ⟨rfl, hp⟩ := Prod.mk.inj hp
  obtain ⟨rfl, hstack⟩ := Prod.mk.inj hp
  have hcreate : heapSpaces.createAddressSpace.map (fun p => (p.1, flat p.2.vmm p.1 userStackPage)) =
      some (0xFFFFFFFF90008000, 0x400007) := by decide +kernel
  obtain ⟨⟨r, z₁⟩, hc, hp⟩ := Option.map_eq_some_iff.1 hcreate
  obtain ⟨rfl, hz₁⟩ := Prod.mk.inj hp
  refine ⟨_, s', z₁, heapSpaces_inv, holds_sample (by decide), hl, by decide, hc, hz₁, hstack, fun hR => ?_⟩
  have := hR.userStack
  rw [hz₁] at this
  rw [hstack] at this
  exact absurd this (by decide)

end Nettapus
