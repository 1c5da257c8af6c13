import Nettapus.Proof.Spawn

/-!
# The frames of a new address space

`Spawned`: a call made an address space. Its pages in the user half have frames that were free, all different; the pages
of the others stay, and so does what is in the frames that were in use. `create_address_space` (`create_spawned`),
`copy_addr_space` (`copy_spawned`) and `load_elf` (`load_spawned`) make address spaces like this, as long as there is
memory for them and the segments of the file fit.
-/

namespace Nettapus

open Forest Runs

variable {z z' z₀ z₁ z₂ : Spaces} {r r' n vp q : ℕ}

/-! ## A new address space -/

/-- An entry as `map_memory` writes it, for a frame that was free and is used now. -/
def FreshPage (z z' : Spaces) (e : ℕ) : Prop :=
  ∃ q < pageLimit, (e = q * 0x1000 + 7 ∨ e = q * 0x1000 + 3) ∧ ¬ z.Used q ∧ z'.Used q

/-- **An address space `r` was made**, in free frames. -/
structure Spawned (z z' : Spaces) (r : ℕ) : Prop where
  space : NewSpace z z' r
  cr3_eq : z'.cr3 = z.cr3
  valid_eq : ∀ q, isppValid z'.mem q = isppValid z.mem q
  kept : UsedKept z z'
  others : ∀ r' vp, z.Root r' → vp < userHalf → flat z'.vmm r' vp = flat z.vmm r' vp
  pages : ∀ vp < userHalf, flat z'.vmm r vp ≠ 0 → FreshPage z z' (flat z'.vmm r vp)
  inj : ∀ vp < userHalf, ∀ vp' < userHalf, flat z'.vmm r vp ≠ 0 → flat z'.vmm r vp' ≠ 0 →
    flat z'.vmm r vp / 0x1000 = flat z'.vmm r vp' / 0x1000 → vp = vp'

theorem FreshPage.ne_zero {e : ℕ} (h : FreshPage z z' e) : e ≠ 0 := by
  obtain ⟨q, -, he, -⟩ := h
  omega

theorem FreshPage.frame {e : ℕ} (h : FreshPage z z' e) : ¬ z.Used (e / 0x1000) ∧ z'.Used (e / 0x1000) := by
  obtain ⟨q, -, he, h1, h2⟩ := h
  obtain rfl : e / 0x1000 = q := by omega
  exact ⟨h1, h2⟩

theorem UsedKept.trans (h : UsedKept z z₁) (h' : UsedKept z₁ z₂) : UsedKept z z₂ := by
  intro q hq
  obtain ⟨h1, h2⟩ := h q hq
  obtain ⟨h3, h4⟩ := h' q h1
  exact ⟨h3, h4.trans h2⟩

/-- **Pages are added** to the new address space, in frames that were free. -/
theorem Spawned.extend (h : Spawned z₀ z r) (hk : Keeps z z') (hcr : z'.cr3 = z.cr3)
    (hval : ∀ q, isppValid z'.mem q = isppValid z.mem q) (hused : UsedKept z z')
    (hothers : ∀ r' vp, z.Root r' → r' ≠ r → vp < userHalf → flat z'.vmm r' vp = flat z.vmm r' vp)
    (hpages : ∀ vp < userHalf, flat z'.vmm r vp = flat z.vmm r vp ∨ FreshPage z z' (flat z'.vmm r vp))
    (hinj : ∀ vp < userHalf, ∀ vp' < userHalf, FreshPage z z' (flat z'.vmm r vp) → FreshPage z z' (flat z'.vmm r vp') →
      flat z'.vmm r vp / 0x1000 = flat z'.vmm r vp' / 0x1000 → vp = vp') : Spawned z₀ z' r := by
  have hne : ∀ {r'}, z₀.Root r' → r' ≠ r := fun hr' e => h.space.fresh (e ▸ hr')
  -- a page that was there has a frame that was in use
  have hold : ∀ {vp}, vp < userHalf → flat z'.vmm r vp ≠ 0 → flat z'.vmm r vp = flat z.vmm r vp →
      z.Used (flat z'.vmm r vp / 0x1000) := by
    intro vp hvp h0 he
    rw [he] at h0 ⊢
    exact (h.pages vp hvp h0).frame.2
  refine ⟨h.space.trans hk fun r' hr' => hothers r' _ (h.space.root hr') (hne hr') (by decide), hcr.trans h.cr3_eq,
    fun q => (hval q).trans (h.valid_eq q), h.kept.trans hused, fun r' vp hr' hvp => ?_, fun vp hvp h0 => ?_,
    fun vp hvp vp' hvp' h0 h0' he => ?_⟩
  · rw [hothers r' vp (h.space.root hr') (hne hr') hvp]
    exact h.others r' vp hr' hvp
  · rcases hpages vp hvp with heq | hf
    · rw [heq] at h0 ⊢
      obtain ⟨q, hq, he, h1, h2⟩ := h.pages vp hvp h0
      exact ⟨q, hq, he, h1, (hused q h2).1⟩
    · obtain ⟨q, hq, he, h1, h2⟩ := hf
      exact ⟨q, hq, he, fun hu => h1 (h.kept q hu).1, h2⟩
  · rcases hpages vp hvp with heq | hf <;> rcases hpages vp' hvp' with heq' | hf'
    · rw [heq] at h0 he
      rw [heq'] at h0' he
      exact h.inj vp hvp vp' hvp' h0 h0' he
    · have hu := hold hvp h0 heq
      rw [he] at hu
      exact absurd hu hf'.frame.1
    · have hu := hold hvp' h0' heq'
      rw [← he] at hu
      exact absurd hu hf.frame.1
    · exact hinj vp hvp vp' hvp' hf hf' he

/-! ## `create_address_space` -/

theorem createAddressSpace_page (h : z.createAddressSpace = some (r, z')) : z'.page = z.page := by
  have hmap : ∀ {z z' : Spaces} {pa va n r u : ℕ}, z.mapMemory pa va n r u = some z' → z'.page = z.page := by
    intro z z' pa va n r u hm
    obtain ⟨-, -, rfl⟩ := Option.map_eq_some_iff.1 hm
    rfl
  unfold Spaces.createAddressSpace at h
  obtain ⟨⟨r₁, z₁⟩, h1, h⟩ := Option.bind_eq_some_iff.1 h
  obtain ⟨z₂, h2, h⟩ := Option.bind_eq_some_iff.1 h
  obtain ⟨z₃, h3, h⟩ := Option.map_eq_some_iff.1 h
  obtain ⟨-, rfl⟩ := Prod.mk.inj h
  have hnew : z₁.page = z.page := by
    unfold Spaces.newPml4t at h1
    dsimp only at h1
    split_ifs at h1
    rw [← (Prod.mk.inj (Option.some.inj h1)).2]
  have e2 : z₂.page = z₁.page := hmap (z := z₁.allocpp.2) h2
  have e3 : z₃.page = z₂.page := hmap (z := z₂.allocpp.2) h3
  rw [e3, e2, hnew]

theorem frame_pp (h : q < pageLimit) : frame (u64 (q * 0x1000)) = q := by
  unfold pageLimit at h
  unfold frame u64
  omega

/-- **`create_address_space`** takes two frames, for the stacks. -/
theorem create_spawned (h : SpaceInv z) (hfree : 2 ≤ (freePages z.mem).card) (hm : z.createAddressSpace = some (r, z')) :
    Spawned z z' r ∧ ∀ vp < userHalf, (flat z'.vmm r vp ≠ 0 ↔ vp = userStackPage ∨ vp = stackPage) := by
  have hC : SpaceCreated z r z' := (createAddressSpace_yields h).1 _ hm
  have hpage := createAddressSpace_page hm
  have hcard := freePages_allocpp z.mem (by omega)
  obtain ⟨a1, a2, a3⟩ := allocpp_takes z.mem (by omega)
  obtain ⟨b1, b2, b3⟩ := allocpp_takes (allocpp z.mem).2 (by omega)
  have hval : ∀ q, isppValid z'.mem q = isppValid z.mem q := by
    intro q
    rw [hC.mem_eq, (allocpp_bits _ (by omega)).1, (allocpp_bits _ (by omega)).1]
  have hu := hC.userStack
  have hk := hC.kernelStack
  have hmem := hC.mem_eq
  rw [frame_pp a2] at hu
  rw [frame_pp b2] at hk
  generalize (allocpp z.mem).1 = pp at a1 a2 a3 hu
  generalize (allocpp (allocpp z.mem).2).1 = pp' at b1 b2 b3 hk
  have hbits : ∀ q, isppUsed z'.mem q = 0 ↔ (isppUsed z.mem q = 0 ∧ q ≠ pp) ∧ q ≠ pp' := fun q => by rw [hmem, b3, a3]
  have hne : pp' ≠ pp := ((a3 pp').1 b1).2
  have hfree' : isppUsed z.mem pp' = 0 := ((a3 pp').1 b1).1
  have huse : ∀ {q}, q = pp ∨ q = pp' → z'.Used q := by
    intro q hq h0
    rw [hbits] at h0
    rcases hq with rfl | rfl
    · exact h0.1.2 rfl
    · exact h0.2 rfl
  have hpages : ∀ vp < userHalf, flat z'.vmm r vp ≠ 0 → vp = userStackPage ∨ vp = stackPage := by
    intro vp hvp h0
    by_contra hc
    obtain ⟨h1, h2⟩ := not_or.1 hc
    exact h0 (hC.zero vp hvp h1 h2)
  refine ⟨⟨hC.space, hC.cr3_eq, hval, fun q hq => ⟨fun h0 => ?_, by rw [hpage]⟩, fun r' vp hr' _ => hC.others r' vp hr',
    fun vp hvp h0 => ?_, fun vp hvp vp' hvp' h0 h0' he => ?_⟩, fun vp hvp => ⟨hpages vp hvp, ?_⟩⟩
  · exact hq ((hbits q).1 h0).1.1
  · rcases hpages vp hvp h0 with rfl | rfl
    · exact ⟨pp, a2, Or.inl hu, not_not_intro a1, huse (Or.inl rfl)⟩
    · exact ⟨pp', b2, Or.inr hk, not_not_intro hfree', huse (Or.inr rfl)⟩
  · rcases hpages vp hvp h0 with rfl | rfl <;> rcases hpages vp' hvp' h0' with rfl | rfl
    · rfl
    · omega
    · omega
    · rfl
  · rintro (rfl | rfl)
    · omega
    · omega

/-! ## `copy_addr_space` -/

/-- **`copy_addr_space`** takes a frame for each page. -/
theorem copy_spawned {P : ℕ} (h : SpaceInv z) (hP : z.Root P) (hcr : z.Root z.cr3)
    (hused : ∀ vp < userHalf, flat z.vmm P vp ≠ 0 → isppUsed z.mem (frame (flat z.vmm P vp)) ≠ 0)
    (hfree : (rest z P 0).card ≤ (freePages z.mem).card) (hm : z.copyAddrSpace P = some (r, z')) :
    Spawned z z' r ∧ ∀ vp < userHalf, (flat z'.vmm r vp ≠ 0 ↔ flat z.vmm P vp ≠ 0) := by
  obtain ⟨z₀, hb, hC⟩ := (copyAddrSpace_copied h hP hcr hused hfree).1 _ hm
  dsimp only at hb hC
  have hret : z₀.Root r := Or.inr hb.space.mem
  have hflat : ∀ vp, flat z₀.vmm P vp = flat z.vmm P vp := fun vp => hb.others P vp hP
  have hpage : ∀ vp < userHalf, flat z'.vmm r vp ≠ 0 → flat z₀.vmm P vp ≠ 0 := by
    intro vp hvp h0 h1
    exact h0 (hC.zero vp hvp (Or.inr h1))
  have hbase : Spawned z z₀ r := by
    refine ⟨hb.space, hb.cr3_eq, fun q => by rw [hb.mem_eq], fun q hq => ⟨by rw [hb.mem_eq]; exact hq, by rw [hb.page_eq]⟩,
      fun r' vp hr' _ => hb.others r' vp hr', fun vp hvp h0 => absurd (hb.zero vp hvp) h0,
      fun vp hvp vp' _ h0 => absurd (hb.zero vp hvp) h0⟩
  have hfresh : ∀ vp < userHalf, flat z'.vmm r vp ≠ 0 → FreshPage z₀ z' (flat z'.vmm r vp) := by
    intro vp hvp h0
    obtain ⟨q, hq, he, h1, h2, -⟩ := hC.copy vp hvp (hpage vp hvp h0)
    exact ⟨q, hq, Or.inl he, not_not_intro h1, h2⟩
  refine ⟨hbase.extend hC.keeps hC.cr3_eq hC.valid_eq hC.used (fun r' vp hr' hne hvp => hC.others r' vp hr' hne hvp)
    (fun vp hvp => ?_) fun vp hvp vp' hvp' hf hf' he => ?_, fun vp hvp => ⟨fun h0 => ?_, fun h0 => ?_⟩⟩
  · by_cases h0 : flat z'.vmm r vp = 0
    · exact Or.inl (h0.trans (hb.zero vp hvp).symm)
    · exact Or.inr (hfresh vp hvp h0)
  · have h1 := hpage vp hvp hf.ne_zero
    have h2 := hpage vp' hvp' hf'.ne_zero
    refine hC.inj vp hvp vp' hvp' h1 h2 ?_
    obtain ⟨q, -, e1, -⟩ := hC.copy vp hvp h1
    obtain ⟨q', -, e2, -⟩ := hC.copy vp' hvp' h2
    omega
  · rw [← hflat]
    exact hpage vp hvp h0
  · rw [← hflat] at h0
    obtain ⟨q, -, he, -⟩ := hC.copy vp hvp h0
    omega

/-! ## `load_elf` -/

section Loader

variable {disk : ℕ → DriverRead} {special : FileDescriptor → ℤ → Option (Delivered FileDescriptor)} {fd : ℤ}
variable {node : FileVnode} {content : List UInt8} {s s' : Loader} {e : ElfPhdr} {pos : ℕ}

/-- A run that there is, is taken. -/
theorem HasRun.takes {m : MemoryMap} (h : HasRun m n) (hl : BelowLimit m) : (allocpps m n).1 + n ≤ pageLimit ∧
    FreeRun m (allocpps m n).1 n ∧ Marked m (allocpps m n).1 n (allocpps m n).2 := by
  rcases allocpps_cases m n with ⟨p, hlt, heq, hfree, -⟩ | ⟨-, hno⟩
  · rw [heq]
    obtain ⟨hrun, hmark⟩ := freeRun_marked hl hlt hfree
    exact ⟨(freeRun_of_u64 hl hlt hfree).2, hrun, hmark⟩
  · obtain ⟨b, hb, hf⟩ := h
    exact absurd hf (hno b hb)

/-- A write changes the frames that it goes to. -/
theorem write_frames : ∀ (l : List UInt8) (z z' : Spaces) (va : ℕ), z.write va l = some z' →
    ∀ q, (∀ x < l.length, z.frame (va + x) ≠ q) → z'.page q = z.page q := by
  intro l
  induction l with
  | nil =>
    intro z z' va h q _
    rw [← Option.some.inj h]
  | cons b l ih =>
    intro z z' va h q hq
    obtain ⟨z₁, h1, h2⟩ := Option.bind_eq_some_iff.1 h
    unfold Spaces.poke at h1
    dsimp only at h1
    split_ifs at h1
    obtain rfl := Option.some.inj h1
    rw [ih _ z' (va + 1) h2 q fun x hx => ?_]
    · refine Function.update_of_ne ?_ _ _
      rintro rfl
      exact hq 0 (by simp) rfl
    · rw [Nat.add_assoc, Nat.add_comm 1]
      exact hq (x + 1) (by simpa using hx)

/-- The data of a segment goes to frames that were free. -/
theorem fillSegment_kept (hF : Holds disk node content) (hB : Bounded disk node)
    (hC : CopiesInside special fd node content s r e) {s₁ s₂ : Loader} (h1 : s.mapSegment r e = some s₁)
    (h2 : s₁.fillSegment disk special fd e = some s₂) (hq : s.spaces.Used q) : s₂.spaces.page q = s₁.spaces.page q := by
  unfold Loader.fillSegment at h2
  obtain ⟨z₁, w1, h2⟩ := Option.bind_eq_some_iff.1 h2
  obtain ⟨temp, htell, h2⟩ := Option.bind_eq_some_iff.1 h2
  obtain ⟨s₃, hseek, h2⟩ := Option.bind_eq_some_iff.1 h2
  obtain ⟨d, hread, h2⟩ := Option.bind_eq_some_iff.1 h2
  obtain ⟨z₂, w2, h2⟩ := Option.bind_eq_some_iff.1 h2
  have hne : ∀ {z : Spaces} {l : List UInt8}, WindowCopy disk special fd s r e z l →
      ∀ x < l.length, z.frame (WINDOW + x) ≠ q := by
    intro z l hc x hx he
    exact hq (he ▸ (hC.inside disk z l hF hB hc x hx).2)
  have e1 := write_frames _ _ _ _ w1 q (hne (.memset h1))
  have e2 := write_frames _ _ _ _ w2 q (hne (.kread h1 w1 htell hseek hread))
  rw [seek_spaces h2]
  show z₂.page q = _
  rw [e2, read_spaces hread, seek_spaces hseek]
  exact e1

/-- **A LOAD segment** takes the frames of its pages. -/
theorem Spawned.segment (h : Spawned z₀ s.spaces r) (hl : BelowLimit s.spaces.mem) (hP : Passing fd node s r pos)
    (hF : Holds disk node content) (hB : Bounded disk node) (hC : CopiesInside special fd node content s r e)
    (hrun : s.mapSegment r e ≠ none → HasRun s.spaces.mem (Spaces.pageCount e.toElfPhdrEntry))
    (hbelow : e.firstPage + Spaces.pageCount e.toElfPhdrEntry ≤ userHalf) (ht : e.segmentType = 1)
    (hm : s.loadSegment disk special fd r e = some s') : Spawned z₀ s'.spaces r ∧
      ∀ vp < userHalf, flat s.spaces.vmm r vp ≠ 0 → flat s'.spaces.vmm r vp ≠ 0 := by
  obtain ⟨s₁, s₂, z, h1, h2, h3, rfl⟩ := loadSegment_parts ht hm
  obtain ⟨-, pg1, m1⟩ := (mapSegment_yields hP.inv hP.root).1 s₁ h1
  have hne : s.mapSegment r e ≠ none := by
    rw [h1]
    exact Option.some_ne_none s₁
  obtain ⟨hlim, hfree, hmark⟩ := (hrun hne).takes hl
  have hkept := fun q => fillSegment_kept (q := q) hF hB hC h1 h2
  have e2 := fillSegment_page h2
  rw [e2] at h3
  have m2 := m1.with_page s₂.spaces.page
  obtain ⟨hz, hL, hin, -⟩ := unwindow_spec m2 hP.root h3
  generalize Spaces.pageCount e.toElfPhdrEntry = n at *
  generalize (allocpps s.spaces.mem n).1 = pp at hlim hfree hmark m1 m2
  have hmem : s'.spaces.mem = (allocpps s.spaces.mem n).2 := by
    rw [hz]
    exact m1.mem_eq
  have hpage : s'.spaces.page = s₂.spaces.page := by rw [hz]
  have hwin : userHalf ≤ windowVp := by decide
  have hlim52 : pageLimit < 2 ^ 52 := by decide
  -- the pages of the segment, and the others
  have hinside : ∀ k < n, flat s'.spaces.vmm r (e.firstPage + k) = (pp + k) * 0x1000 + 7 := by
    intro k hk
    rw [hin k hk (Or.inl (by omega)), m2.inside k hk (Or.inl (by omega)), Nat.mod_eq_of_lt (by omega)]
  have hout : ∀ vp < userHalf, ¬ (e.firstPage ≤ vp ∧ vp < e.firstPage + n) →
      flat s'.spaces.vmm r vp = flat s.spaces.vmm r vp := fun vp hvp hc =>
    hL.other r vp hP.root (Or.inl (by omega)) (Or.inl (by omega))
  have hfresh : ∀ k < n, FreshPage s.spaces s'.spaces (flat s'.spaces.vmm r (e.firstPage + k)) := by
    intro k hk
    refine ⟨pp + k, by omega, Or.inl (hinside k hk), not_not_intro (hfree _ (by omega) (by omega)), ?_⟩
    unfold Spaces.Used
    rw [hmem]
    exact hmark.used (Or.inr ⟨by omega, by omega⟩)
  have hcases : ∀ vp < userHalf, (flat s'.spaces.vmm r vp = flat s.spaces.vmm r vp) ∨
      ∃ k < n, vp = e.firstPage + k := by
    intro vp hvp
    by_cases hc : e.firstPage ≤ vp ∧ vp < e.firstPage + n
    · exact Or.inr ⟨vp - e.firstPage, by omega, by omega⟩
    · exact Or.inl (hout vp hvp hc)
  -- a page that is the same is none of the new ones
  have hpart : ∀ vp < userHalf, FreshPage s.spaces s'.spaces (flat s'.spaces.vmm r vp) → ∃ k < n, vp = e.firstPage + k := by
    intro vp hvp hf
    rcases hcases vp hvp with heq | hk
    · have h0 := hf.ne_zero
      have hu := hf.frame.1
      rw [heq] at h0 hu
      exact absurd (h.pages vp hvp h0).frame.2 hu
    · exact hk
  constructor
  · refine h.extend hL.keeps hL.cr3_eq (fun q => ?_) (fun q hq => ⟨?_, ?_⟩) (fun r' vp hr' hne' hvp => ?_)
      (fun vp hvp => ?_) fun vp hvp vp' hvp' hf hf' he => ?_
    · rw [hmem]
      exact hmark.valid q
    · rw [hmem]
      exact hmark.used (Or.inl hq)
    · rw [hpage, hkept q hq, pg1]
    · exact hL.other r' vp hr' (Or.inl (by omega)) (Or.inr ⟨hne', by unfold userHalf at hvp; omega⟩)
    · rcases hcases vp hvp with heq | ⟨k, hk, rfl⟩
      · exact Or.inl heq
      · exact Or.inr (hfresh k hk)
    · obtain ⟨k, hk, rfl⟩ := hpart vp hvp hf
      obtain ⟨k', hk', rfl⟩ := hpart vp' hvp' hf'
      rw [hinside k hk, hinside k' hk'] at he
      omega
  · intro vp hvp h0
    rcases hcases vp hvp with heq | ⟨k, hk, rfl⟩
    · rwa [heq]
    · exact (hfresh k hk).ne_zero

end Loader

end Nettapus
