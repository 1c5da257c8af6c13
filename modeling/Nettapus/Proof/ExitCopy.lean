import Nettapus.Proof.Exit
import Nettapus.Proof.SpaceCopy

/-!
# The end of a copied address space

The structures that `copy_addr_space` takes are those of the copy, as long as the window has its page table
(`Owns`, `copyAddrSpace_owns`); the pages that it takes are those that the copy maps (`Copied.taken`). So what the end
of a task leaves of the copy are the pages that its loops miss: `exit_reclaims_iff`.
-/

namespace Nettapus

open Forest Bitmap Runs

variable {z z' z₀ : Spaces} {v v' : Vmm} {R : ℕ → Prop} {s : ℕ → Prop} {U : ℕ → Prop} {r t i n pt vp P ret : ℕ} {p : List ℕ}

/-! ## The slots of an address space -/

/-- The slots in use are those of `U`, and those of the structures of the user half of `r`. -/
structure Owns (U : ℕ → Prop) (r : ℕ) (v : Vmm) : Prop where
  bits : ∀ j, test v.pageHeapBitmap j = true ↔
    U j ∨ (j < v.pageHeapBitmapLength * 8 ∧ Sub v r 511 3 (v.pageStructAt j))
  apart : ∀ j < v.pageHeapBitmapLength * 8, U j → ¬ Sub v r 511 3 (v.pageStructAt j)

theorem sub_congr (h : v'.kids = v.kids) {a m d : ℕ} : Sub v' r m d a ↔ Sub v r m d a := by
  unfold Sub
  rw [h]

/-- Entries do not matter. -/
theorem Owns.setEntry (h : Owns U r v) (pt l e : ℕ) : Owns U r (v.setEntry pt l e) := by
  refine ⟨fun j => ?_, fun j hj hu => ?_⟩
  · rw [sub_congr (kids_setEntry v pt l e)]
    exact h.bits j
  · rw [sub_congr (kids_setEntry v pt l e)]
    exact h.apart j hj hu

/-- `unmap_memory` writes entries only. -/
theorem Owns.unmapMemory {va amount r' st : ℕ} (h : Owns U r v) (hm : v.unmapMemory va amount r' = some (st, v')) :
    Owns U r v' := by
  have hloop : ∀ n (v : Vmm) va, Owns U r v → Vmm.unmapLoop r' n v va = some v' → Owns U r v' := by
    intro n
    induction n with
    | zero => exact fun v va h hm => Option.some.inj hm ▸ h
    | succ n ih =>
      intro v va h hm
      unfold Vmm.unmapLoop at hm
      dsimp only at hm
      split_ifs at hm
      · exact ih v va h hm
      · exact ih _ _ (h.setEntry _ _ _) hm
  unfold Vmm.unmapMemory at hm
  dsimp only at hm
  split_ifs at hm
  · exact (Prod.mk.inj (Option.some.inj hm)).2 ▸ h
  · exact (Prod.mk.inj (Option.some.inj hm)).2 ▸ h
  · obtain ⟨v₁, h1, h2⟩ := Option.map_eq_some_iff.1 hm
    obtain ⟨-, rfl⟩ := Prod.mk.inj h2
    exact hloop amount v _ h h1

/-- **A new structure of the user half** is in a slot that was free. -/
theorem Owns.attached {j : ℕ} (h : Owns U r v) (hA : Attached R v v' r p t i n j) (hT : Tables R s v)
    (hf : First 511 (p ++ [i])) : Owns U r v' := by
  have hd := hA.depth
  have hsub : ∀ a, Sub v' r 511 3 a ↔ Sub v r 511 3 a ∨ a = n := by
    intro a
    constructor
    · rintro ⟨q, hq, hl, hw⟩
      rcases (hA.walk_iff hT hA.root hl a).1 hw with hw | ⟨rfl, -, -⟩
      · exact Or.inl ⟨q, hq, hl, hw⟩
      · exact Or.inr rfl
    · rintro (⟨q, hq, hl, hw⟩ | rfl)
      · exact ⟨q, hq, hl, (hA.walk_iff hT hA.root hl a).2 (Or.inl hw)⟩
      · exact ⟨p ++ [i], hf, by simp; omega, hA.walk_new hT⟩
  have hfree := mem_freeSlots.1 hA.free
  refine ⟨fun k => ?_, fun k hk hu => ?_⟩
  · rw [hA.bitmap, test_mark, Bool.or_eq_true, decide_eq_true_eq, h.bits, hsub, hA.pageStructAt, hA.length_eq, hA.slot]
    constructor
    · rintro (rfl | hk | ⟨hk, hs⟩)
      · exact Or.inr ⟨hfree.1, Or.inr rfl⟩
      · exact Or.inl hk
      · exact Or.inr ⟨hk, Or.inl hs⟩
    · rintro (hk | ⟨hk, hs | he⟩)
      · exact Or.inr (Or.inl hk)
      · exact Or.inr (Or.inr ⟨hk, hs⟩)
      · exact Or.inl (pageStructAt_inj he)
  · rw [hsub, hA.pageStructAt, hA.slot]
    rintro (hs | he)
    · exact h.apart k (hA.length_eq ▸ hk) hu hs
    · -- the slot was free, so it is none of `U`
      obtain rfl := pageStructAt_inj he
      rw [(h.bits k).2 (Or.inl hu)] at hfree
      cases hfree.2

/-- The `NULL` checks for a page of the user half. -/
theorem Owns.findTable (h : Owns U r v) (hT : Tables R s v) (hr : R r) (hvp : vp < userHalf)
    (hm : v.findTable r (vp * 0x1000) = some (pt, v')) : Owns U r v' := by
  have hi : vp / 512 ^ 3 < 511 := by unfold userHalf at hvp; omega
  -- one step, below the path `p`
  have hstep : ∀ {v v' : Vmm} {p t i n}, Owns U r v → Tables R s v → First 511 (p ++ [i]) →
      ((v.kids t i = some n ∧ v' = v) ∨ ∃ j, Attached R v v' r p t i n j) → Owns U r v' := by
    intro v v' p t i n h hT hf hc
    rcases hc with ⟨-, rfl⟩ | ⟨j, hA⟩
    · exact h
    · exact h.attached hA hT hf
  obtain ⟨pdpt, pd, v₁, v₂, h1, e1, w1, h2, e2, w2, h3⟩ := findTable_steps hT hr hm
  have o1 := hstep h hT (first_cons hi) (childOrNew_attached hT hr (p := []) rfl (by decide) h1)
  have o2 := hstep o1 e1.tables (first_cons hi) (childOrNew_attached e1.tables hr w1 (by simp) h2)
  exact hstep o2 e2.tables (first_cons hi) (tableOrNew_attached e2.tables hr w2 (by simp) h3)

/-! ## The copy -/

/-- The window has its page table in `r`, and the slots in use are those of `U` and of `r`. -/
structure CopyOwns (U : ℕ → Prop) (r : ℕ) (z : Spaces) : Prop where
  inv : SpaceInv z
  root : z.Root r
  window : walk z.vmm.kids r (path windowVp) ≠ none
  owns : Owns U r z.vmm

theorem CopyOwns.keeps (h : CopyOwns U r z) (hk : Keeps z z') (ho : Owns U r z'.vmm) : CopyOwns U r z' := by
  refine ⟨hk.inv, hk.root ▸ h.root, ?_, ho⟩
  obtain ⟨pt, hw⟩ := Option.ne_none_iff_exists'.1 h.window
  rw [hk.grown.walk r _ pt h.root (by simp) hw]
  exact Option.some_ne_none pt

/-- One page is mapped, in the user half or at the window. -/
theorem CopyOwns.mapMemory {pa va u : ℕ} (h : CopyOwns U r z)
    (hva : va % 2 ^ 48 / 0x1000 < userHalf ∨ va % 2 ^ 48 / 0x1000 = windowVp)
    (hm : z.mapMemory pa va 1 r u = some z') : CopyOwns U r z' := by
  have hk := (mapMemory_keeps h.inv h.root hm).1
  refine h.keeps hk ?_
  -- the checks keep the slots, wherever the page is
  have hfind : ∀ {v v' : Vmm} {pt}, Grown z.Root z.vmm v → Tables z.Root (· = 511) v → Owns U r v →
      v.findTable r (va % 2 ^ 48 / 0x1000 * 0x1000) = some (pt, v') → Owns U r v' := by
    intro v v' pt hg hT ho hf
    rcases hva with hva | hva
    · exact ho.findTable hT h.root hva hf
    · obtain ⟨pt', hw⟩ := Option.ne_none_iff_exists'.1 h.window
      rw [hva, findTable_of_walk (hg.walk r _ pt' h.root (by simp) hw)] at hf
      obtain ⟨-, rfl⟩ := Prod.mk.inj (Option.some.inj hf)
      exact ho
  obtain ⟨⟨st, v⟩, h1, rfl⟩ := Option.map_eq_some_iff.1 hm
  unfold Vmm.mapMemory at h1
  rw [if_neg (h.inv.tables.root r h.root), and_page] at h1
  obtain ⟨⟨pt, v₁⟩, h2, h1⟩ := Option.bind_eq_some_iff.1 h1
  obtain ⟨v₂, h3, h1⟩ := Option.map_eq_some_iff.1 h1
  obtain ⟨-, rfl⟩ := Prod.mk.inj h1
  obtain ⟨e1, w1⟩ := findTable_spec h.inv.tables h.root h2
  have o1 := hfind (Grown.refl _ _) h.inv.tables h.owns h2
  unfold Vmm.mapLoop at h3
  obtain ⟨⟨pt', v₃⟩, h4, h3⟩ := Option.bind_eq_some_iff.1 h3
  obtain rfl := Option.some.inj h3
  refine Owns.setEntry ?_ _ _ _
  split_ifs at h4
  · exact hfind e1.grown e1.tables o1 h4
  · obtain ⟨-, rfl⟩ := Prod.mk.inj (Option.some.inj h4)
    exact o1

/-- **A page is copied.** -/
theorem CopyOwns.copyPage {e N : ℕ} (h : CopyOwns U r z) (hN : N < userHalf)
    (hm : z.copyPage r e (N * 0x1000) = some z') : CopyOwns U r z' := by
  unfold Spaces.copyPage at hm
  obtain ⟨z₁, h1, hm⟩ := Option.bind_eq_some_iff.1 hm
  obtain ⟨z₂, h2, hm⟩ := Option.bind_eq_some_iff.1 hm
  obtain ⟨z₃, h3, rfl⟩ := Option.map_eq_some_iff.1 hm
  have c1 := h.mapMemory (Or.inr rfl) h1
  have c2 : CopyOwns U r z₁.allocpp.2 := c1.keeps (keeps_allocpp c1.inv) c1.owns
  have c3 := c2.mapMemory (Or.inl (by unfold userHalf at hN ⊢; omega)) h2
  have c4 := c3.mapMemory (Or.inr rfl) h3
  exact c4.keeps (c4.inv.congr rfl rfl rfl rfl) c4.owns

/-- **The four loops.** -/
theorem CopyOwns.copyPml4t (h : CopyOwns U ret z) (hm : z.copyPml4t ret P = some z') : CopyOwns U ret z' := by
  refine foldlM_inv (J := CopyOwns U ret) (fun z i z' hi h hm => ?_) h hm
  have hi := List.mem_range.1 hi
  dsimp only at hm
  split_ifs at hm
  · exact Option.some.inj hm ▸ h
  refine foldlM_inv (J := CopyOwns U ret) (fun z j z' hj h hm => ?_) h hm
  have hj := List.mem_range.1 hj
  dsimp only at hm
  split_ifs at hm
  · exact Option.some.inj hm ▸ h
  refine foldlM_inv (J := CopyOwns U ret) (fun z k z' hk h hm => ?_) h hm
  have hk := List.mem_range.1 hk
  dsimp only at hm
  split_ifs at hm
  · exact Option.some.inj hm ▸ h
  refine foldlM_inv (J := CopyOwns U ret) (fun z l z' hl h hm => ?_) h hm
  have hl := List.mem_range.1 hl
  dsimp only at hm
  split_ifs at hm
  · exact Option.some.inj hm ▸ h
  · exact h.copyPage (by unfold userHalf; omega) hm

section NewRoot

variable {k₀ k j a : ℕ}

/-- A new PML4T has no other structure below its user half. -/
theorem NewRoot.sub_iff (h : NewRoot v v' k r j) (hT : Tables R s v) (hk₀ : R k₀) (hk : v.kids k₀ 511 = some k) :
    Sub v' r 511 3 a ↔ a = r := by
  constructor
  · rintro ⟨q, hf, hl, hw⟩
    rcases IsForest.walk_adopt (h.adopt hk) (h.notNode hT) hk₀ hl hw with ⟨-, h⟩ | ⟨q, rfl, -⟩
    · exact h
    · exact absurd (hf 511 rfl) (by omega)
  · rintro rfl
    exact ⟨[], first_nil _, Nat.zero_le _, rfl⟩

/-- The structures of the kernel are at the same paths. -/
theorem NewRoot.walk_kernel (h : NewRoot v v' k r j) (hT : Tables R s v) (hk₀ : R k₀) (hk : v.kids k₀ 511 = some k)
    (hp : p.length ≤ 2) : walk v'.kids r (511 :: p) = walk v.kids k₀ (511 :: p) := by
  have hA := h.adopt hk
  have hr := h.notNode hT
  have hne : k₀ ≠ r := fun e => hr ⟨k₀, [], hk₀, Nat.zero_le _, by rw [e]; rfl⟩
  have hlen : (511 :: p).length ≤ 3 := Nat.succ_le_succ hp
  rw [← hA.walk_eq hr hk₀ _ hlen, walk_cons, walk_cons, hA.new, hA.same k₀ 511 hne]

/-- It owns itself. -/
theorem NewRoot.owns (h : NewRoot v v' k r j) (hT : Tables R s v) (hk₀ : R k₀) (hk : v.kids k₀ 511 = some k) :
    Owns (fun j => test v.pageHeapBitmap j = true) r v' := by
  have hfree := mem_freeSlots.1 h.free
  refine ⟨fun i => ?_, fun i _ hu => ?_⟩
  · rw [h.sub_iff hT hk₀ hk, h.bitmap, test_mark, Bool.or_eq_true, decide_eq_true_eq, h.pageStructAt, h.length_eq, h.slot]
    constructor
    · rintro (rfl | hi)
      · exact Or.inr ⟨hfree.1, rfl⟩
      · exact Or.inl hi
    · rintro (hi | ⟨-, he⟩)
      · exact Or.inr hi
      · exact Or.inl (pageStructAt_inj he)
  · rw [h.sub_iff hT hk₀ hk, h.pageStructAt, h.slot]
    intro he
    obtain rfl := pageStructAt_inj he
    rw [hu] at hfree
    cases hfree.2

end NewRoot

/-- A new address space owns its PML4T, and shares the window. -/
theorem newPml4t_owns (h : SpaceInv z) (hwin : walk z.vmm.kids z.kpml4 (path windowVp) ≠ none)
    (hm : z.newPml4t = some (ret, z₀)) : CopyOwns (fun j => test z.vmm.pageHeapBitmap j = true) ret z₀ := by
  have hK : z.Root z.kpml4 := Or.inl rfl
  obtain ⟨hk, -⟩ := h.kernel _ hK
  have hS := newPml4t_spec h hm
  obtain ⟨v, j, rfl, hN⟩ := h.newRoot hm
  have hpath : path windowVp = 511 :: [windowVp / 512 ^ 2 % 512, windowVp / 512 % 512] := by decide
  refine ⟨hS.inv, Or.inr hS.mem, ?_, hN.owns h.tables hK hk⟩
  rw [hpath] at hwin ⊢
  exact (hN.walk_kernel h.tables hK hk (by decide)).trans_ne hwin

/-- **The structures that a copy takes are its own**, when the window had its page table before. -/
theorem copyAddrSpace_owns (h : SpaceInv z) (hP : z.Root P) (hwin : walk z.vmm.kids z.kpml4 (path windowVp) ≠ none)
    (hm : z.copyAddrSpace P = some (ret, z')) : CopyOwns (fun j => test z.vmm.pageHeapBitmap j = true) ret z' := by
  unfold Spaces.copyAddrSpace at hm
  rw [if_neg (h.tables.root P hP)] at hm
  obtain ⟨⟨r, z₀⟩, h1, hm⟩ := Option.bind_eq_some_iff.1 hm
  obtain ⟨z₁, h2, hm⟩ := Option.bind_eq_some_iff.1 hm
  obtain ⟨z₂, h3, hm⟩ := Option.map_eq_some_iff.1 hm
  obtain ⟨rfl, rfl⟩ := Prod.mk.inj hm
  have c1 := (newPml4t_owns h hwin h1).copyPml4t h2
  obtain ⟨hk, -⟩ := unmapMemory_keeps c1.inv c1.root h3
  refine c1.keeps hk ?_
  obtain ⟨⟨st, v⟩, hv, rfl⟩ := Option.map_eq_some_iff.1 h3
  exact c1.owns.unmapMemory hv

/-! ## The copy is reclaimed -/

/-- Both bitmaps are as they were. -/
structure Restored (z z' : Spaces) : Prop where
  pages : ∀ q, test z'.mem.bitmap q = test z.mem.bitmap q
  structs : ∀ j, test z'.vmm.pageHeapBitmap j = test z.vmm.pageHeapBitmap j

/-- The copy maps the pages that the loops miss where the original does. -/
theorem missed_congr {r r' : ℕ} (h : ∀ vp < userHalf, (flat v' r' vp ≠ 0 ↔ flat v r vp ≠ 0)) (hvp : vp < userHalf) :
    Missed v' r' vp ↔ Missed v r vp := by
  unfold Missed
  refine and_congr_right fun _ => exists_congr fun l => and_congr_right fun hl => h _ ?_
  unfold userHalf at hvp ⊢
  omega

/-- The pages of the copy `ret`, by those of the original `P`. -/
structure CopyPages (z : Spaces) (P ret : ℕ) (z' : Spaces) : Prop where
  mapped : ∀ vp < userHalf, (flat z'.vmm ret vp ≠ 0 ↔ flat z.vmm P vp ≠ 0)
  frame : ∀ vp < userHalf, flat z.vmm P vp ≠ 0 → ∃ pp, flat z'.vmm ret vp = pp * 0x1000 + 7 ∧
    isppValid z.mem pp = true ∧ test z.mem.bitmap pp = false
  inj : ∀ vp < userHalf, ∀ vp' < userHalf, flat z.vmm P vp ≠ 0 → flat z.vmm P vp' ≠ 0 →
    flat z'.vmm ret vp = flat z'.vmm ret vp' → vp = vp'
  valid_eq : ∀ q, isppValid z'.mem q = isppValid z.mem q
  taken : ∀ q, test z'.mem.bitmap q = true ↔ test z.mem.bitmap q = true ∨
    ∃ vp < userHalf, flat z.vmm P vp ≠ 0 ∧ flat z'.vmm ret vp = q * 0x1000 + 7

theorem Copied.copyPages (h : Copied z₀ P ret userHalf z') (hb : Begun z ret z₀) (hP : z.Root P) :
    CopyPages z P ret z' := by
  have hflat : ∀ vp, flat z₀.vmm P vp = flat z.vmm P vp := fun vp => hb.others P vp hP
  refine ⟨(h.privateCopy hb hP).mapped, fun vp hvp hne => ?_, fun vp hvp vp' hvp' hne hne' => ?_, fun q => ?_, fun q => ?_⟩
  · rw [← hflat] at hne
    obtain ⟨pp, -, h1, h2, -⟩ := h.copy vp hvp hne
    rw [hb.mem_eq] at h2
    obtain ⟨h3, h4⟩ := isppUsed_eq_zero_iff.1 h2
    exact ⟨pp, h1, h3, h4⟩
  · rw [← hflat] at hne hne'
    exact h.inj vp hvp vp' hvp' hne hne'
  · rw [h.valid_eq, hb.mem_eq]
  · refine (h.taken q).trans ?_
    rw [hb.mem_eq]
    refine or_congr Iff.rfl (exists_congr fun vp => and_congr_right fun _ => ?_)
    rw [hflat]

/-- A frame that is freed was free before the copy. -/
theorem CopyPages.free_of_sub {q : ℕ} (h : CopyPages z P ret z')
    (hs : SubPages z'.vmm ret 511 3 (fun q => q.headD 0) q) : test z.mem.bitmap q = false := by
  obtain ⟨vp, hvp, hne, -, he⟩ := subPages_iff.1 hs
  obtain ⟨pp, h1, -, h3⟩ := h.frame vp hvp ((h.mapped vp hvp).1 hne)
  obtain rfl : pp = q := by omega
  exact h3

/-- The frame of a page of the copy is freed exactly when the loops do not miss the page. -/
theorem CopyPages.sub_iff {vp q : ℕ} (h : CopyPages z P ret z') (hvp : vp < userHalf) (hne : flat z.vmm P vp ≠ 0)
    (hq : flat z'.vmm ret vp = q * 0x1000 + 7) :
    SubPages z'.vmm ret 511 3 (fun q => q.headD 0) q ↔ ¬ Missed z.vmm P vp := by
  rw [subPages_iff, ← missed_congr h.mapped hvp]
  constructor
  · -- frames are apart, so it is this page that was visited
    rintro ⟨vp', hvp', hne', hm, he⟩
    have hne₀ := (h.mapped vp' hvp').1 hne'
    obtain ⟨pp, h1, -⟩ := h.frame vp' hvp' hne₀
    have hpp : pp = q := by omega
    obtain rfl := h.inj vp' hvp' vp hvp hne₀ hne (by rw [h1, hq, hpp])
    exact hm
  · exact fun hm => ⟨vp, hvp, (h.mapped vp hvp).2 hne, hm, by omega⟩

/-- **A copy that is reclaimed at once** restores both bitmaps exactly when it maps no page that the loops miss. -/
theorem copy_reclaim_iff (h : SpaceInv z) (hP : z.Root P) (hcr : z.Root z.cr3)
    (hused : ∀ vp < userHalf, flat z.vmm P vp ≠ 0 → isppUsed z.mem (frame (flat z.vmm P vp)) ≠ 0)
    (hfree : (rest z P 0).card ≤ (freePages z.mem).card)
    (hwin : walk z.vmm.kids z.kpml4 (path windowVp) ≠ none) (hm : z.copyAddrSpace P = some (ret, z')) :
    Restored z (z'.reclaim ret) ↔ ∀ vp < userHalf, flat z.vmm P vp ≠ 0 → ¬ Missed z.vmm P vp := by
  obtain ⟨z₀, hb, hC⟩ := (copyAddrSpace_copied h hP hcr hused hfree).1 (ret, z') hm
  have hpages := hC.copyPages hb hP
  have hO := copyAddrSpace_owns h hP hwin hm
  have hF := reclaim_frees z'.vmm z' ret (fun _ _ => rfl) (hO.inv.tables.treeAt hO.root)
  dsimp only at hpages hF
  generalize z'.reclaim ret = z'' at hF ⊢
  constructor
  · intro hR vp hvp hne
    obtain ⟨pp, h1, -, h3⟩ := hpages.frame vp hvp hne
    rw [← hpages.sub_iff hvp hne h1]
    have hset := (hpages.taken pp).2 (Or.inr ⟨vp, hvp, hne, h1⟩)
    have hclear := (hR.pages pp).trans h3
    rw [← Bool.not_eq_true, hF.page, not_and_not_right] at hclear
    exact (hclear hset).2
  · intro hnone
    refine ⟨fun q => ?_, fun j => ?_⟩
    · rw [Bool.eq_iff_iff, hF.page, hpages.taken]
      constructor
      · rintro ⟨hq | ⟨vp, hvp, hne, he⟩, hnot⟩
        · exact hq
        · obtain ⟨pp, h1, h2, -⟩ := hpages.frame vp hvp hne
          obtain rfl : pp = q := by omega
          exact absurd ⟨(hpages.valid_eq pp).trans h2, (hpages.sub_iff hvp hne he).2 (hnone vp hvp hne)⟩ hnot
      · intro hq
        refine ⟨Or.inl hq, fun hs => ?_⟩
        rw [hpages.free_of_sub hs.2] at hq
        cases hq
    · rw [Bool.eq_iff_iff, hF.slot, hO.owns.bits]
      constructor
      · rintro ⟨hu | hs, hnot⟩
        · exact hu
        · exact absurd hs hnot
      · exact fun hu => ⟨Or.inl hu, fun hs => hO.owns.apart j hs.1 hu hs.2⟩

/-- **When the end of a task reclaims an address space.** It does so exactly when its loops miss no page in use; and a
copy that is reclaimed restores both bitmaps exactly when they miss no page of the original. -/
theorem exit_reclaims_iff (z : Spaces) (r : ℕ) :
    (TreeAt z.vmm r 511 3 → DistinctFrames z.vmm r → (Reclaimed z r (z.reclaim r) ↔
      ∀ vp < userHalf, flat z.vmm r vp ≠ 0 → Missed z.vmm r vp → isppUsed z.mem (flat z.vmm r vp / 0x1000) ≠ 1)) ∧
    (SpaceInv z → z.Root r → z.Root z.cr3 →
      (∀ vp < userHalf, flat z.vmm r vp ≠ 0 → isppUsed z.mem (frame (flat z.vmm r vp)) ≠ 0) →
      (rest z r 0).card ≤ (freePages z.mem).card → walk z.vmm.kids z.kpml4 (path windowVp) ≠ none →
      ∀ Q z', z.copyAddrSpace r = some (Q, z') → (Restored z (z'.reclaim Q) ↔
        ∀ vp < userHalf, flat z.vmm r vp ≠ 0 → ¬ Missed z.vmm r vp)) :=
  ⟨reclaim_iff, fun h hr hcr hused hfree hwin _ _ hm => copy_reclaim_iff h hr hcr hused hfree hwin hm⟩

/-- An address space with its two stacks is copied, and the copy is reclaimed. -/
theorem exit_reclaims_iff_stacks : ∃ z P Q z', z.copyAddrSpace P = some (Q, z') ∧ flat z'.vmm Q stackPage ≠ 0 ∧
    Restored z (z'.reclaim Q) ∧ Reclaimed z' Q (z'.reclaim Q) := by
  -- the kernel has started, and the window has its page table
  obtain ⟨w, hw⟩ := Option.isSome_iff_exists.1 (show
    (bootedSpaces.mapMemory 0x500000 WINDOW 1 bootedSpaces.kpml4 0).isSome = true by decide +kernel)
  have hO : OnePage bootedSpaces w bootedSpaces.kpml4 windowVp (frame 0x500000) 0 :=
    (mapOne_yields 0x500000 WINDOW 0 spaceInit_bootedSpaces.inv (Or.inl rfl) (by decide)).1 w hw
  have hcard := hO.slots
  rw [card_freeSlots_bootedSpaces] at hcard
  have hy := createAddressSpace_yields hO.keeps.inv
  obtain ⟨⟨P, z⟩, hz⟩ := hy.2 (by omega)
  have hC : SpaceCreated w P z := hy.1 _ hz
  obtain ⟨hcr, hused, hrest, hfree⟩ := hC.copyable hO.mem_eq
    (by rw [hO.cr3_eq, hO.keeps.root]; exact Or.inl rfl)
  have hP : z.Root P := Or.inr hC.space.mem
  have hslots := hC.slots
  obtain ⟨⟨Q, z'⟩, hm⟩ := (copyAddrSpace_copied hC.space.inv hP hcr hused hfree).2 (by omega)
  have hprivate := copyAddrSpace_private hC.space.inv hP hcr hused hfree hm
  have hwin : walk z.vmm.kids z.kpml4 (path windowVp) ≠ none := by
    intro hnone
    have he : flat z.vmm w.kpml4 windowVp = 0x500003 := by
      rw [hC.others _ _ (Or.inl rfl), hO.keeps.kpml4_eq]
      exact hO.entry
    rw [← hC.space.kpml4_eq, flat_of_none hnone] at he
    cases he
  have hO' := copyAddrSpace_owns hC.space.inv hP hwin hm
  -- the stacks are in the tables' entries 1 and 511, and their PDPT is at 510
  have hnone : ∀ vp < userHalf, flat z.vmm P vp ≠ 0 → ¬ Missed z.vmm P vp := by
    rintro vp hvp hne ⟨he, -⟩
    by_cases h1 : vp = userStackPage
    · subst h1
      exact absurd he (by decide)
    · by_cases h2 : vp = stackPage
      · subst h2
        exact absurd he (by decide)
      · exact hne (hC.zero vp hvp h1 h2)
  have hstack : flat z.vmm P stackPage ≠ 0 := by
    rw [hC.kernelStack]
    omega
  refine ⟨z, P, Q, z', hm, (hprivate.mapped _ (by decide)).2 hstack,
    ((exit_reclaims_iff z P).2 hC.space.inv hP hcr hused hfree hwin Q z' hm).2 hnone,
    ((exit_reclaims_iff z' Q).1 (hO'.inv.tables.treeAt hO'.root) ?_).2 fun vp hvp hne hmiss => ?_⟩
  · refine fun vp hvp vp' hvp' hne hne' he => hprivate.distinct vp hvp vp' hvp' hne hne' ?_
    unfold frame
    omega
  · exact absurd ((missed_congr hprivate.mapped hvp).1 hmiss) (hnone vp hvp ((hprivate.mapped vp hvp).1 hne))

/-- An address space with two pages, from `0x8000000000` on, and its structures. -/
def pairSpaces : Spaces :=
  ((bootedSpaces.allocpps 2).2.newPml4t.bind fun (r, z) => z.mapMemory 0x400000 0x8000000000 2 r 1).getD bootedSpaces

/-- **The second page is not reclaimed**: it is the entry 1 of its table, below the entry 1 of the PML4T, which was
cleared with the first page. -/
theorem exit_reclaims_pair : TreeAt pairSpaces.vmm 0xFFFFFFFF90002000 511 3 ∧
    DistinctFrames pairSpaces.vmm 0xFFFFFFFF90002000 ∧
    ¬ Reclaimed pairSpaces 0xFFFFFFFF90002000 (pairSpaces.reclaim 0xFFFFFFFF90002000) := by
  have hz : ((bootedSpaces.allocpps 2).2.newPml4t.bind fun (r, z) => z.mapMemory 0x400000 0x8000000000 2 r 1) =
      some pairSpaces := (Option.getD_of_ne_none (by decide +kernel) _).symm
  have hused : isppUsed pairSpaces.mem 0x401 = 1 := by decide +kernel
  generalize pairSpaces = z at hz hused ⊢
  have hroot : ((bootedSpaces.allocpps 2).2.newPml4t.map Prod.fst) = some 0xFFFFFFFF90002000 := by decide +kernel
  obtain ⟨⟨r, z₀⟩, h1, h2⟩ := Option.bind_eq_some_iff.1 hz
  rw [h1] at hroot
  obtain rfl : r = 0xFFFFFFFF90002000 := Option.some.inj hroot
  have hB : Begun (bootedSpaces.allocpps 2).2 0xFFFFFFFF90002000 z₀ :=
    (newPml4t_yields (keeps_allocpps spaceInit_bootedSpaces.inv 2).inv).1 _ h1
  have hr : z₀.Root 0xFFFFFFFF90002000 := Or.inr hB.space.mem
  obtain ⟨⟨st, v⟩, hv, rfl⟩ := Option.map_eq_some_iff.1 h2
  obtain ⟨-, hM⟩ := mapMemory_spec hB.space.inv.tables hr hv
  have hpages : ∀ vp < userHalf, flat v 0xFFFFFFFF90002000 vp ≠ 0 → vp = 512 ^ 3 ∨ vp = 512 ^ 3 + 1 := by
    intro vp hvp hne
    by_contra hc
    refine hne ((hM.outside _ vp hr (Or.inl (by omega))).trans (hB.zero vp hvp))
  have e0 : flat v 0xFFFFFFFF90002000 (512 ^ 3) = 0x400007 := hM.inside 0 (by decide)
  have e1 : flat v 0xFFFFFFFF90002000 (512 ^ 3 + 1) = 0x401007 := hM.inside 1 (by decide)
  have ht : TreeAt v 0xFFFFFFFF90002000 511 3 := hM.tables.treeAt hr
  have hd : DistinctFrames v 0xFFFFFFFF90002000 := by
    intro vp hvp vp' hvp' hne hne' he
    rcases hpages vp hvp hne with rfl | rfl <;> rcases hpages vp' hvp' hne' with rfl | rfl
    · rfl
    · rw [e0, e1] at he
      cases he
    · rw [e0, e1] at he
      cases he
    · rfl
  refine ⟨ht, hd, fun hR => (reclaim_iff ht hd).1 hR (512 ^ 3 + 1) (by decide) ?_ ⟨by decide, 0, by decide, ?_⟩ ?_⟩
  · exact e1.trans_ne (by decide)
  · exact e0.trans_ne (by decide)
  · show isppUsed z₀.mem (flat v _ _ / 0x1000) = 1
    rw [e1]
    exact hused

end Nettapus
