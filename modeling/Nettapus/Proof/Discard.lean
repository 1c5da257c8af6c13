import Nettapus.Code.Life
import Nettapus.Proof.ExitCopy
import Nettapus.Proof.Mmu

/-!
# The forest without an address space

When the terminator reclaims an address space, the structures of the others are where they were: they share the PDPT of
the kernel with it, which the loops leave out. So `SpaceInv` and the wires are kept, and the page maps of the others;
the pages that are freed are pages of the user half that the address space had (`discard_spec`).
-/

namespace Nettapus

open Forest Bitmap Runs

variable {z z' z₁ z₂ : Spaces} {r r' t i n vp : ℕ} {p q : List ℕ}

/-! ## What reclaiming leaves alone -/

/-- Neither contents of pages, nor what is loaded, nor where things are. -/
structure Beside (z z' : Spaces) : Prop where
  page_eq : z'.page = z.page
  cr3_eq : z'.cr3 = z.cr3
  kpml4_eq : z'.kpml4 = z.kpml4
  kFirstPdpt_eq : z'.kFirstPdpt = z.kFirstPdpt
  spaces_eq : z'.spaces = z.spaces
  phys_eq : z'.vmm.pageHeapPhys = z.vmm.pageHeapPhys

theorem Beside.refl (z : Spaces) : Beside z z := ⟨rfl, rfl, rfl, rfl, rfl, rfl⟩

theorem Beside.trans (h : Beside z z₁) (h' : Beside z₁ z₂) : Beside z z₂ :=
  ⟨h'.page_eq.trans h.page_eq, h'.cr3_eq.trans h.cr3_eq, h'.kpml4_eq.trans h.kpml4_eq,
    h'.kFirstPdpt_eq.trans h.kFirstPdpt_eq, h'.spaces_eq.trans h.spaces_eq, h'.phys_eq.trans h.phys_eq⟩

theorem beside_foldl {f : Spaces → ℕ → Spaces} (hf : ∀ z k, Beside z (f z k)) (l : List ℕ) (z : Spaces) :
    Beside z (l.foldl f z) := by
  induction l generalizing z with
  | nil => exact Beside.refl z
  | cons k l ih => exact (hf z k).trans (ih (f z k))

theorem beside_freePageStruct (z : Spaces) (ps : ℕ) : Beside z (z.freePageStruct ps) := by
  refine ⟨rfl, rfl, rfl, rfl, rfl, ?_⟩
  show (z.vmm.freePageStruct ps).pageHeapPhys = _
  by_cases h : ∃ k < z.vmm.pageHeapBitmapLength * 8, z.vmm.pageStructAt k = ps
  · obtain ⟨k, hk, rfl⟩ := h
    rw [freePageStruct_at hk]
  · push Not at h
    rw [freePageStruct_none h]

theorem beside_reclaimTable (z : Spaces) (i pt : ℕ) : Beside z (z.reclaimTable i pt) := by
  refine (beside_foldl (fun z l => ?_) _ z).trans (beside_freePageStruct _ pt)
  unfold Spaces.reclaimEntry
  dsimp only
  split_ifs
  · exact Beside.refl z
  · exact ⟨rfl, rfl, rfl, rfl, rfl, rfl⟩

theorem beside_reclaimBelow {f : Spaces → ℕ → ℕ → Spaces} (hf : ∀ z k c, Beside z (f z k c)) (n t : ℕ) (z : Spaces) :
    Beside z (z.reclaimBelow f n t) := by
  have hclear : ∀ z : Spaces, Beside z (z.clearPageStruct t) := fun z => ⟨rfl, rfl, rfl, rfl, rfl, rfl⟩
  refine (beside_foldl (fun z k => ?_) _ z).trans ((hclear _).trans (beside_freePageStruct _ t))
  dsimp only
  split_ifs
  · exact Beside.refl z
  · exact hf z k _

theorem beside_reclaim (z : Spaces) (r : ℕ) : Beside z (z.reclaim r) := by
  refine beside_reclaimBelow (fun z i pdpt => ?_) 511 r z
  refine beside_reclaimBelow (fun z _ pd => ?_) 512 pdpt z
  exact beside_reclaimBelow (fun z _ pt => beside_reclaimTable z i pt) 512 pd z

/-! ## The others -/

/-- A frame is in use, as `isppUsed` says: it is taken, or none that there is. -/
def Spaces.Used (z : Spaces) (q : ℕ) : Prop := isppUsed z.mem q ≠ 0

theorem used_iff {q : ℕ} : z.Used q ↔ (isppValid z.mem q = true → test z.mem.bitmap q = true) := by
  unfold Spaces.Used
  rw [Ne, isppUsed_eq_zero_iff, not_and, Bool.not_eq_false]
  exact Iff.rfl

/-- **No structure of another root** is one that is reclaimed. -/
theorem SpaceInv.not_sub (h : SpaceInv z) (hr : z.Root r) (hr' : z.Root r') (hne : r' ≠ r) (hp : p.length ≤ 3)
    (ht : walk z.vmm.kids r' p = some t) : ¬ Sub z.vmm r 511 3 t := by
  rintro ⟨q, hf, hq, hw⟩
  obtain ⟨rfl, he | hs⟩ := h.tables.forest hr' hr hp hq ht hw
  · exact hne he
  · cases p with
    | nil => exact hs
    | cons k p =>
      have hk : k = 511 := hs
      exact absurd (hf k rfl) (by omega)

/-- `z'` is `z` without the address space `r`. -/
structure Discarded (z z' : Spaces) (r : ℕ) : Prop where
  inv : SpaceInv z'
  beside : z'.page = z.page ∧ z'.cr3 = z.cr3 ∧ z'.kpml4 = z.kpml4 ∧ z'.kFirstPdpt = z.kFirstPdpt
  root : ∀ r', z'.Root r' ↔ z.Root r' ∧ r' ≠ r
  spaces : ∀ r', r' ∈ z'.spaces ↔ r' ∈ z.spaces ∧ r' ≠ r
  walk_eq : ∀ r' p, z'.Root r' → p.length ≤ 3 → walk z'.vmm.kids r' p = walk z.vmm.kids r' p
  tab_eq : ∀ r' p t, z'.Root r' → p.length ≤ 3 → walk z.vmm.kids r' p = some t → z'.vmm.tab t = z.vmm.tab t
  heap : z'.vmm.pageHeapBegin = z.vmm.pageHeapBegin ∧ z'.vmm.pageHeapPhys = z.vmm.pageHeapPhys ∧
    z'.vmm.pageHeapBitmapLength = z.vmm.pageHeapBitmapLength
  valid_eq : ∀ q, isppValid z'.mem q = isppValid z.mem q
  used : ∀ q, z.Used q → z'.Used q ∨ ∃ vp < userHalf, flat z.vmm r vp ≠ 0 ∧ flat z.vmm r vp / 0x1000 = q

theorem Discarded.kids_eq (h : Discarded z z' r) (hr' : z'.Root r') (hp : p.length ≤ 3)
    (ht : walk z.vmm.kids r' p = some t) (i : ℕ) : z'.vmm.kids t i = z.vmm.kids t i :=
  kids_congr (by rw [h.tab_eq r' p t hr' hp ht])

theorem Discarded.flat_eq (h : Discarded z z' r) (hr' : z'.Root r') (vp : ℕ) : flat z'.vmm r' vp = flat z.vmm r' vp := by
  have hw := h.walk_eq r' (path vp) hr' le_rfl
  cases ha : walk z.vmm.kids r' (path vp) with
  | none => rw [flat_of_none ha, flat_of_none (hw.trans ha)]
  | some a => rw [flat_of_walk ha, flat_of_walk (hw.trans ha), h.tab_eq r' _ a hr' le_rfl ha]

theorem Discarded.node (h : Discarded z z' r) {a : ℕ} (ha : Node z'.vmm.kids z'.Root 3 a) :
    ∃ r' p, z'.Root r' ∧ p.length ≤ 3 ∧ walk z.vmm.kids r' p = some a := by
  obtain ⟨r', p, hr', hp, hw⟩ := ha
  exact ⟨r', p, hr', hp, (h.walk_eq r' p hr' hp).symm.trans hw⟩

/-- **An address space is given up.** -/
theorem discard_spec (h : SpaceInv z) (hr : r ∈ z.spaces) (hk : z.kpml4 ≠ r) : Discarded z (z.discard r) r := by
  have hR : z.Root r := Or.inr hr
  have hF : FreedOnly (Sub z.vmm r 511 3) (SubPages z.vmm r 511 3 fun q => q.headD 0) z (z.reclaim r) :=
    reclaim_frees z.vmm z r (fun _ _ => rfl) (h.tables.treeAt hR)
  have hB := beside_reclaim z r
  unfold Spaces.discard
  generalize z.reclaim r = w at hF hB ⊢
  have hspaces : ∀ r', r' ∈ z.spaces.filter (· ≠ r) ↔ r' ∈ z.spaces ∧ r' ≠ r := by simp
  have hroot : ∀ r', Spaces.Root { w with spaces := z.spaces.filter (· ≠ r) } r' ↔ z.Root r' ∧ r' ≠ r := by
    intro r'
    unfold Spaces.Root
    dsimp only
    rw [hspaces, hB.kpml4_eq]
    constructor
    · rintro (rfl | ⟨h1, h2⟩)
      · exact ⟨Or.inl rfl, hk⟩
      · exact ⟨Or.inr h1, h2⟩
    · rintro ⟨rfl | h1, h2⟩
      · exact Or.inl rfl
      · exact Or.inr ⟨h1, h2⟩
  have htab : ∀ {r' p t}, z.Root r' ∧ r' ≠ r → p.length ≤ 3 → walk z.vmm.kids r' p = some t → w.vmm.tab t = z.vmm.tab t :=
    fun hr' hp ht => hF.tab _ (h.not_sub hR hr'.1 hr'.2 hp ht)
  have hwalk : ∀ r' p, z.Root r' ∧ r' ≠ r → p.length ≤ 3 → walk w.vmm.kids r' p = walk z.vmm.kids r' p := by
    intro r' p hr'
    -- from the root down
    induction p using List.reverseRecOn with
    | nil => exact fun _ => rfl
    | append_singleton p i ih =>
      intro hp
      rw [List.length_append, List.length_singleton] at hp
      rw [walk_snoc, walk_snoc, ih (by omega)]
      cases ha : walk z.vmm.kids r' p with
      | none => rfl
      | some a => exact kids_congr (by rw [htab hr' (by omega) ha])
  have hkids : ∀ {r' p t}, z.Root r' ∧ r' ≠ r → p.length ≤ 3 → walk z.vmm.kids r' p = some t → ∀ i,
      w.vmm.kids t i = z.vmm.kids t i := fun hr' hp ht i => kids_congr (by rw [htab hr' hp ht])
  refine ⟨⟨⟨fun r₁ r₂ p q n h1 h2 hp hq w1 w2 => ?_, fun r' hr' => h.tables.root r' ((hroot r').1 hr').1,
      fun r' p t i n hr' hp ht hn => ?_, fun j hj hnode => ?_, ?_, ?_, ?_⟩, fun r' hr' => ?_, fun r' hr' p t i n hp ht hn hi => ?_⟩,
    ⟨hB.page_eq, hB.cr3_eq, hB.kpml4_eq, hB.kFirstPdpt_eq⟩, hroot, hspaces,
    fun r' p hr' hp => hwalk r' p ((hroot r').1 hr') hp, fun r' p t hr' hp ht => htab ((hroot r').1 hr') hp ht,
    ⟨hF.begin_eq, hB.phys_eq, hF.length_eq⟩, hF.valid_eq, fun q hq => ?_⟩
  · rw [hwalk r₁ p ((hroot _).1 h1) hp] at w1
    rw [hwalk r₂ q ((hroot _).1 h2) hq] at w2
    exact h.tables.forest ((hroot _).1 h1).1 ((hroot _).1 h2).1 hp hq w1 w2
  · have hr' := (hroot r').1 hr'
    rw [hwalk r' p hr' hp.le] at ht
    rw [hkids hr' hp.le ht] at hn
    have hw := walk_snoc_eq_some.2 ⟨t, ht, hn⟩
    have hlen : (p ++ [i]).length ≤ 3 := by simp; omega
    unfold Carries Vmm.physAt
    dsimp only
    rw [htab hr' hp.le ht, htab hr' hlen hw]
    exact h.tables.carries r' p t i n hr'.1 hp ht hn
  · obtain ⟨r', p, hr', hp, hw⟩ := hnode
    have hr' := (hroot r').1 hr'
    rw [hwalk r' p hr' hp] at hw
    dsimp only at hw hj
    rw [hF.pageStructAt_eq] at hw
    obtain ⟨hj1, hj2⟩ := mem_freeSlots.1 hj
    rw [hF.length_eq] at hj1
    -- the slot was free before, or is one of those that were freed
    cases hbit : test z.vmm.pageHeapBitmap j with
    | false => exact h.tables.fresh j (mem_freeSlots.2 ⟨hj1, hbit⟩) ⟨r', p, hr'.1, hp, hw⟩
    | true =>
      rw [← Bool.not_eq_true, hF.slot, not_and_not_right] at hj2
      exact h.not_sub hR hr'.1 hr'.2 hp hw (hj2 hbit).2
  · dsimp only
    rw [hF.begin_eq]
    exact h.tables.begin_pos
  · dsimp only
    rw [hB.phys_eq]
    exact h.tables.phys
  · dsimp only
    rw [hF.length_eq]
    exact h.tables.length
  · have hr' := (hroot r').1 hr'
    dsimp only
    rw [hkids hr' (Nat.zero_le _) (p := []) rfl, htab hr' (Nat.zero_le _) (p := []) rfl, hB.kFirstPdpt_eq]
    exact h.kernel r' hr'.1
  · obtain ⟨h1, h2⟩ := (hspaces r').1 hr'
    have hr' : z.Root r' ∧ r' ≠ r := ⟨Or.inr h1, h2⟩
    dsimp only at ht hn ⊢
    rw [hwalk r' p hr' hp.le] at ht
    rw [hkids hr' hp.le ht] at hn
    rw [htab hr' hp.le ht]
    exact h.opened r' h1 p t i n hp ht hn hi
  · by_cases hc : Spaces.Used { w with spaces := z.spaces.filter (· ≠ r) } q
    · exact Or.inl hc
    · right
      rw [used_iff] at hq hc
      push Not at hc
      obtain ⟨hv, hset⟩ := hc
      dsimp only at hv hset
      rw [hF.valid_eq] at hv
      rw [Ne, hF.page, not_and_not_right] at hset
      obtain ⟨vp, hvp, h0, -, he⟩ := subPages_iff.1 (hset (hq hv)).2
      exact ⟨vp, hvp, h0, he⟩

theorem Discarded.housed (h : Discarded z z' r) (hH : Housed z.Root z.vmm) : Housed z'.Root z'.vmm := by
  obtain ⟨hb, -, hl⟩ := h.heap
  intro a ha
  obtain ⟨r', p, hr', hp, hw⟩ := h.node ha
  unfold Vmm.pageHeapFirst Vmm.pageStructAt
  rw [hb, hl]
  exact hH a ⟨r', p, ((h.root r').1 hr').1, hp, hw⟩

/-- **The wires of the others stay.** -/
theorem Discarded.wired (h : Discarded z z' r) (hW : Wired z.Root z.vmm) : Wired z'.Root z'.vmm := by
  obtain ⟨hb, hp, hl⟩ := h.heap
  have hold : ∀ {r'}, z'.Root r' → z.Root r' := fun hr' => ((h.root _).1 hr').1
  refine ⟨fun r' hr' => ?_, fun r' p t i n hr' hp' ht hn => ?_, fun r' p t i n hr' hp' ht hn => ?_,
    fun r' p t i hr' hp' ht hi hn => ?_, by rw [hp]; exact hW.bound⟩
  · rw [h.tab_eq r' [] r' hr' (Nat.zero_le _) rfl]
    exact (hW.root r' (hold hr')).congr hb hp hl
  · rw [h.walk_eq r' p hr' hp'.le] at ht
    rw [h.kids_eq hr' hp'.le ht] at hn
    have hphys : z'.vmm.physAt (p.length + 1) n = z.vmm.physAt (p.length + 1) n := by
      unfold Vmm.physAt
      rw [h.tab_eq r' (p ++ [i]) n hr' (by simp; omega) (walk_snoc_eq_some.2 ⟨t, ht, hn⟩)]
    rw [hphys]
    exact (hW.child r' p t i n (hold hr') hp' ht hn).congr hb hp hl
  · rw [h.walk_eq r' p hr' hp'.le] at ht
    rw [h.kids_eq hr' hp'.le ht] at hn
    rw [h.tab_eq r' p t hr' hp'.le ht]
    exact hW.flags r' p t i n (hold hr') hp' ht hn
  · rw [h.walk_eq r' p hr' hp'.le] at ht
    rw [h.kids_eq hr' hp'.le ht] at hn
    rw [h.tab_eq r' p t hr' hp'.le ht]
    exact hW.empty r' p t i (hold hr') hp' ht hi hn

end Nettapus
