import Nettapus.Code.Space
import Nettapus.Proof.MapMemory

/-!
# What the operations on address spaces keep

* `SpaceInv`: the address spaces form a forest that shares the PDPT of the kernel; their
  last entry is closed to the user, and the structures at the other entries are open.
* `Keeps`: an operation keeps `SpaceInv` and the address spaces there are.
* `newPml4t_spec`, `createAddressSpace_spec`, `loadElf_spec`: how an address space begins, and
  how the kernel's stack is mapped in it.
-/

namespace Nettapus

open Forest Bitmap

variable {z z' z₁ z₂ : Spaces} {r r' t i n : ℕ} {p : List ℕ}

/-- The roots of the forest. -/
def Spaces.Root (z : Spaces) (r : ℕ) : Prop := r = z.kpml4 ∨ r ∈ z.spaces

/-- The page of the kernel's stack. -/
def stackPage : ℕ := KERNEL_STACK % 2 ^ 48 / 0x1000

/-- **The invariant of the address spaces.** -/
structure SpaceInv (z : Spaces) : Prop where
  tables : Tables z.Root (· = 511) z.vmm
  kernel : ∀ r, z.Root r → z.vmm.kids r 511 = some z.kFirstPdpt ∧ (z.vmm.tab r).entries 511 % 8 = 3
  opened : ∀ r ∈ z.spaces, ∀ p t i n, p.length < 3 → walk z.vmm.kids r p = some t → z.vmm.kids t i = some n →
    (p ++ [i]).head? ≠ some 511 → (z.vmm.tab t).entries i % 8 = 7

/-! ## Mapping -/

/-- `z'` has the address spaces of `z`, and the invariant. -/
structure Keeps (z z' : Spaces) : Prop where
  inv : SpaceInv z'
  kpml4_eq : z'.kpml4 = z.kpml4
  kFirstPdpt_eq : z'.kFirstPdpt = z.kFirstPdpt
  spaces_eq : z'.spaces = z.spaces
  grown : Grown z.Root z.vmm z'.vmm

theorem Keeps.root (h : Keeps z z') : z'.Root = z.Root := by
  unfold Spaces.Root
  rw [h.kpml4_eq, h.spaces_eq]

theorem SpaceInv.keeps_refl (h : SpaceInv z) : Keeps z z := ⟨h, rfl, rfl, rfl, Grown.refl _ _⟩

theorem Keeps.trans (h : Keeps z z₁) (h' : Keeps z₁ z₂) : Keeps z z₂ := by
  have hg := h'.grown
  rw [h.root] at hg
  exact ⟨h'.inv, h'.kpml4_eq.trans h.kpml4_eq, h'.kFirstPdpt_eq.trans h.kFirstPdpt_eq,
    h'.spaces_eq.trans h.spaces_eq, h.grown.trans hg⟩

/-- Growth keeps the entries of the kernel closed and the others open. -/
theorem SpaceInv.grown (h : SpaceInv z) {v : Vmm} (hT : Tables z.Root (· = 511) v)
    (hg : Grown z.Root z.vmm v) : Keeps z { z with vmm := v } := by
  refine ⟨⟨hT, fun r hr => ?_, fun r hr p t i n hp ht hn hi => ?_⟩, rfl, rfl, rfl, hg⟩
  · obtain ⟨h1, h2⟩ := h.kernel r hr
    have hk := hg.kids hr (p := []) (by decide) rfl h1
    have he := hg.kept r [] r 511 _ hr (by decide) rfl h1
    exact ⟨hk, by rw [← h2]; exact congrArg (· % 8) he⟩
  · rcases hg.flags r p t i n (Or.inr hr) hp ht hn with ⟨ht', hn'⟩ | h7
    · have he := hg.kept r p t i n (Or.inr hr) hp ht' hn'
      rw [← h.opened r hr p t i n hp ht' hn' hi]
      exact congrArg (· % 8) he
    · exact h7

/-- The memory map and the contents of pages do not matter. -/
theorem SpaceInv.congr (h : SpaceInv z) (hv : z'.vmm = z.vmm) (hk : z'.kpml4 = z.kpml4)
    (hp : z'.kFirstPdpt = z.kFirstPdpt) (hs : z'.spaces = z.spaces) : Keeps z z' := by
  have hr : z'.Root = z.Root := by
    unfold Spaces.Root
    rw [hk, hs]
  refine ⟨⟨?_, ?_, ?_⟩, hk, hp, hs, by rw [hv]; exact Grown.refl _ _⟩
  · rw [hr, hv]; exact h.tables
  · rw [hr, hv, hp]; exact h.kernel
  · rw [hs, hv]; exact h.opened

theorem keeps_allocpp (h : SpaceInv z) : Keeps z z.allocpp.2 := h.congr rfl rfl rfl rfl

theorem keeps_allocpps (h : SpaceInv z) (amount : ℕ) : Keeps z (z.allocpps amount).2 := h.congr rfl rfl rfl rfl

/-- The range covers the kernel's stack. -/
def Covers (va amount : ℕ) : Prop :=
  va % 2 ^ 48 / 0x1000 ≤ stackPage ∧ stackPage < va % 2 ^ 48 / 0x1000 + amount

instance (va amount : ℕ) : Decidable (Covers va amount) := inferInstanceAs (Decidable (_ ∧ _))

theorem pageEntry_mod (pa k u : ℕ) : Vmm.pageEntry (u64 ((pa &&& 0xFFFFFFFFFFFFF000) + k * 0x1000)) u % 8 =
    if u ≠ 0 then 7 else 3 := by
  have ha : u64 ((pa &&& 0xFFFFFFFFFFFFF000) + k * 0x1000) % 0x1000 = 0 := by
    rw [and_frame]
    unfold u64
    omega
  rw [pageEntry_aligned ha]
  split_ifs <;> omega

/-- **`map_memory` and the kernel's stack**: a range that covers it sets its flags, in this address
space only. -/
theorem mapMemory_keeps {pa va amount u : ℕ} (h : SpaceInv z) (hr : z.Root r)
    (hm : z.mapMemory pa va amount r u = some z') :
    Keeps z z' ∧ (Covers va amount → flat z'.vmm r stackPage % 8 = if u ≠ 0 then 7 else 3) ∧
      ∀ r', z.Root r' → (¬ Covers va amount ∨ r' ≠ r) → flat z'.vmm r' stackPage = flat z.vmm r' stackPage := by
  obtain ⟨⟨st, v⟩, h1, rfl⟩ := Option.map_eq_some_iff.1 hm
  obtain ⟨-, hM⟩ := mapMemory_spec h.tables hr h1
  refine ⟨h.grown hM.tables hM.grown, fun hc => ?_, fun r' hr' hc => ?_⟩
  · have hin := hM.inside (stackPage - va % 2 ^ 48 / 0x1000) (by have := hc.1; have := hc.2; omega)
    rw [Nat.add_sub_of_le hc.1] at hin
    show flat v r stackPage % 8 = _
    rw [hin]
    exact pageEntry_mod _ _ _
  · refine hM.outside r' stackPage hr' ?_
    rcases hc with hc | hc
    · left
      unfold Covers at hc
      omega
    · exact Or.inr ⟨hc, by decide⟩

/-- `unmap_memory` at the window leaves the kernel's stack alone. -/
theorem unmapMemory_keeps {amount : ℕ} (h : SpaceInv z) (hr : z.Root r)
    (hm : z.unmapMemory WINDOW amount r = some z') :
    Keeps z z' ∧ ∀ r', z.Root r' → flat z'.vmm r' stackPage = flat z.vmm r' stackPage := by
  obtain ⟨⟨st, v⟩, h1, rfl⟩ := Option.map_eq_some_iff.1 hm
  have hU := unmapMemory_spec h.tables hr h1
  exact ⟨h.grown hU.tables hU.grown, fun r' hr' => hU.outside r' stackPage hr' (Or.inl (by decide))⟩

theorem not_covers_window (amount : ℕ) : ¬ Covers WINDOW amount := by
  rintro ⟨h, -⟩
  revert h
  decide

/-! ## A new address space -/

/-- `v'` is `v` with a PML4T at `r`, from the slot `j`, whose only entry is `k`, the kernel's. -/
structure NewRoot (v v' : Vmm) (k r j : ℕ) : Prop extends SlotTaken v v' j where
  slot : r = v.pageStructAt j
  child : (v'.tab r).child = Function.update (fun _ => 0) 511 k
  entry : (v'.tab r).entries 511 = (v.tab k).physicalAddress ||| 2 ||| 1
  other : ∀ a, a ≠ r → v'.tab a = v.tab a

theorem newPml4t_cases (hk : ∀ j ∈ z.vmm.freeSlots, z.kFirstPdpt ≠ z.vmm.pageStructAt j)
    (h : z.newPml4t = some (r, z')) :
    ∃ v j, z' = { z with vmm := v, spaces := z.spaces ++ [r] } ∧ NewRoot z.vmm v z.kFirstPdpt r j := by
  unfold Spaces.newPml4t at h
  rcases allocPageStruct_spec (v := z.vmm) with ⟨j, hj, ha⟩ | ⟨ha, -⟩
  · rw [ha] at h
    dsimp only at h
    split_ifs at h with hn
    obtain ⟨rfl, rfl⟩ := Prod.mk.inj (Option.some.inj h)
    have hne := hk j hj
    refine ⟨_, j, rfl, ⟨⟨hj, rfl, rfl, rfl, rfl⟩, rfl, ?_, ?_, ?_⟩⟩
    · simp [Vmm.setEntry, Vmm.setChild]
    · simp [Vmm.setEntry, Vmm.setChild, Vmm.take, hne]
    · intro a ha
      simp [Vmm.setEntry, Vmm.setChild, Vmm.take, ha]
  · rw [ha] at h
    simp at h

/-- The PDPT of the kernel is in the forest, so a new PML4T is not it. -/
theorem SpaceInv.newRoot (h : SpaceInv z) (hm : z.newPml4t = some (r, z')) :
    ∃ v j, z' = { z with vmm := v, spaces := z.spaces ++ [r] } ∧ NewRoot z.vmm v z.kFirstPdpt r j := by
  obtain ⟨hk, -⟩ := h.kernel _ (Or.inl rfl)
  exact newPml4t_cases (h.tables.ne_slot (Or.inl rfl) (p := [511]) (by decide) (walk_singleton.trans hk)) hm

section NewRoot

variable {v v' : Vmm} {R : ℕ → Prop} {k₀ k j : ℕ}

theorem NewRoot.notNode {s : ℕ → Prop} (h : NewRoot v v' k r j) (hT : Tables R s v) : ¬ Node v.kids R 3 r := by
  rw [h.slot]
  exact hT.fresh j h.free

theorem NewRoot.adopt (h : NewRoot v v' k r j) (hk : v.kids k₀ 511 = some k) : Adopt v.kids v'.kids k₀ 511 r := by
  refine ⟨?_, fun i hi => kids_of_eq ?_, fun a i ha => kids_congr (by rw [h.other a ha])⟩
  · rw [hk]
    exact kids_eq_some.2 ⟨by decide, by rw [h.child, Function.update_self], (kids_eq_some.1 hk).2.2⟩
  · rw [h.child, Function.update_of_ne hi]
    rfl

/-- An edge below the new root is the kernel's entry, or an edge below the kernel's. -/
theorem NewRoot.edge {s : ℕ → Prop} (h : NewRoot v v' k r j) (hT : Tables R s v) (hk₀ : R k₀)
    (hk : v.kids k₀ 511 = some k) (hp : p.length < 3) (ht : walk v'.kids r p = some t) (hn : v'.kids t i = some n) :
    (p = [] ∧ t = r ∧ i = 511 ∧ n = k) ∨
      (p.head? = some 511 ∧ walk v.kids k₀ p = some t ∧ v.kids t i = some n ∧ v'.tab t = v.tab t) := by
  have hA := h.adopt hk
  have hr := h.notNode hT
  rcases IsForest.walk_adopt hA hr hk₀ hp.le ht with ⟨rfl, rfl⟩ | ⟨q, rfl, hw⟩
  · left
    by_cases hi : i = 511
    · subst hi
      rw [hA.new, hk] at hn
      exact ⟨rfl, rfl, rfl, (Option.some.inj hn).symm⟩
    · rw [hA.none i hi] at hn
      cases hn
  · have htr : t ≠ r := fun e => hr ⟨k₀, _, hk₀, hp.le, e ▸ hw⟩
    rw [hA.same t i htr] at hn
    exact Or.inr ⟨rfl, hw, hn, h.other t htr⟩

/-- The physical address of the kernel's PDPT is aligned: an entry carries it. -/
theorem Tables.aligned_kernel {s : ℕ → Prop} (hT : Tables R s v) (hk₀ : R k₀) (hk : v.kids k₀ 511 = some k) :
    (v.tab k).physicalAddress % 0x1000 = 0 := by
  have hc : Carries v 0 k₀ 511 k := hT.carries k₀ [] k₀ 511 k hk₀ (by decide) rfl hk
  unfold Carries Vmm.physAt at hc
  rw [if_neg (by decide)] at hc
  rw [← hc]
  exact Nat.mul_mod_left _ _

/-- **A new root keeps the forest.** -/
theorem NewRoot.tables (h : NewRoot v v' k r j) (hT : Tables R (· = 511) v) (hk₀ : R k₀)
    (hk : v.kids k₀ 511 = some k) : Tables (fun a => R a ∨ a = r) (· = 511) v' := by
  have hA := h.adopt hk
  have hr := h.notNode hT
  -- the only structure that is written is the new root, which was no node before
  have hphys : ∀ {r' q a}, R r' → q.length ≤ 3 → walk v.kids r' q = some a →
      ∀ level, v'.physAt level a = v.physAt level a := by
    intro r' q a hr' hq ha level
    unfold Vmm.physAt
    rw [h.other a fun e => hr ⟨r', q, hr', hq, e ▸ ha⟩]
  refine ⟨hT.forest.adopt hA hr hk₀ rfl, ?_, ?_, ?_, ?_, ?_, ?_⟩
  · rintro a (ha | rfl)
    · exact hT.root a ha
    · rw [h.slot]
      exact hT.slot_ne_null j
  · rintro r' p t i n (hr' | rfl) hp ht hn
    · rw [hA.walk_eq hr hr' p hp.le] at ht
      have htr : t ≠ r := fun e => hr ⟨r', p, hr', hp.le, e ▸ ht⟩
      rw [hA.same t i htr] at hn
      unfold Carries
      rw [h.other t htr, hphys hr' (by simp; omega) (walk_snoc_eq_some.2 ⟨t, ht, hn⟩)]
      exact hT.carries r' p t i n hr' hp ht hn
    · unfold Carries
      rcases h.edge hT hk₀ hk hp ht hn with ⟨rfl, rfl, rfl, rfl⟩ | ⟨-, hw, hn', htab⟩
      · have hal := hT.aligned_kernel hk₀ hk
        have hph : v'.physAt 1 n = (v.tab n).physicalAddress :=
          hphys (q := [511]) hk₀ (by decide) (walk_singleton.trans hk) 1
        have he : (v'.tab t).entries 511 / 0x1000 * 0x1000 = v'.physAt 1 n := by
          rw [h.entry, hph, or_three hal]
          omega
        exact he
      · rw [htab, hphys hk₀ (by simp; omega) (walk_snoc_eq_some.2 ⟨t, hw, hn'⟩)]
        exact hT.carries k₀ p t i n hk₀ hp hw hn'
  · refine h.fresh hT fun m hm => ?_
    rw [← h.slot]
    exact hA.node hr hk₀ hm
  · rw [h.begin_eq]; exact hT.begin_pos
  · rw [h.phys_eq]; exact hT.phys
  · rw [h.length_eq]; exact hT.length

/-- The pages of the other roots stay. -/
theorem NewRoot.flat_eq {s : ℕ → Prop} (h : NewRoot v v' k r j) (hT : Tables R s v)
    (hk : v.kids k₀ 511 = some k) (hr' : R r') (vp : ℕ) : flat v' r' vp = flat v r' vp := by
  have hr := h.notNode hT
  have hw := (h.adopt hk).walk_eq hr hr' (path vp) le_rfl
  cases ha : walk v.kids r' (path vp) with
  | none => rw [flat_of_none ha, flat_of_none (hw.trans ha)]
  | some a => rw [flat_of_walk ha, flat_of_walk (hw.trans ha), h.other a fun e => hr ⟨r', _, hr', le_rfl, e ▸ ha⟩]

end NewRoot

/-- `z'` is `z` with one address space more. -/
structure NewSpace (z z' : Spaces) (r : ℕ) : Prop where
  inv : SpaceInv z'
  kpml4_eq : z'.kpml4 = z.kpml4
  kFirstPdpt_eq : z'.kFirstPdpt = z.kFirstPdpt
  spaces_eq : z'.spaces = z.spaces ++ [r]
  fresh : ¬ z.Root r
  stack_eq : ∀ r', z.Root r' → flat z'.vmm r' stackPage = flat z.vmm r' stackPage

theorem NewSpace.mem (h : NewSpace z z' r) : r ∈ z'.spaces := by
  rw [h.spaces_eq]
  simp

theorem NewSpace.root (h : NewSpace z z' r) (hr : z.Root r') : z'.Root r' := by
  unfold Spaces.Root at hr ⊢
  rw [h.kpml4_eq, h.spaces_eq]
  rcases hr with hr | hr
  · exact Or.inl hr
  · exact Or.inr (by simp [hr])

/-- Operations on the new address space. -/
theorem NewSpace.trans (h : NewSpace z z₁ r) (h' : Keeps z₁ z')
    (hs : ∀ r', z.Root r' → flat z'.vmm r' stackPage = flat z₁.vmm r' stackPage) : NewSpace z z' r :=
  ⟨h'.inv, h'.kpml4_eq.trans h.kpml4_eq, h'.kFirstPdpt_eq.trans h.kFirstPdpt_eq,
    h'.spaces_eq.trans h.spaces_eq, h.fresh, fun r' hr' => (hs r' hr').trans (h.stack_eq r' hr')⟩

/-- **`create_address_space` and `copy_addr_space` begin** with a PML4T that has the kernel only. -/
theorem newPml4t_spec (h : SpaceInv z) (hm : z.newPml4t = some (r, z')) : NewSpace z z' r := by
  have hK : z.Root z.kpml4 := Or.inl rfl
  obtain ⟨hk, -⟩ := h.kernel _ hK
  obtain ⟨v, j, rfl, hN⟩ := h.newRoot hm
  have hfresh : ¬ z.Root r := fun hr => hN.notNode h.tables ⟨r, [], hr, Nat.zero_le _, rfl⟩
  have hroot : (Spaces.Root { z with vmm := v, spaces := z.spaces ++ [r] }) = fun a => z.Root a ∨ a = r := by
    funext a
    unfold Spaces.Root
    simp [or_assoc]
  refine ⟨⟨?_, ?_, ?_⟩, rfl, rfl, rfl, hfresh, fun r' hr' => hN.flat_eq h.tables hk hr' stackPage⟩
  · rw [hroot]
    exact hN.tables h.tables hK hk
  · rw [hroot]
    rintro a (ha | rfl)
    · have har : a ≠ r := fun e => hfresh (e ▸ ha)
      obtain ⟨h1, h2⟩ := h.kernel a ha
      refine ⟨((hN.adopt hk).same a 511 har).trans h1, ?_⟩
      show (v.tab a).entries 511 % 8 = 3
      rw [hN.other a har]
      exact h2
    · refine ⟨(hN.adopt hk).new.trans hk, ?_⟩
      have hal := h.tables.aligned_kernel hK hk
      show (v.tab a).entries 511 % 8 = 3
      rw [hN.entry, or_three hal]
      omega
  · intro a ha p t i n hp ht hn hi
    rcases List.mem_append.1 ha with ha | ha
    · have hA := hN.adopt hk
      have hr := hN.notNode h.tables
      have ht' : walk z.vmm.kids a p = some t := (hA.walk_eq hr (Or.inr ha) p hp.le).symm.trans ht
      have htr : t ≠ r := fun e => hr ⟨a, p, Or.inr ha, hp.le, e ▸ ht'⟩
      have hn' : z.vmm.kids t i = some n := (hA.same t i htr).symm.trans hn
      show (v.tab t).entries i % 8 = 7
      rw [hN.other t htr]
      exact h.opened a ha p t i n hp ht' hn' hi
    · obtain rfl := List.mem_singleton.1 ha
      -- the new root has the kernel's entry only
      rcases hN.edge h.tables hK hk hp ht hn with ⟨rfl, -, rfl, -⟩ | ⟨hh, -⟩
      · exact absurd rfl hi
      · refine absurd ?_ hi
        rw [List.head?_append, hh]
        rfl

/-- **`create_address_space`** maps the kernel's stack for the kernel. -/
theorem createAddressSpace_spec (h : SpaceInv z) (hm : z.createAddressSpace = some (r, z')) :
    NewSpace z z' r ∧ flat z'.vmm r stackPage % 8 = 3 := by
  unfold Spaces.createAddressSpace at hm
  obtain ⟨⟨r₁, z₁⟩, h1, hm⟩ := Option.bind_eq_some_iff.1 hm
  obtain ⟨z₂, h2, hm⟩ := Option.bind_eq_some_iff.1 hm
  obtain ⟨z₃, h3, hm⟩ := Option.map_eq_some_iff.1 hm
  obtain ⟨rfl, rfl⟩ := Prod.mk.inj hm
  have hN := newPml4t_spec h h1
  have k1 := keeps_allocpp hN.inv
  have hroot₁ : z₁.Root r₁ := Or.inr hN.mem
  obtain ⟨k2, -, s2⟩ := mapMemory_keeps k1.inv (k1.root ▸ hroot₁) h2
  have k3 := keeps_allocpp k2.inv
  have k12 := k1.trans k2
  have k13 := k12.trans k3
  obtain ⟨k4, c4, s4⟩ := mapMemory_keeps k3.inv (k13.root ▸ hroot₁) h3
  refine ⟨hN.trans (k13.trans k4) fun r' hr' => ?_, c4 (by decide)⟩
  have hr₁' := hN.root hr'
  have hne : r' ≠ r₁ := fun e => hN.fresh (e ▸ hr')
  rw [s4 r' (k13.root ▸ hr₁') (Or.inr hne)]
  exact s2 r' (k1.root ▸ hr₁') (Or.inr hne)

/-! ## `load_elf` -/

/-- The entry is a LOAD segment that covers the kernel's stack. -/
def ElfPhdrEntry.coversStack (e : ElfPhdrEntry) : Bool :=
  decide (e.segmentType = 1 ∧ Covers e.vaddr (Spaces.pageCount e))

/-- **A segment** opens the kernel's stack if it covers it, and leaves it alone if not. -/
theorem loadSegment_spec {e : ElfPhdrEntry} (h : SpaceInv z) (hr : z.Root r) (hm : z.loadSegment r e = some z') :
    Keeps z z' ∧ (e.coversStack = true → flat z'.vmm r stackPage % 8 = 7) ∧
      ∀ r', z.Root r' → (e.coversStack = false ∨ r' ≠ r) → flat z'.vmm r' stackPage = flat z.vmm r' stackPage := by
  unfold Spaces.loadSegment at hm
  split_ifs at hm with ht
  · obtain ⟨z₁, h1, hm⟩ := Option.bind_eq_some_iff.1 hm
    obtain ⟨z₂, h2, h3⟩ := Option.bind_eq_some_iff.1 hm
    have hva : u64 (e.vaddr / 0x1000 * 0x1000) % 2 ^ 48 / 0x1000 = e.vaddr % 2 ^ 48 / 0x1000 := by
      unfold u64
      omega
    have hcov : Covers (u64 (e.vaddr / 0x1000 * 0x1000)) (Spaces.pageCount e) ↔ e.coversStack = true := by
      unfold ElfPhdrEntry.coversStack Covers
      rw [hva, decide_eq_true_iff, and_iff_right ht]
    have k0 := keeps_allocpps h (Spaces.pageCount e)
    obtain ⟨k1, c1, s1⟩ := mapMemory_keeps k0.inv (k0.root ▸ hr) h1
    have k01 := k0.trans k1
    obtain ⟨k2, -, s2⟩ := mapMemory_keeps k1.inv (k01.root ▸ hr) h2
    have k02 := k01.trans k2
    obtain ⟨k3, s3⟩ := unmapMemory_keeps k2.inv (k02.root ▸ hr) h3
    -- the window is not at the stack
    have hwin : ∀ r', z.Root r' → flat z'.vmm r' stackPage = flat z₁.vmm r' stackPage := fun r' hr' => by
      rw [s3 r' (k02.root ▸ hr'), s2 r' (k01.root ▸ hr') (Or.inl (not_covers_window _))]
    refine ⟨k02.trans k3, fun hc => ?_, fun r' hr' hc => ?_⟩
    · rw [hwin r hr]
      exact c1 (hcov.2 hc)
    · rw [hwin r' hr']
      refine s1 r' (k0.root ▸ hr') (hc.imp (fun h0 hc => ?_) id)
      rw [hcov.1 hc] at h0
      cases h0
  · obtain rfl := Option.some.inj hm
    refine ⟨h.keeps_refl, fun hc => ?_, fun _ _ _ => rfl⟩
    exact absurd (of_decide_eq_true hc).1 ht

/-- The second loop of `load_elf`. -/
theorem loadSegments_spec : ∀ (l : List ElfPhdrEntry) (z : Spaces), SpaceInv z → z.Root r →
    l.foldlM (fun z e => Spaces.loadSegment z r e) z = some z' →
    Keeps z z' ∧ (flat z'.vmm r stackPage % 8 =
        if l.any ElfPhdrEntry.coversStack then 7 else flat z.vmm r stackPage % 8) ∧
      ∀ r', z.Root r' → r' ≠ r → flat z'.vmm r' stackPage = flat z.vmm r' stackPage := by
  intro l
  induction l with
  | nil =>
    intro z h _ hm
    obtain rfl := Option.some.inj hm
    exact ⟨h.keeps_refl, rfl, fun _ _ _ => rfl⟩
  | cons e l ih =>
    intro z h hr hm
    obtain ⟨z₁, h1, h2⟩ := Option.bind_eq_some_iff.1 hm
    obtain ⟨k1, c1, s1⟩ := loadSegment_spec h hr h1
    obtain ⟨k2, c2, s2⟩ := ih z₁ k1.inv (k1.root ▸ hr) h2
    refine ⟨k1.trans k2, ?_, fun r' hr' hne => ?_⟩
    · rw [c2, List.any_cons]
      cases hc : e.coversStack with
      | true =>
        rw [c1 hc]
        simp
      | false =>
        rw [s1 r hr (Or.inl hc)]
        simp
    · rw [s2 r' (k1.root ▸ hr') hne, s1 r' hr' (Or.inr hne)]

/-- **`load_elf`** does nothing, or makes an address space whose stack is open if and only if a
segment covers it. -/
theorem loadElf_spec {phdrs : List ElfPhdrEntry} {red : ℕ} (h : SpaceInv z)
    (hm : z.loadElf phdrs red = some (n, z')) :
    (z' = z ∧ (phdrs.all Spaces.accepts && (phdrs.take red).any ElfPhdrEntry.coversStack) = false) ∨
      (phdrs.all Spaces.accepts = true ∧ ∃ r, NewSpace z z' r ∧ flat z'.vmm r stackPage % 8 =
        if (phdrs.take red).any ElfPhdrEntry.coversStack then 7 else 3) := by
  unfold Spaces.loadElf at hm
  by_cases h0 : phdrs.length = 0
  · rw [if_pos h0] at hm
    obtain ⟨-, rfl⟩ := Prod.mk.inj (Option.some.inj hm)
    left
    rw [List.length_eq_zero_iff.1 h0]
    simp
  rw [if_neg h0] at hm
  by_cases ha : phdrs.all Spaces.accepts = true
  · rw [if_pos ha] at hm
    right
    obtain ⟨⟨r, z₁⟩, h1, hm⟩ := Option.bind_eq_some_iff.1 hm
    obtain ⟨z₂, h2, hm⟩ := Option.map_eq_some_iff.1 hm
    obtain ⟨-, rfl⟩ := Prod.mk.inj hm
    obtain ⟨hN, hs⟩ := createAddressSpace_spec h h1
    obtain ⟨hk, hc, ho⟩ := loadSegments_spec _ z₁ hN.inv (Or.inr hN.mem) h2
    refine ⟨ha, r, hN.trans hk fun r' hr' => ho r' (hN.root hr') fun e => hN.fresh (e ▸ hr'), ?_⟩
    rw [hc, hs]
  · rw [if_neg ha] at hm
    obtain ⟨-, rfl⟩ := Prod.mk.inj (Option.some.inj hm)
    left
    refine ⟨rfl, ?_⟩
    simp only [Bool.not_eq_true] at ha
    rw [ha, Bool.false_and]

end Nettapus
