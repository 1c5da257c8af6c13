import Nettapus.Code.Mmu
import Nettapus.Proof.PageHeap
import Nettapus.Proof.SpacePages

/-!
# The processor sees the page map

* `MapRule`: what a new structure and the entry of a page keep, `map_memory` and `unmap_memory` keep.
* `Wired`: the entries lead the processor where the children lead the kernel.
* `Wired.mmuWalk`: **the processor's walk of an address is the entry that `get_page_entry` has for it**, as long as
  the structures are in the part of the page heap that is mapped.
-/

namespace Nettapus

open Forest Runs

variable {z z' : Spaces} {v v' : Vmm} {R : ℕ → Prop} {s : ℕ → Prop} {r t i n pa pt vp : ℕ} {p : List ℕ}

/-! ## What `map_memory` keeps -/

/-- A new structure in the forest keeps `J`, and so does an entry of a page table. -/
structure MapRule (R : ℕ → Prop) (s : ℕ → Prop) (J : Vmm → Prop) : Prop where
  attached : ∀ v v' r p t i n j, J v → Tables R s v → Attached R v v' r p t i n j → J v'
  entry : ∀ v r vp pt e, J v → Tables R s v → R r → walk v.kids r (path vp) = some pt → J (v.setEntry pt (vp % 512) e)

section MapRule

variable {J : Vmm → Prop}

/-- One of the `NULL` checks. -/
theorem MapRule.step (h : MapRule R s J) (hJ : J v) (hT : Tables R s v)
    (hc : (v.kids t i = some n ∧ v' = v) ∨ ∃ j, Attached R v v' r p t i n j) : J v' := by
  rcases hc with ⟨-, rfl⟩ | ⟨j, hA⟩
  · exact hJ
  · exact h.attached v v' r p t i n j hJ hT hA

theorem MapRule.findTable (h : MapRule R s J) (hJ : J v) (hT : Tables R s v) (hr : R r)
    (hm : v.findTable r (vp * 0x1000) = some (pt, v')) : J v' := by
  obtain ⟨pdpt, pd, v₁, v₂, h1, e1, w1, h2, e2, w2, h3⟩ := findTable_steps hT hr hm
  have j1 := h.step hJ hT (childOrNew_attached hT hr (p := []) rfl (by decide) h1)
  have j2 := h.step j1 e1.tables (childOrNew_attached e1.tables hr w1 (by simp) h2)
  exact h.step j2 e2.tables (tableOrNew_attached e2.tables hr w2 (by simp) h3)

/-- The table that an iteration uses. -/
theorem MapRule.table (h : MapRule R s J) (hJ : J v) (hT : Tables R s v) (hr : R r) {pt' : ℕ}
    (hm : (if vp * 0x1000 / 0x1000 % 512 = 0 then v.findTable r (vp * 0x1000) else some (pt, v)) = some (pt', v')) :
    J v' := by
  split_ifs at hm
  · exact h.findTable hJ hT hr hm
  · obtain ⟨-, rfl⟩ := Prod.mk.inj (Option.some.inj hm)
    exact hJ

theorem MapRule.mapLoop (h : MapRule R s J) {u : ℕ} : ∀ n (v : Vmm) (pa vp pt : ℕ), J v → Tables R s v → R r →
    vp + n ≤ 2 ^ 36 → (vp % 512 = 0 ∨ walk v.kids r (path vp) = some pt) →
    Vmm.mapLoop r u n v pa (vp * 0x1000) pt = some v' → J v' := by
  intro n
  induction n with
  | zero => exact fun v pa vp pt hJ _ _ _ _ hm => Option.some.inj hm ▸ hJ
  | succ n ih =>
    intro v pa vp pt hJ hT hr hvp hpt hm
    unfold Vmm.mapLoop at hm
    obtain ⟨⟨pt₁, v₁⟩, h1, h2⟩ := Option.bind_eq_some_iff.1 hm
    obtain ⟨hE, hw, -⟩ := table_spec hT hr hpt h1
    have j1 := h.table hJ hT hr h1
    have hva : u64 (vp * 0x1000 + 0x1000) = (vp + 1) * 0x1000 := by unfold u64; omega
    dsimp only at h2
    rw [(index_eq vp).2.2.2, hva] at h2
    exact ih _ _ (vp + 1) pt₁ (h.entry v₁ r vp pt₁ _ j1 hE.tables hr hw) (hE.tables.setEntry hr hw) hr (by omega)
      (walk_next hw) h2

/-- **`map_memory` keeps it.** -/
theorem MapRule.mapMemory (h : MapRule R s J) {va amount u st : ℕ} (hJ : J v) (hT : Tables R s v) (hr : R r)
    (hm : v.mapMemory pa va amount r u = some (st, v')) : J v' := by
  have hrange := mapMemory_range hT hr hm
  unfold Vmm.mapMemory at hm
  rw [if_neg (hT.root r hr), and_page] at hm
  obtain ⟨⟨pt, v₁⟩, h1, h2⟩ := Option.bind_eq_some_iff.1 hm
  obtain ⟨hE, hw⟩ := findTable_spec hT hr h1
  obtain ⟨v₂, h3, h4⟩ := Option.map_eq_some_iff.1 h2
  obtain ⟨-, rfl⟩ := Prod.mk.inj h4
  exact h.mapLoop amount v₁ _ _ pt (h.findTable hJ hT hr h1) hE.tables hr hrange (Or.inr hw) h3

theorem MapRule.unmapLoop (h : MapRule R s J) : ∀ n (v : Vmm) (vp : ℕ), J v → Tables R s v → R r → vp ≤ 2 ^ 36 →
    Vmm.unmapLoop r n v (vp * 0x1000) = some v' → J v' := by
  intro n
  induction n with
  | zero => exact fun v vp hJ _ _ _ hm => Option.some.inj hm ▸ hJ
  | succ n ih =>
    intro v vp hJ hT hr hvp hm
    unfold Vmm.unmapLoop at hm
    rw [(index_eq vp).1, (index_eq vp).2.2.2] at hm
    split_ifs at hm with hi
    have hlt : vp < 2 ^ 36 := by omega
    dsimp only at hm
    rw [lookupTable_eq hlt] at hm
    cases hw : walk v.kids r (path vp) with
    | none =>
      rw [hw, Option.getD_none, if_pos rfl] at hm
      exact ih v vp hJ hT hr hvp hm
    | some pt =>
      have hva : u64 (vp * 0x1000 + 0x1000) = (vp + 1) * 0x1000 := by unfold u64; omega
      rw [hw, hva, Option.getD_some, if_neg (walk_ne_null (hT.root r hr) hw)] at hm
      exact ih _ (vp + 1) (h.entry v r vp pt _ hJ hT hr hw) (hT.setEntry hr hw) hr hlt hm

/-- **`unmap_memory` keeps it.** -/
theorem MapRule.unmapMemory (h : MapRule R s J) {va amount st : ℕ} (hJ : J v) (hT : Tables R s v) (hr : R r)
    (hm : v.unmapMemory va amount r = some (st, v')) : J v' := by
  unfold Vmm.unmapMemory at hm
  rw [if_neg (hT.root r hr), and_page] at hm
  dsimp only at hm
  split_ifs at hm
  · exact (Prod.mk.inj (Option.some.inj hm)).2 ▸ hJ
  · obtain ⟨v₁, h1, h2⟩ := Option.map_eq_some_iff.1 hm
    obtain ⟨-, rfl⟩ := Prod.mk.inj h2
    exact h.unmapLoop amount v _ hJ hT hr (by omega) h1

end MapRule

/-! ## Physical addresses -/

/-- The structure at `n` has the physical address `pa`: it is in a slot of the page heap, or the kernel's own and
outside of the page heap. -/
def Vmm.Placed (v : Vmm) (n pa : ℕ) : Prop :=
  (∃ j, n = v.pageStructAt j ∧ pa = (n - v.pageHeapBegin) + v.pageHeapPhys) ∨
    (n = pa + kernelVirtBase ∧ pa % 0x1000 = 0 ∧ pa < 2 ^ 52 ∧
      (pa < v.pageHeapPhys ∨ v.pageHeapPhys + Vmm.pageHeapLength ≤ pa))

/-- If `n` is in a slot, then in one of the region that is mapped. -/
def Vmm.InRange (v : Vmm) (n : ℕ) : Prop := ∀ j, n = v.pageStructAt j → v.InPageHeap n

/-- **The entries lead where the children lead.** An entry has the address of the child, and allows the kernel to
read and write; where there is no child, there is no entry. -/
structure Wired (R : ℕ → Prop) (v : Vmm) : Prop where
  root : ∀ r, R r → v.Placed r (v.tab r).physicalAddress
  child : ∀ r p t i n, R r → p.length < 3 → walk v.kids r p = some t → v.kids t i = some n →
    v.Placed n (v.physAt (p.length + 1) n)
  flags : ∀ r p t i n, R r → p.length < 3 → walk v.kids r p = some t → v.kids t i = some n →
    (v.tab t).entries i % 0x1000 = 3 ∨ (v.tab t).entries i % 0x1000 = 7
  empty : ∀ r p t i, R r → p.length < 3 → walk v.kids r p = some t → i < 512 → v.kids t i = none →
    (v.tab t).entries i = 0
  bound : v.pageHeapPhys + Vmm.pageHeapLength ≤ 2 ^ 52

theorem Vmm.Placed.congr (h : v.Placed n pa) (hb : v'.pageHeapBegin = v.pageHeapBegin)
    (hp : v'.pageHeapPhys = v.pageHeapPhys) (hl : v'.pageHeapBitmapLength = v.pageHeapBitmapLength) : v'.Placed n pa := by
  unfold Vmm.Placed Vmm.pageStructAt at *
  rw [hb, hp, hl]
  exact h

theorem SlotTaken.placed {j : ℕ} (h : SlotTaken v v' j) (hp : v.Placed n pa) : v'.Placed n pa :=
  hp.congr h.begin_eq h.phys_eq h.length_eq

theorem Vmm.Placed.aligned (h : v.Placed n pa) (hT : Tables R s v) : pa % 0x1000 = 0 := by
  have h1 := hT.phys
  have h2 := hT.length
  rcases h with ⟨j, rfl, rfl⟩ | ⟨-, h, -⟩
  · unfold Vmm.pageStructAt
    omega
  · exact h

/-- **The processor finds the structure** at its physical address. -/
theorem Vmm.Placed.virtOf (h : v.Placed n pa) (hn : v.InRange n) : v.virtOf pa = n := by
  have hlen : Vmm.pageHeapLength = 0x400000 := rfl
  have hsize : Vmm.sizeofPageStruct = 0x3000 := rfl
  unfold Vmm.virtOf
  rcases h with ⟨j, hj, rfl⟩ | ⟨rfl, -, -, hout⟩
  · obtain ⟨h1, h2⟩ := hn j hj
    rw [hlen] at h2 ⊢
    rw [hsize] at h2
    rw [if_pos (by omega)]
    omega
  · rw [if_neg (by omega)]

theorem Vmm.Placed.lt (h : v.Placed n pa) (hn : v.InRange n) (hb : v.pageHeapPhys + Vmm.pageHeapLength ≤ 2 ^ 52) :
    pa < 2 ^ 52 := by
  have hlen : Vmm.pageHeapLength = 0x400000 := rfl
  have hsize : Vmm.sizeofPageStruct = 0x3000 := rfl
  rcases h with ⟨j, hj, rfl⟩ | ⟨-, -, h, -⟩
  · obtain ⟨h1, h2⟩ := hn j hj
    rw [hlen] at h2 hb
    rw [hsize] at h2
    omega
  · exact h

/-! ## What keeps the wires -/

/-- An entry of a page table is none of the wires. -/
theorem Wired.setEntry {e : ℕ} (h : Wired R v) (hT : Tables R s v) (hr : R r) (hpt : walk v.kids r (path vp) = some pt) :
    Wired R (v.setEntry pt (vp % 512) e) := by
  refine ⟨fun r' hr' => ?_, fun r' p t i n hr' hp ht hn => ?_, fun r' p t i n hr' hp ht hn => ?_,
    fun r' p t i hr' hp ht hi hn => ?_, h.bound⟩
  · have hphys := physAt_setEntry v pt (vp % 512) e 0 r'
    unfold Vmm.physAt at hphys
    rw [if_neg (by decide), if_neg (by decide)] at hphys
    rw [hphys]
    exact h.root r' hr'
  · rw [kids_setEntry] at ht hn
    rw [physAt_setEntry]
    exact h.child r' p t i n hr' hp ht hn
  · rw [kids_setEntry] at ht hn
    rw [entries_setEntry_of_ne (hT.ne_table hr' hr hp ht hpt)]
    exact h.flags r' p t i n hr' hp ht hn
  · rw [kids_setEntry] at ht hn
    rw [entries_setEntry_of_ne (hT.ne_table hr' hr hp ht hpt)]
    exact h.empty r' p t i hr' hp ht hi hn

section Attached

variable {j k a : ℕ} {p₀ : List ℕ} {r₀ : ℕ}

/-- Where there is no child in the new state: a place that was empty, or a place in the new structure. -/
theorem Attached.empty (h : Attached R v v' r₀ p₀ t i n j) (hT : Tables R s v) (hr : R r) (hp : p.length < 3)
    (ha : walk v'.kids r p = some a) (hk : v'.kids a k = none) :
    (walk v.kids r p = some a ∧ v.kids a k = none ∧ (v'.tab a).entries k = (v.tab a).entries k) ∨ a = n := by
  have hl := h.link hT
  rcases (h.walk_iff hT hr hp.le a).1 ha with ha | ⟨rfl, -, -⟩
  · left
    have han : a ≠ n := fun e => h.notNode hT ⟨r, p, hr, hp.le, e ▸ ha⟩
    have he : a ≠ t ∨ k ≠ i := by
      by_contra hc
      push Not at hc
      rw [hc.1, hc.2, hl.new] at hk
      cases hk
    refine ⟨ha, (hl.same a k han he).symm.trans hk, ?_⟩
    by_cases hat : a = t
    · subst hat
      rw [h.entries_t, Function.update_of_ne (he.resolve_left fun e => e rfl)]
    · rw [h.tab_eq hT hr hp.le ha hat]
  · exact Or.inr rfl

/-- **A new structure is wired** like the others. -/
theorem Attached.wired (h : Attached R v v' r₀ p₀ t i n j) (hT : Tables R s v) (hW : Wired R v) : Wired R v' := by
  have hal := h.aligned hT
  refine ⟨fun r hr => ?_, fun r p a k m hr hp ha hm => ?_, fun r p a k m hr hp ha hm => ?_,
    fun r p a k hr hp ha hk hm => ?_, by rw [h.phys_eq]; exact hW.bound⟩
  · have hph := h.physAt_eq hT hr (q := []) (Nat.zero_le _) rfl
    unfold Vmm.physAt at hph
    rw [if_neg (by decide), if_neg (by decide)] at hph
    rw [hph]
    exact h.placed (hW.root r hr)
  · rcases h.edge hT hr hp ha hm with ⟨ha', hm', -⟩ | ⟨rfl, rfl, rfl, rfl⟩
    · have hph := h.physAt_eq hT hr (by simp; omega) (walk_snoc_eq_some.2 ⟨a, ha', hm'⟩)
      rw [List.length_append, List.length_singleton] at hph
      rw [hph]
      exact h.placed (hW.child r p a k m hr hp ha' hm')
    · rw [h.phys]
      exact h.placed (Or.inl ⟨j, h.slot, rfl⟩)
  · rcases h.edge hT hr hp ha hm with ⟨ha', hm', he⟩ | ⟨rfl, rfl, rfl, rfl⟩
    · rw [he]
      exact hW.flags r p a k m hr hp ha' hm'
    · rw [h.entries_t, Function.update_self, or_seven hal]
      omega
  · rcases h.empty hT hr hp ha hm with ⟨ha', hm', he⟩ | rfl
    · rw [he]
      exact hW.empty r p a k hr hp ha' hk hm'
    · exact h.entries_n k

end Attached

/-- A new PML4T has no entries but the kernel's. -/
theorem newPml4t_entries (h : z.newPml4t = some (r, z')) (hi : i ≠ 511) : (z'.vmm.tab r).entries i = 0 := by
  unfold Spaces.newPml4t at h
  rcases allocPageStruct_spec (v := z.vmm) with ⟨j, hj, ha⟩ | ⟨ha, -⟩
  · rw [ha] at h
    dsimp only at h
    split_ifs at h
    obtain ⟨rfl, rfl⟩ := Prod.mk.inj (Option.some.inj h)
    simp [Vmm.setEntry, Vmm.setChild, hi]
  · rw [ha] at h
    simp at h

/-- It keeps the physical address that its slot gave it. -/
theorem newPml4t_physical (h : z.newPml4t = some (r, z')) : z'.vmm.Placed r (z'.vmm.tab r).physicalAddress := by
  unfold Spaces.newPml4t at h
  rcases allocPageStruct_spec (v := z.vmm) with ⟨j, hj, ha⟩ | ⟨ha, -⟩
  · rw [ha] at h
    dsimp only at h
    split_ifs at h
    obtain ⟨rfl, rfl⟩ := Prod.mk.inj (Option.some.inj h)
    refine Or.inl ⟨j, rfl, ?_⟩
    simp [Vmm.setEntry, Vmm.setChild, Vmm.take]
  · rw [ha] at h
    simp at h

/-- **A new address space is wired** to the kernel. -/
theorem newPml4t_wired (h : SpaceInv z) (hW : Wired z.Root z.vmm) (hm : z.newPml4t = some (r, z')) :
    Wired z'.Root z'.vmm := by
  have hK : z.Root z.kpml4 := Or.inl rfl
  obtain ⟨hk, -⟩ := h.kernel _ hK
  have hzero : ∀ i, i ≠ 511 → (z'.vmm.tab r).entries i = 0 := fun i hi => newPml4t_entries hm hi
  have hphys := newPml4t_physical hm
  obtain ⟨v, j, rfl, hN⟩ := h.newRoot hm
  have hA := hN.adopt hk
  have hr := hN.notNode h.tables
  have hal := h.tables.aligned_kernel hK hk
  -- what the new root shares with the kernel's, or another root has, is where it was
  have hold : ∀ {r' q a}, z.Root r' → q.length ≤ 3 → walk z.vmm.kids r' q = some a → v.tab a = z.vmm.tab a :=
    fun hr' hq ha => hN.other _ fun e => hr ⟨_, _, hr', hq, e ▸ ha⟩
  have hphysAt : ∀ {r' q a}, z.Root r' → q.length ≤ 3 → walk z.vmm.kids r' q = some a →
      ∀ level, v.physAt level a = z.vmm.physAt level a := by
    intro r' q a hr' hq ha level
    unfold Vmm.physAt
    rw [hold hr' hq ha]
  have hroot : ∀ {a}, Spaces.Root { z with vmm := v, spaces := z.spaces ++ [r] } a → z.Root a ∨ a = r := by
    intro a ha
    unfold Spaces.Root at ha ⊢
    simpa [or_assoc] using ha
  refine ⟨fun a ha => ?_, fun a p t i n ha hp ht hn => ?_, fun a p t i n ha hp ht hn => ?_,
    fun a p t i ha hp ht hi hn => ?_, by show v.pageHeapPhys + _ ≤ _; rw [hN.phys_eq]; exact hW.bound⟩
  · rcases hroot ha with ha | rfl
    · have htab : v.tab a = z.vmm.tab a := hold ha (q := []) (Nat.zero_le _) rfl
      show v.Placed a (v.tab a).physicalAddress
      rw [htab]
      exact hN.placed (hW.root a ha)
    · exact hphys
  · rcases hroot ha with ha | rfl
    · have ht' := (hA.walk_eq hr ha p hp.le).symm.trans ht
      have htr : t ≠ r := fun e => hr ⟨a, p, ha, hp.le, e ▸ ht'⟩
      have hn' := (hA.same t i htr).symm.trans hn
      show v.Placed n (v.physAt _ n)
      rw [hphysAt ha (by simp; omega) (walk_snoc_eq_some.2 ⟨t, ht', hn'⟩)]
      exact hN.placed (hW.child a p t i n ha hp ht' hn')
    · show v.Placed n (v.physAt _ n)
      rcases hN.edge h.tables hK hk hp ht hn with ⟨rfl, rfl, rfl, rfl⟩ | ⟨-, hw, hn', -⟩
      · have hw : walk z.vmm.kids z.kpml4 [511] = some z.kFirstPdpt := walk_singleton.trans hk
        rw [hphysAt hK (by decide) hw]
        exact hN.placed (hW.child z.kpml4 [] z.kpml4 511 z.kFirstPdpt hK (by decide) rfl hk)
      · rw [hphysAt hK (by simp; omega) (walk_snoc_eq_some.2 ⟨t, hw, hn'⟩)]
        exact hN.placed (hW.child z.kpml4 p t i n hK hp hw hn')
  · rcases hroot ha with ha | rfl
    · have ht' := (hA.walk_eq hr ha p hp.le).symm.trans ht
      have htr : t ≠ r := fun e => hr ⟨a, p, ha, hp.le, e ▸ ht'⟩
      have hn' := (hA.same t i htr).symm.trans hn
      show (v.tab t).entries i % 0x1000 = 3 ∨ (v.tab t).entries i % 0x1000 = 7
      rw [hN.other t htr]
      exact hW.flags a p t i n ha hp ht' hn'
    · show (v.tab t).entries i % 0x1000 = 3 ∨ (v.tab t).entries i % 0x1000 = 7
      rcases hN.edge h.tables hK hk hp ht hn with ⟨rfl, rfl, rfl, rfl⟩ | ⟨-, hw, hn', htab⟩
      · rw [hN.entry, or_three hal]
        omega
      · rw [htab]
        exact hW.flags z.kpml4 p t i n hK hp hw hn'
  · rcases hroot ha with ha | rfl
    · have ht' := (hA.walk_eq hr ha p hp.le).symm.trans ht
      have htr : t ≠ r := fun e => hr ⟨a, p, ha, hp.le, e ▸ ht'⟩
      have hn' := (hA.same t i htr).symm.trans hn
      show (v.tab t).entries i = 0
      rw [hN.other t htr]
      exact hW.empty a p t i ha hp ht' hi hn'
    · rcases IsForest.walk_adopt hA hr hK hp.le ht with ⟨rfl, rfl⟩ | ⟨q, rfl, hw⟩
      · refine hzero i ?_
        rintro rfl
        rw [show v.kids t 511 = some z.kFirstPdpt from hA.new.trans hk] at hn
        cases hn
      · have htr : t ≠ a := fun e => hr ⟨z.kpml4, _, hK, hp.le, e ▸ hw⟩
        show (v.tab t).entries i = 0
        rw [hN.other t htr]
        exact hW.empty z.kpml4 _ t i hK hp hw hi ((hA.same t i htr).symm.trans hn)

/-! ## The walk -/

/-- The structures of the forest are in the region of the page heap that is mapped. -/
def HeapMapped (R : ℕ → Prop) (v : Vmm) : Prop := ∀ n, Node v.kids R 3 n → v.InRange n

/-- The structures are in slots of the page heap, or before it, as the kernel's own are. -/
def Housed (R : ℕ → Prop) (v : Vmm) : Prop :=
  ∀ n, Node v.kids R 3 n → n < v.pageHeapFirst ∨ ∃ j < v.pageHeapBitmapLength * 8, n = v.pageStructAt j

/-- The slots in use are in the region of the page heap that is mapped. -/
def SlotsMapped (v : Vmm) : Prop :=
  ∀ j < v.pageHeapBitmapLength * 8, Bitmap.test v.pageHeapBitmap j = true → v.InPageHeap (v.pageStructAt j)

theorem Housed.heapMapped (h : Housed R v) (hT : Tables R s v) (hM : SlotsMapped v) : HeapMapped R v := by
  intro n hn j hj
  rcases h n hn with hlt | ⟨k, hk, hnk⟩
  · rw [hj, pageStructAt_eq] at hlt
    omega
  · have hused : Bitmap.test v.pageHeapBitmap k = true := by
      by_contra hc
      have hfree : k ∈ v.freeSlots := mem_freeSlots.2 ⟨hk, by simpa using hc⟩
      exact hT.fresh k hfree (hnk ▸ hn)
    rw [hnk]
    exact hM k hk hused

theorem housed_mapRule (R : ℕ → Prop) (s : ℕ → Prop) : MapRule R s (Housed R) := by
  refine ⟨fun v v' r p t i n j hH hT hA a ha => ?_, fun v r vp pt e hH _ _ _ a ha => ?_⟩
  · obtain ⟨r', q, hr', hq, hw⟩ := ha
    unfold Vmm.pageHeapFirst Vmm.pageStructAt
    rw [hA.begin_eq, hA.length_eq]
    rcases (hA.walk_iff hT hr' hq a).1 hw with hw | ⟨rfl, -, -⟩
    · exact hH a ⟨r', q, hr', hq, hw⟩
    · exact Or.inr ⟨j, (mem_freeSlots.1 hA.free).1, hA.slot⟩
  · unfold Node at ha
    rw [kids_setEntry] at ha
    exact hH a ha

theorem newPml4t_housed (h : SpaceInv z) (hH : Housed z.Root z.vmm) (hm : z.newPml4t = some (r, z')) :
    Housed z'.Root z'.vmm := by
  have hK : z.Root z.kpml4 := Or.inl rfl
  obtain ⟨hk, -⟩ := h.kernel _ hK
  obtain ⟨v, j, rfl, hN⟩ := h.newRoot hm
  have hA := hN.adopt hk
  have hr := hN.notNode h.tables
  rintro a ⟨r', p, hr', hp, hw⟩
  show a < v.pageHeapBegin + v.pageHeapBitmapLength ∨ ∃ j < v.pageHeapBitmapLength * 8, a = v.pageHeapBegin +
    v.pageHeapBitmapLength + j * 0x3000
  rw [hN.begin_eq, hN.length_eq]
  have hnew : r < z.vmm.pageHeapFirst ∨ ∃ j < z.vmm.pageHeapBitmapLength * 8, r = z.vmm.pageStructAt j :=
    Or.inr ⟨j, (mem_freeSlots.1 hN.free).1, hN.slot⟩
  have hroot : z.Root r' ∨ r' = r := by
    unfold Spaces.Root at hr' ⊢
    simpa [or_assoc] using hr'
  rcases hroot with hr' | rfl
  · exact hH a ⟨r', p, hr', hp, (hA.walk_eq hr hr' p hp).symm.trans hw⟩
  · rcases IsForest.walk_adopt hA hr hK hp hw with ⟨-, rfl⟩ | ⟨q, rfl, hw⟩
    · exact hnew
    · exact hH a ⟨z.kpml4, _, hK, hp, hw⟩

theorem index_mod (va : ℕ) : va / (0x1000 * 512 ^ 3) % 512 = va % 2 ^ 48 / 0x1000 / 512 ^ 3 ∧
    va / (0x1000 * 512 ^ 2) % 512 = va % 2 ^ 48 / 0x1000 / 512 ^ 2 % 512 ∧
    va / (0x1000 * 512 ^ 1) % 512 = va % 2 ^ 48 / 0x1000 / 512 % 512 ∧
    va / (0x1000 * 512 ^ 0) % 512 = va % 2 ^ 48 / 0x1000 % 512 := by
  refine ⟨by omega, by omega, by omega, by omega⟩

theorem entryAddress_of_lt {e : ℕ} (h : e / 0x1000 * 0x1000 < 2 ^ 52) : entryAddress e = e / 0x1000 * 0x1000 := by
  unfold entryAddress
  omega

/-- **How the structures lie**: the entries lead to them, and they are in their slots. -/
structure Laid (R : ℕ → Prop) (v : Vmm) : Prop extends Wired R v where
  housed : Housed R v

theorem laid_mapRule (R : ℕ → Prop) (s : ℕ → Prop) : MapRule R s (Laid R) := by
  refine ⟨fun v v' r p t i n j h hT hA => ?_, fun v r vp pt e h hT hr hw => ?_⟩
  · exact ⟨hA.wired hT h.toWired, (housed_mapRule R s).attached v v' r p t i n j h.housed hT hA⟩
  · exact ⟨h.toWired.setEntry hT hr hw, (housed_mapRule R s).entry v r vp pt e h.housed hT hr hw⟩

/-- **A level**: the entry of a child leads to the child. -/
theorem Wired.level_child {l va pa : ℕ} {u w : Bool} (h : Wired R v) (hT : Tables R s v) (hH : HeapMapped R v) (hr : R r)
    (hp : p.length < 3) (ht : walk v.kids r p = some t) (hpa : v.Placed t pa)
    (hn : v.kids t (va / (0x1000 * 512 ^ l) % 512) = some n) :
    v.mmuLevels va (l + 1) pa u w = v.mmuLevels va l (v.physAt (p.length + 1) n)
      (u && entryUser ((v.tab t).entries (va / (0x1000 * 512 ^ l) % 512))) w := by
  have hvirt : v.virtOf pa = t := hpa.virtOf (hH t ⟨r, p, hr, hp.le, ht⟩)
  have hplaced := h.child r p t _ n hr hp ht hn
  have hlt := hplaced.lt (hH n ⟨r, _, hr, by simp; omega, walk_snoc_eq_some.2 ⟨t, ht, hn⟩⟩) h.bound
  have hc : Carries v p.length t _ n := hT.carries r p t _ n hr hp ht hn
  have hf := h.flags r p t _ n hr hp ht hn
  unfold Carries at hc
  have hentry : v.entryAt pa (va / (0x1000 * 512 ^ l) % 512) = (v.tab t).entries (va / (0x1000 * 512 ^ l) % 512) := by
    unfold Vmm.entryAt
    rw [hvirt]
  rw [Vmm.mmuLevels, hentry]
  generalize (v.tab t).entries (va / (0x1000 * 512 ^ l) % 512) = e at hc hf ⊢
  have h1 : entryPresent e = true := by unfold entryPresent; simp; omega
  have h2 : entryWrite e = true := by unfold entryWrite; simp; omega
  have h3 : entryLarge e = false := by unfold entryLarge; simp; omega
  have h4 : entryAddress e = v.physAt (p.length + 1) n := (entryAddress_of_lt (hc ▸ hlt)).trans hc
  simp only [h1, h2, h3, h4, if_true, Bool.and_true, Bool.and_false, Bool.false_eq_true, if_false]

/-- A level without a child ends the walk. -/
theorem Wired.level_none {l va pa : ℕ} {u w : Bool} (h : Wired R v) (hH : HeapMapped R v) (hr : R r)
    (hp : p.length < 3) (ht : walk v.kids r p = some t) (hpa : v.Placed t pa)
    (hn : v.kids t (va / (0x1000 * 512 ^ l) % 512) = none) : v.mmuLevels va (l + 1) pa u w = none := by
  have hvirt : v.virtOf pa = t := hpa.virtOf (hH t ⟨r, p, hr, hp.le, ht⟩)
  have hzero := h.empty r p t _ hr hp ht (Nat.mod_lt _ (by decide)) hn
  unfold Vmm.mmuLevels Vmm.entryAt
  rw [hvirt, hzero]
  rfl

/-- The last level. -/
theorem mmuLevels_one (v : Vmm) (va pa : ℕ) (u w : Bool) : v.mmuLevels va 1 pa u w =
    if entryPresent (v.entryAt pa (va / (0x1000 * 512 ^ 0) % 512)) then
      some ⟨v.entryAt pa (va / (0x1000 * 512 ^ 0) % 512) % 2 ^ 52 / 0x1000,
        u && entryUser (v.entryAt pa (va / (0x1000 * 512 ^ 0) % 512)),
        w && entryWrite (v.entryAt pa (va / (0x1000 * 512 ^ 0) % 512))⟩
    else none := by
  unfold Vmm.mmuLevels
  dsimp only
  rw [if_neg (show ¬ (decide (0 < 0) && _) = true by simp)]
  unfold Vmm.mmuLevels entryAddress
  rw [Nat.mul_div_cancel _ (by decide)]

/-- The user bits of the three entries above a page. -/
def upperUser (v : Vmm) (r vp : ℕ) : Bool :=
  entryUser ((v.tab r).entries (vp / 512 ^ 3)) &&
    ((v.kids r (vp / 512 ^ 3)).elim true fun pdpt => entryUser ((v.tab pdpt).entries (vp / 512 ^ 2 % 512)) &&
      (v.kids pdpt (vp / 512 ^ 2 % 512)).elim true fun pd => entryUser ((v.tab pd).entries (vp / 512 % 512)))

/-- **The processor's walk** of an address is the entry of its page. -/
theorem Wired.mmuWalk (h : Wired R v) (hT : Tables R s v) (hH : HeapMapped R v) (hr : R r) (va : ℕ) :
    v.mmuWalk r va =
      if entryPresent (v.getPageEntry r va) then
        some ⟨v.getPageEntry r va % 2 ^ 52 / 0x1000,
          upperUser v r (va % 2 ^ 48 / 0x1000) && entryUser (v.getPageEntry r va), entryWrite (v.getPageEntry r va)⟩
      else none := by
  obtain ⟨i1, i2, i3, i4⟩ := index_mod va
  rw [getPageEntry_eq (hT.root r hr)]
  unfold Vmm.mmuWalk
  generalize hvp : va % 2 ^ 48 / 0x1000 = vp at i1 i2 i3 i4 ⊢
  have hend : walk v.kids r (path vp) = none →
      none = if entryPresent (flat v r vp) then
        some (⟨flat v r vp % 2 ^ 52 / 0x1000, upperUser v r vp && entryUser (flat v r vp),
          entryWrite (flat v r vp)⟩ : Translation) else none := by
    intro hw
    rw [flat_of_none hw]
    rfl
  -- the PML4T
  cases h1 : v.kids r (vp / 512 ^ 3) with
  | none =>
    rw [h.level_none hH hr (p := []) (by decide) rfl (h.root r hr) (by rw [i1]; exact h1)]
    exact hend (by rw [walk_path, h1]; rfl)
  | some pdpt =>
    rw [h.level_child hT hH hr (p := []) (by decide) rfl (h.root r hr) (by rw [i1]; exact h1)]
    have w1 : walk v.kids r [vp / 512 ^ 3] = some pdpt := walk_singleton.trans h1
    have p1 := h.child r [] r _ pdpt hr (by decide) rfl h1
    -- the PDPT
    cases h2 : v.kids pdpt (vp / 512 ^ 2 % 512) with
    | none =>
      rw [h.level_none hH hr (by simp) w1 p1 (by rw [i2]; exact h2)]
      exact hend (by rw [walk_path, h1, Option.bind_some, h2]; rfl)
    | some pd =>
      rw [h.level_child hT hH hr (by simp) w1 p1 (by rw [i2]; exact h2)]
      have w2 : walk v.kids r ([vp / 512 ^ 3] ++ [vp / 512 ^ 2 % 512]) = some pd := walk_snoc_eq_some.2 ⟨pdpt, w1, h2⟩
      have p2 := h.child r _ pdpt _ pd hr (by simp) w1 h2
      -- the page directory
      cases h3 : v.kids pd (vp / 512 % 512) with
      | none =>
        rw [h.level_none hH hr (by simp) w2 p2 (by rw [i3]; exact h3)]
        exact hend (by rw [walk_path, h1, Option.bind_some, h2, Option.bind_some, h3])
      | some pt =>
        rw [h.level_child hT hH hr (by simp) w2 p2 (by rw [i3]; exact h3)]
        have w3 : walk v.kids r (path vp) = some pt := by rw [walk_path, h1, Option.bind_some, h2, Option.bind_some, h3]
        have p3 := h.child r _ pd _ pt hr (by simp) w2 h3
        have hvirt : v.virtOf (v.physAt 3 pt) = pt := p3.virtOf (hH pt ⟨r, _, hr, by simp, w3⟩)
        -- the page table
        have hentry : v.entryAt (v.physAt 3 pt) (vp % 512) = flat v r vp := by
          unfold Vmm.entryAt
          rw [hvirt, flat_of_walk w3]
        have hup : upperUser v r vp = (entryUser ((v.tab r).entries (vp / 512 ^ 3)) &&
            (entryUser ((v.tab pdpt).entries (vp / 512 ^ 2 % 512)) && entryUser ((v.tab pd).entries (vp / 512 % 512)))) := by
          unfold upperUser
          rw [h1]
          dsimp only [Option.elim]
          rw [h2]
        have hlast : v.entryAt (v.physAt (([vp / 512 ^ 3] ++ [vp / 512 ^ 2 % 512]).length + 1) pt)
            (va / (0x1000 * 512 ^ 0) % 512) = flat v r vp := by
          rw [i4]
          exact hentry
        rw [mmuLevels_one, hlast, hup, i1, i2, i3]
        simp only [Bool.true_and, Bool.and_assoc]

end Nettapus
