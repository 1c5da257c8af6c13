import Nettapus.Proof.Vmm

/-!
# `map_memory` refines a page map

* `Extends`, `findTable_spec`: the `NULL` checks add structures and map nothing.
* `setEntry_mapped`: one page is written.
* `mapLoop_spec`, `mapMemory_spec`: a range of pages is written, in a forest whose roots may
  share structures.
* `map_memory_refines`: the same for one address space, through `get_page_entry`; and the
  function returns if there are free slots for the structures it may need.
-/

namespace Nettapus

open Forest Bitmap

variable {v v' v₁ v₂ : Vmm} {R : ℕ → Prop} {s : ℕ → Prop} {r t i n pt vp : ℕ} {p q : List ℕ}

/-! ## The `NULL` checks -/

/-- `v'` has up to `k` structures more than `v`, and the same pages. -/
structure Extends (R : ℕ → Prop) (s : ℕ → Prop) (v v' : Vmm) (k : ℕ) : Prop where
  tables : Tables R s v'
  grown : Grown R v v'
  flat_eq : ∀ r vp, R r → flat v' r vp = flat v r vp
  card : v.freeSlots.card ≤ v'.freeSlots.card + k

theorem Extends.trans {k k' : ℕ} (h : Extends R s v v₁ k) (h' : Extends R s v₁ v₂ k') :
    Extends R s v v₂ (k + k') := by
  refine ⟨h'.tables, h.grown.trans h'.grown, fun r vp hr => ?_, ?_⟩
  · rw [h'.flat_eq r vp hr, h.flat_eq r vp hr]
  · have h1 := h.card
    have h2 := h'.card
    omega

theorem Tables.extends_refl (hT : Tables R s v) : Extends R s v v 1 :=
  ⟨hT, Grown.refl R v, fun _ _ _ => rfl, Nat.le_succ _⟩

theorem Attached.extends_one {r₀ j : ℕ} {p₀ : List ℕ} (h : Attached R v v' r₀ p₀ t i n j) (hT : Tables R s v) :
    Extends R s v v' 1 :=
  ⟨h.tables hT, h.grown hT, fun _ vp hr => h.flat_eq hT hr vp, h.card.ge⟩

/-- A node of the forest is not a free slot. -/
theorem Tables.ne_slot (hT : Tables R s v) (hr : R r) (hp : p.length ≤ 3) (ht : walk v.kids r p = some t) :
    ∀ j ∈ v.freeSlots, t ≠ v.pageStructAt j :=
  fun j hj e => hT.fresh j hj ⟨r, p, hr, hp, e ▸ ht⟩

/-- The child is there, or a new structure is attached. -/
theorem childOrNew_attached (hT : Tables R s v) (hr : R r) (ht : walk v.kids r p = some t) (hp : p.length < 2)
    (h : v.childOrNew t i = some (n, v')) :
    (v.kids t i = some n ∧ v' = v) ∨ ∃ j, Attached R v v' r p t i n j := by
  rcases childOrNew_cases (hT.ne_slot hr (by omega) ht) h with h | ⟨hi, hc, j, hN, hz⟩
  · exact Or.inl h
  · refine Or.inr ⟨j, hN, hr, ht, by omega, hi, hc, fun _ => hz, ?_⟩
    unfold Vmm.physAt
    rw [if_neg (by omega), hN.phys_n]

theorem tableOrNew_attached (hT : Tables R s v) (hr : R r) (ht : walk v.kids r p = some t) (hp : p.length = 2)
    (h : v.tableOrNew t i = some (n, v')) :
    (v.kids t i = some n ∧ v' = v) ∨ ∃ j, Attached R v v' r p t i n j := by
  rcases tableOrNew_cases (hT.ne_slot hr (by omega) ht) h with h | ⟨hi, hc, j, hN, hph⟩
  · exact Or.inl h
  · refine Or.inr ⟨j, hN, hr, ht, by omega, hi, hc, fun h3 => by omega, ?_⟩
    unfold Vmm.physAt
    rw [if_pos (by omega), hph]

/-- Either way it is at the end of its path. -/
theorem attached_spec (hT : Tables R s v) (ht : walk v.kids r p = some t)
    (h : (v.kids t i = some n ∧ v' = v) ∨ ∃ j, Attached R v v' r p t i n j) :
    Extends R s v v' 1 ∧ walk v'.kids r (p ++ [i]) = some n := by
  rcases h with ⟨hk, rfl⟩ | ⟨j, hA⟩
  · exact ⟨hT.extends_refl, walk_snoc_eq_some.2 ⟨t, ht, hk⟩⟩
  · exact ⟨hA.extends_one hT, hA.walk_new hT⟩

theorem childOrNew_spec (hT : Tables R s v) (hr : R r) (ht : walk v.kids r p = some t) (hp : p.length < 2)
    (h : v.childOrNew t i = some (n, v')) : Extends R s v v' 1 ∧ walk v'.kids r (p ++ [i]) = some n :=
  attached_spec hT ht (childOrNew_attached hT hr ht hp h)

theorem tableOrNew_spec (hT : Tables R s v) (hr : R r) (ht : walk v.kids r p = some t) (hp : p.length = 2)
    (h : v.tableOrNew t i = some (n, v')) : Extends R s v v' 1 ∧ walk v'.kids r (p ++ [i]) = some n :=
  attached_spec hT ht (tableOrNew_attached hT hr ht hp h)

/-- With a free slot an allocation does not fail. -/
theorem Tables.alloc (hT : Tables R s v) (hc : 0 < v.freeSlots.card) :
    ∃ j, v.allocPageStruct = (v.pageStructAt j, v.take j) ∧ v.pageStructAt j ≠ NULL := by
  rcases allocPageStruct_spec (v := v) with ⟨j, -, ha⟩ | ⟨-, he⟩
  · exact ⟨j, ha, hT.slot_ne_null j⟩
  · rw [he] at hc
    exact absurd hc (by simp)

theorem childOrNew_total (hT : Tables R s v) (hi : i < 512) (hc : 0 < v.freeSlots.card) :
    ∃ n v', v.childOrNew t i = some (n, v') := by
  obtain ⟨j, ha, hne⟩ := hT.alloc hc
  unfold Vmm.childOrNew
  rw [if_neg (by omega), ha]
  dsimp only
  rw [if_neg hne]
  split_ifs
  · exact ⟨_, _, rfl⟩
  · exact ⟨_, _, rfl⟩

theorem tableOrNew_total (hT : Tables R s v) (hi : i < 512) (hc : 0 < v.freeSlots.card) :
    ∃ n v', v.tableOrNew t i = some (n, v') := by
  obtain ⟨j, ha, hne⟩ := hT.alloc hc
  unfold Vmm.tableOrNew
  rw [if_neg (by omega), ha]
  dsimp only
  rw [if_neg hne]
  split_ifs
  · exact ⟨_, _, rfl⟩
  · exact ⟨_, _, rfl⟩

/-- The indices of a page, as the code computes them. -/
theorem index_eq (vp : ℕ) : vp * 0x1000 / 0x8000000000 = vp / 512 ^ 3 ∧
    vp * 0x1000 % 0x8000000000 / 0x40000000 = vp / 512 ^ 2 % 512 ∧
    vp * 0x1000 % 0x40000000 / 0x200000 = vp / 512 % 512 ∧
    vp * 0x1000 % 0x200000 / 0x1000 = vp % 512 := by
  refine ⟨by omega, by omega, by omega, by omega⟩

/-- The three steps of the checks. -/
theorem findTable_steps (hT : Tables R s v) (hr : R r) (h : v.findTable r (vp * 0x1000) = some (pt, v')) :
    ∃ pdpt pd v₁ v₂, v.childOrNew r (vp / 512 ^ 3) = some (pdpt, v₁) ∧ Extends R s v v₁ 1 ∧
      walk v₁.kids r [vp / 512 ^ 3] = some pdpt ∧ v₁.childOrNew pdpt (vp / 512 ^ 2 % 512) = some (pd, v₂) ∧
      Extends R s v₁ v₂ 1 ∧ walk v₂.kids r [vp / 512 ^ 3, vp / 512 ^ 2 % 512] = some pd ∧
      v₂.tableOrNew pd (vp / 512 % 512) = some (pt, v') := by
  obtain ⟨i1, i2, i3, -⟩ := index_eq vp
  unfold Vmm.findTable at h
  rw [i1, i2, i3] at h
  obtain ⟨⟨pdpt, v₁⟩, h1, h⟩ := Option.bind_eq_some_iff.1 h
  obtain ⟨⟨pd, v₂⟩, h2, h3⟩ := Option.bind_eq_some_iff.1 h
  obtain ⟨e1, w1⟩ := childOrNew_spec hT hr (p := []) rfl (by decide) h1
  obtain ⟨e2, w2⟩ := childOrNew_spec e1.tables hr w1 (by simp) h2
  exact ⟨pdpt, pd, v₁, v₂, h1, e1, w1, h2, e2, w2, h3⟩

/-- **The three `NULL` checks** lead to the page table of the page. -/
theorem findTable_spec (hT : Tables R s v) (hr : R r) (h : v.findTable r (vp * 0x1000) = some (pt, v')) :
    Extends R s v v' 3 ∧ walk v'.kids r (path vp) = some pt := by
  obtain ⟨pdpt, pd, v₁, v₂, -, e1, -, -, e2, w2, h3⟩ := findTable_steps hT hr h
  obtain ⟨e3, w3⟩ := tableOrNew_spec e2.tables hr w2 (by simp) h3
  exact ⟨(e1.trans e2).trans e3, w3⟩

/-- Where there is a page table, the checks find it. -/
theorem findTable_of_walk (hw : walk v.kids r (path vp) = some pt) :
    v.findTable r (vp * 0x1000) = some (pt, v) := by
  obtain ⟨i1, i2, i3, -⟩ := index_eq vp
  rw [walk_path] at hw
  obtain ⟨pdpt, h1, hw⟩ := Option.bind_eq_some_iff.1 hw
  obtain ⟨pd, h2, h3⟩ := Option.bind_eq_some_iff.1 hw
  obtain ⟨l1, c1, n1⟩ := kids_eq_some.1 h1
  obtain ⟨l2, c2, n2⟩ := kids_eq_some.1 h2
  obtain ⟨l3, c3, n3⟩ := kids_eq_some.1 h3
  unfold Vmm.findTable Vmm.childOrNew Vmm.tableOrNew
  rw [i1, i2, i3, if_neg (by omega), c1, if_neg n1, Option.bind_some]
  dsimp only
  rw [if_neg (by omega), c2, if_neg n2, Option.bind_some]
  dsimp only
  rw [if_neg (by omega), c3, if_neg n3]

/-- With three free slots the checks do not fail. -/
theorem findTable_total (hT : Tables R s v) (hr : R r) (hvp : vp < 2 ^ 36) (hc : 3 ≤ v.freeSlots.card) :
    ∃ pt v', v.findTable r (vp * 0x1000) = some (pt, v') := by
  obtain ⟨i1, i2, i3, -⟩ := index_eq vp
  unfold Vmm.findTable
  rw [i1, i2, i3]
  obtain ⟨pdpt, v₁, h1⟩ := childOrNew_total (t := r) hT (show vp / 512 ^ 3 < 512 by omega) (by omega)
  obtain ⟨e1, w1⟩ := childOrNew_spec hT hr (p := []) rfl (by decide) h1
  have c1 := e1.card
  obtain ⟨pd, v₂, h2⟩ := childOrNew_total (t := pdpt) e1.tables
    (show vp / 512 ^ 2 % 512 < 512 from Nat.mod_lt _ (by decide)) (by omega)
  obtain ⟨e2, w2⟩ := childOrNew_spec e1.tables hr w1 (by simp) h2
  have c2 := e2.card
  obtain ⟨pt, v₃, h3⟩ := tableOrNew_total (t := pd) e2.tables
    (show vp / 512 % 512 < 512 from Nat.mod_lt _ (by decide)) (by omega)
  refine ⟨pt, v₃, ?_⟩
  rw [h1, Option.bind_some]
  dsimp only
  rw [h2, Option.bind_some]
  exact h3

/-! ## One page -/

section setEntry

variable {l e : ℕ}

@[simp] theorem kids_setEntry (v : Vmm) (pt l e : ℕ) : (v.setEntry pt l e).kids = v.kids := by
  funext t i
  refine kids_congr ?_
  unfold Vmm.setEntry
  by_cases h : t = pt
  · subst h; simp
  · simp [h]

theorem entries_setEntry_of_ne (ht : t ≠ pt) : (v.setEntry pt l e).tab t = v.tab t := by
  unfold Vmm.setEntry
  exact Function.update_of_ne ht _ _

theorem physAt_setEntry (v : Vmm) (pt l e level n : ℕ) : (v.setEntry pt l e).physAt level n = v.physAt level n := by
  unfold Vmm.physAt Vmm.setEntry PageStruct.tablePhysicalAddress
  by_cases h : n = pt
  · subst h; simp
  · simp [h]

/-- The structures above a page table are not page tables. -/
theorem Tables.ne_table (hT : Tables R s v) {r' : ℕ} (hr : R r) (hr' : R r') (hp : p.length < 3)
    (ht : walk v.kids r p = some t) (hpt : walk v.kids r' (path vp) = some pt) : t ≠ pt := by
  rintro rfl
  have := hT.forest.path_eq hr hr' hp.le le_rfl ht hpt
  rw [this] at hp
  exact absurd hp (by simp)

theorem Tables.setEntry (hT : Tables R s v) (hr : R r) (hpt : walk v.kids r (path vp) = some pt) :
    Tables R s (v.setEntry pt l e) := by
  refine ⟨by rw [kids_setEntry]; exact hT.forest, hT.root, ?_, ?_, hT.begin_pos, hT.phys, hT.length⟩
  · intro r' p t i n hr' hp ht hn
    rw [kids_setEntry] at ht hn
    unfold Carries
    rw [physAt_setEntry, entries_setEntry_of_ne (hT.ne_table hr' hr hp ht hpt)]
    exact hT.carries r' p t i n hr' hp ht hn
  · rw [kids_setEntry]
    exact hT.fresh

theorem Tables.grown_setEntry (hT : Tables R s v) (hr : R r) (hpt : walk v.kids r (path vp) = some pt) :
    Grown R v (v.setEntry pt l e) := by
  refine ⟨fun _ _ _ _ _ h => by rw [kids_setEntry]; exact h, ?_, ?_, rfl, rfl⟩
  · intro r' p t i n hr' hp ht _
    rw [entries_setEntry_of_ne (hT.ne_table hr' hr hp ht hpt)]
  · intro r' p t i n _ _ ht hn
    rw [kids_setEntry] at ht hn
    exact Or.inl ⟨ht, hn⟩

/-- The page is written. -/
theorem flat_setEntry_self (hpt : walk v.kids r (path vp) = some pt) :
    flat (v.setEntry pt (vp % 512) e) r vp = e := by
  have hw : walk (v.setEntry pt (vp % 512) e).kids r (path vp) = some pt := by rw [kids_setEntry]; exact hpt
  rw [flat_of_walk hw]
  unfold Vmm.setEntry
  simp

/-- **The other pages stay**, of this root and of those that do not share the page table. -/
theorem flat_setEntry_of_ne (hT : Tables R s v) (hr : R r) (hpt : walk v.kids r (path vp) = some pt)
    {r' vp' : ℕ} (hr' : R r') (hne : vp' ≠ vp ∨ (r' ≠ r ∧ ¬ s (vp' / 512 ^ 3))) :
    flat (v.setEntry pt (vp % 512) e) r' vp' = flat v r' vp' := by
  cases hw : walk v.kids r' (path vp') with
  | none => rw [flat_of_none hw, flat_of_none (by rw [kids_setEntry]; exact hw)]
  | some a =>
    rw [flat_of_walk hw, flat_of_walk (by rw [kids_setEntry]; exact hw)]
    by_cases ha : a = pt
    · subst ha
      obtain ⟨hpe, hroot⟩ := hT.forest hr' hr le_rfl le_rfl hw hpt
      have hm : vp' % 512 ≠ vp % 512 := by
        intro hm
        obtain rfl := path_inj hpe hm
        rcases hne with h | ⟨h1, h2⟩
        · exact h rfl
        · exact hroot.elim h1 h2
      unfold Vmm.setEntry
      simp [hm]
    · rw [entries_setEntry_of_ne ha]

end setEntry

/-! ## The loop -/

/-- `v'` is `v` with the `n` pages from `vp` of `r` mapped to the frames from `pa` on. -/
structure Mapped (R : ℕ → Prop) (s : ℕ → Prop) (v v' : Vmm) (r vp n pa u : ℕ) : Prop where
  tables : Tables R s v'
  grown : Grown R v v'
  inside : ∀ k < n, flat v' r (vp + k) = Vmm.pageEntry (u64 (pa + k * 0x1000)) u
  outside : ∀ r' vp', R r' → ((vp' < vp ∨ vp + n ≤ vp') ∨ (r' ≠ r ∧ ¬ s (vp' / 512 ^ 3))) →
    flat v' r' vp' = flat v r' vp'

/-- The table of a page is the next page's too, unless that one starts a new table. -/
theorem walk_next {i e : ℕ} (hw : walk v.kids r (path vp) = some pt) :
    (vp + 1) % 512 = 0 ∨ walk (v.setEntry pt i e).kids r (path (vp + 1)) = some pt := by
  by_cases hm : (vp + 1) % 512 = 0
  · exact Or.inl hm
  · right
    rw [path_succ hm, kids_setEntry]
    exact hw

/-- The table that an iteration uses: the cached one, or a new walk where a table ends. -/
theorem table_spec (hT : Tables R s v) (hr : R r) {pt' : ℕ}
    (hpt : vp % 512 = 0 ∨ walk v.kids r (path vp) = some pt)
    (h : (if vp * 0x1000 / 0x1000 % 512 = 0 then v.findTable r (vp * 0x1000) else some (pt, v)) = some (pt', v')) :
    Extends R s v v' 3 ∧ walk v'.kids r (path vp) = some pt' ∧ (vp % 512 ≠ 0 → v' = v) := by
  rw [Nat.mul_div_cancel vp (by decide)] at h
  split_ifs at h with hm
  · obtain ⟨hE, hw⟩ := findTable_spec hT hr h
    exact ⟨hE, hw, fun hne => absurd hm hne⟩
  · obtain ⟨rfl, rfl⟩ := Prod.mk.inj (Option.some.inj h)
    have hE := hT.extends_refl
    exact ⟨⟨hT, hE.grown, hE.flat_eq, Nat.le_add_right _ _⟩, hpt.resolve_left hm, fun _ => rfl⟩

/-- **An iteration**: the table of the page is found or made, the page is written, and the loop goes on. -/
theorem mapLoop_step {u n pa : ℕ} (hT : Tables R s v) (hr : R r) (hvp : vp < 2 ^ 36)
    (hpt : vp % 512 = 0 ∨ walk v.kids r (path vp) = some pt)
    (h : Vmm.mapLoop r u (n + 1) v pa (vp * 0x1000) pt = some v') :
    ∃ pt₁ v₁, Extends R s v v₁ 3 ∧ walk v₁.kids r (path vp) = some pt₁ ∧ (vp % 512 ≠ 0 → v₁ = v) ∧
      Vmm.mapLoop r u n (v₁.setEntry pt₁ (vp % 512) (Vmm.pageEntry pa u)) (u64 (pa + 0x1000)) ((vp + 1) * 0x1000) pt₁ =
        some v' := by
  unfold Vmm.mapLoop at h
  obtain ⟨⟨pt₁, v₁⟩, h1, h2⟩ := Option.bind_eq_some_iff.1 h
  obtain ⟨hE, hw, hsame⟩ := table_spec hT hr hpt h1
  have hva : u64 (vp * 0x1000 + 0x1000) = (vp + 1) * 0x1000 := by
    unfold u64
    omega
  dsimp only at h2
  rw [(index_eq vp).2.2.2, hva] at h2
  exact ⟨pt₁, v₁, hE, hw, hsame, h2⟩

/-- **The loop of `map_memory`.** The cached table is the one of the page, unless the page is the
first one of a table. -/
theorem mapLoop_spec {u : ℕ} : ∀ n (v : Vmm) (pa vp pt : ℕ), Tables R s v → R r → pa < 2 ^ 64 → vp + n ≤ 2 ^ 36 →
    (vp % 512 = 0 ∨ walk v.kids r (path vp) = some pt) →
    Vmm.mapLoop r u n v pa (vp * 0x1000) pt = some v' → Mapped R s v v' r vp n pa u := by
  intro n
  induction n with
  | zero =>
    intro v pa vp pt hT _ _ _ _ h
    obtain rfl := Option.some.inj h
    exact ⟨hT, Grown.refl R v, fun k hk => by omega, fun _ _ _ _ => rfl⟩
  | succ n ih =>
    intro v pa vp pt hT hr hpa hvp hpt h
    obtain ⟨pt₁, v₁, hE, hw, -, hrest⟩ := mapLoop_step hT hr (by omega) hpt h
    have hM := ih _ (u64 (pa + 0x1000)) (vp + 1) pt₁ (hE.tables.setEntry hr hw) hr (Nat.mod_lt _ (by decide)) (by omega)
      (walk_next hw) hrest
    refine ⟨hM.tables, (hE.grown.trans (hE.tables.grown_setEntry hr hw)).trans hM.grown, ?_, ?_⟩
    · intro k hk
      cases k with
      | zero =>
        have hpa' : u64 (pa + 0 * 0x1000) = pa := by unfold u64; omega
        rw [hM.outside r (vp + 0) hr (Or.inl (Or.inl (by omega))), hpa']
        exact flat_setEntry_self hw
      | succ k =>
        have hadd : vp + (k + 1) = vp + 1 + k := by omega
        have hpa' : u64 (u64 (pa + 0x1000) + k * 0x1000) = u64 (pa + (k + 1) * 0x1000) := by unfold u64; omega
        rw [hadd, hM.inside k (by omega), hpa']
    · intro r' vp' hr' hout
      have h3 : (vp' < vp + 1 ∨ vp + 1 + n ≤ vp') ∨ (r' ≠ r ∧ ¬ s (vp' / 512 ^ 3)) :=
        hout.imp (fun h => by omega) id
      have h4 : vp' ≠ vp ∨ (r' ≠ r ∧ ¬ s (vp' / 512 ^ 3)) := hout.imp (fun h => by omega) id
      rw [hM.outside r' vp' hr' h3, flat_setEntry_of_ne hE.tables hr hw hr' h4, hE.flat_eq r' vp' hr']

/-- After the last page of the address space there is no index in the PML4T. -/
theorem findTable_end : v.findTable r (2 ^ 36 * 0x1000) = none := by
  unfold Vmm.findTable Vmm.childOrNew
  rw [if_pos (by decide)]
  rfl

/-- The loop does not go on after the last page. -/
theorem mapLoop_range {u : ℕ} : ∀ n (v : Vmm) (pa vp pt : ℕ), vp ≤ 2 ^ 36 →
    Vmm.mapLoop r u n v pa (vp * 0x1000) pt = some v' → vp + n ≤ 2 ^ 36 := by
  intro n
  induction n with
  | zero => intro v pa vp pt hvp _; exact hvp
  | succ n ih =>
    intro v pa vp pt hvp h
    unfold Vmm.mapLoop at h
    obtain ⟨⟨pt₁, v₁⟩, h1, h2⟩ := Option.bind_eq_some_iff.1 h
    rcases Nat.eq_or_lt_of_le hvp with rfl | hlt
    · rw [if_pos (by decide), findTable_end] at h1
      cases h1
    · have hva : u64 (vp * 0x1000 + 0x1000) = (vp + 1) * 0x1000 := by unfold u64; omega
      dsimp only at h2
      rw [hva] at h2
      have := ih _ _ (vp + 1) pt₁ hlt h2
      omega

/-- `map_memory` finds the first table, and maps the pages. -/
theorem mapMemory_cases {pa va amount u st : ℕ} (hT : Tables R s v) (hr : R r)
    (h : v.mapMemory pa va amount r u = some (st, v')) : st = GENERIC_SUCCESS ∧ va % 2 ^ 48 / 0x1000 + amount ≤ 2 ^ 36 ∧
      ∃ pt v₁, Extends R s v v₁ 3 ∧ walk v₁.kids r (path (va % 2 ^ 48 / 0x1000)) = some pt ∧
        Vmm.mapLoop r u amount v₁ (pa &&& 0xFFFFFFFFFFFFF000) (va % 2 ^ 48 / 0x1000 * 0x1000) pt = some v' := by
  unfold Vmm.mapMemory at h
  rw [if_neg (hT.root r hr), and_page] at h
  obtain ⟨⟨pt, v₁⟩, h1, h2⟩ := Option.bind_eq_some_iff.1 h
  obtain ⟨hE, hw⟩ := findTable_spec hT hr h1
  obtain ⟨v₂, h3, h4⟩ := Option.map_eq_some_iff.1 h2
  obtain ⟨rfl, rfl⟩ := Prod.mk.inj h4
  exact ⟨rfl, mapLoop_range amount v₁ _ _ pt (by omega) h3, pt, v₁, hE, hw, h3⟩

/-- **What `map_memory` does** to a forest of address spaces. -/
theorem mapMemory_spec {pa va amount u st : ℕ} (hT : Tables R s v) (hr : R r)
    (h : v.mapMemory pa va amount r u = some (st, v')) :
    st = GENERIC_SUCCESS ∧
      Mapped R s v v' r (va % 2 ^ 48 / 0x1000) amount (pa &&& 0xFFFFFFFFFFFFF000) u := by
  obtain ⟨hst, hvp, pt, v₁, hE, hw, hloop⟩ := mapMemory_cases hT hr h
  have hpa : pa &&& 0xFFFFFFFFFFFFF000 < 2 ^ 64 := by
    rw [and_frame]
    omega
  have hM := mapLoop_spec amount v₁ _ _ pt hE.tables hr hpa hvp (Or.inr hw) hloop
  refine ⟨hst, hM.tables, hE.grown.trans hM.grown, hM.inside, fun r' vp' hr' hout => ?_⟩
  rw [hM.outside r' vp' hr' hout, hE.flat_eq r' vp' hr']

/-- A range that was mapped ends in the address space. -/
theorem mapMemory_range {pa va amount u st : ℕ} (hT : Tables R s v) (hr : R r)
    (h : v.mapMemory pa va amount r u = some (st, v')) : va % 2 ^ 48 / 0x1000 + amount ≤ 2 ^ 36 :=
  (mapMemory_cases hT hr h).2.1

/-! ## `unmap_memory` -/

/-- `v'` is `v` with no changes but to pages of `r` from `vp` on. -/
structure Unmapped (R : ℕ → Prop) (s : ℕ → Prop) (v v' : Vmm) (r vp : ℕ) : Prop where
  tables : Tables R s v'
  grown : Grown R v v'
  outside : ∀ r' vp', R r' → (vp' < vp ∨ (r' ≠ r ∧ ¬ s (vp' / 512 ^ 3))) → flat v' r' vp' = flat v r' vp'

theorem Tables.unmapped_refl (hT : Tables R s v) (r vp : ℕ) : Unmapped R s v v r vp :=
  ⟨hT, Grown.refl R v, fun _ _ _ _ => rfl⟩

theorem unmapLoop_spec : ∀ n (v : Vmm) (vp : ℕ), Tables R s v → R r → vp ≤ 2 ^ 36 →
    Vmm.unmapLoop r n v (vp * 0x1000) = some v' → Unmapped R s v v' r vp := by
  intro n
  induction n with
  | zero =>
    intro v vp hT _ _ h
    obtain rfl := Option.some.inj h
    exact hT.unmapped_refl r vp
  | succ n ih =>
    intro v vp hT hr hvp h
    unfold Vmm.unmapLoop at h
    rw [(index_eq vp).1, (index_eq vp).2.2.2] at h
    split_ifs at h with hi
    have hlt : vp < 2 ^ 36 := by omega
    dsimp only at h
    rw [lookupTable_eq hlt] at h
    cases hw : walk v.kids r (path vp) with
    | none =>
      -- the source goes on to the next round with the same address
      rw [hw, Option.getD_none, if_pos rfl] at h
      exact ih v vp hT hr hvp h
    | some pt =>
      have hva : u64 (vp * 0x1000 + 0x1000) = (vp + 1) * 0x1000 := by unfold u64; omega
      rw [hw, hva, Option.getD_some, if_neg (walk_ne_null (hT.root r hr) hw)] at h
      have hU := ih _ (vp + 1) (hT.setEntry hr hw) hr hlt h
      refine ⟨hU.tables, (hT.grown_setEntry hr hw).trans hU.grown, fun r' vp' hr' hout => ?_⟩
      rw [hU.outside r' vp' hr' (hout.imp (fun h => by omega) id)]
      exact flat_setEntry_of_ne hT hr hw hr' (hout.imp (fun h => by omega) id)

/-- `unmap_memory` changes no page before its range. -/
theorem unmapMemory_spec {va amount st : ℕ} (hT : Tables R s v) (hr : R r)
    (h : v.unmapMemory va amount r = some (st, v')) : Unmapped R s v v' r (va % 2 ^ 48 / 0x1000) := by
  unfold Vmm.unmapMemory at h
  rw [if_neg (hT.root r hr), and_page] at h
  dsimp only at h
  split_ifs at h with h0
  · obtain ⟨-, rfl⟩ := Prod.mk.inj (Option.some.inj h)
    exact hT.unmapped_refl r _
  · obtain ⟨v₁, h1, h2⟩ := Option.map_eq_some_iff.1 h
    obtain ⟨-, rfl⟩ := Prod.mk.inj h2
    exact unmapLoop_spec amount v _ hT hr (by omega) h1

/-- `v'` is `v` with the `n` pages from `vp` of `r` unmapped. -/
structure Erased (R : ℕ → Prop) (s : ℕ → Prop) (v v' : Vmm) (r vp n : ℕ) : Prop where
  tables : Tables R s v'
  grown : Grown R v v'
  inside : ∀ k < n, flat v' r (vp + k) = 0
  outside : ∀ r' vp', R r' → ((vp' < vp ∨ vp + n ≤ vp') ∨ (r' ≠ r ∧ ¬ s (vp' / 512 ^ 3))) →
    flat v' r' vp' = flat v r' vp'

/-- One page, and then the `n` pages behind it. -/
theorem Tables.erased_cons {vp n : ℕ} (hT : Tables R s v) (hr : R r) (hpt : walk v.kids r (path vp) = some pt)
    (hE : Erased R s (v.setEntry pt (vp % 512) 0) v' r (vp + 1) n) : Erased R s v v' r vp (n + 1) := by
  refine ⟨hE.tables, (hT.grown_setEntry hr hpt).trans hE.grown, fun k hk => ?_, fun r' vp' hr' hout => ?_⟩
  · cases k with
    | zero =>
      rw [hE.outside r (vp + 0) hr (Or.inl (Or.inl (by omega)))]
      exact flat_setEntry_self hpt
    | succ k =>
      have hadd : vp + (k + 1) = vp + 1 + k := by omega
      rw [hadd]
      exact hE.inside k (by omega)
  · rw [hE.outside r' vp' hr' (hout.imp (fun h => by omega) id)]
    exact flat_setEntry_of_ne hT hr hpt hr' (hout.imp (fun h => by omega) id)

/-- A missing table ends a round before `va` moves on, so every further round finds it again. -/
theorem unmapLoop_stays {vp : ℕ} (hvp : vp < 2 ^ 36) (hw : walk v.kids r (path vp) = none) :
    ∀ n, Vmm.unmapLoop r n v (vp * 0x1000) = some v := by
  intro n
  induction n with
  | zero => rfl
  | succ n ih =>
    unfold Vmm.unmapLoop
    rw [(index_eq vp).1, if_neg (by omega), lookupTable_eq hvp, hw]
    dsimp only
    rw [Option.getD_none, if_pos rfl]
    exact ih

/-- **The loop of `unmap_memory`** unmaps the pages up to the first one that has no table, and
stays there for the rest of its rounds. -/
theorem unmapLoop_stops : ∀ n (v : Vmm) (vp : ℕ), Tables R s v → R r → vp + n ≤ 2 ^ 36 →
    ∃ v' m, Vmm.unmapLoop r n v (vp * 0x1000) = some v' ∧ Erased R s v v' r vp m ∧ m ≤ n ∧
      (∀ k < m, walk v.kids r (path (vp + k)) ≠ none) ∧ (m < n → walk v.kids r (path (vp + m)) = none) := by
  intro n
  induction n with
  | zero =>
    intro v vp hT _ _
    exact ⟨v, 0, rfl, ⟨hT, Grown.refl R v, fun k hk => by omega, fun _ _ _ _ => rfl⟩, Nat.le_refl _,
      fun k hk => by omega, fun h => by omega⟩
  | succ n ih =>
    intro v vp hT hr hvp
    cases hw : walk v.kids r (path vp) with
    | none =>
      exact ⟨v, 0, unmapLoop_stays (by omega) hw _, ⟨hT, Grown.refl R v, fun k hk => by omega, fun _ _ _ _ => rfl⟩,
        by omega, fun k hk => by omega, fun _ => hw⟩
    | some pt =>
      have hva : u64 (vp * 0x1000 + 0x1000) = (vp + 1) * 0x1000 := by unfold u64; omega
      obtain ⟨v', m, h1, hE, hmn, h2, h3⟩ := ih (v.setEntry pt (vp % 512) 0) (vp + 1) (hT.setEntry hr hw) hr (by omega)
      unfold Vmm.unmapLoop
      rw [(index_eq vp).1, (index_eq vp).2.2.2, if_neg (by omega), lookupTable_eq (by omega), hw, hva]
      dsimp only
      rw [Option.getD_some, if_neg (walk_ne_null (hT.root r hr) hw)]
      refine ⟨v', m + 1, h1, hT.erased_cons hr hw hE, by omega, fun k hk => ?_, fun hm => ?_⟩
      · cases k with
        | zero => rw [Nat.add_zero, hw]; exact Option.some_ne_none pt
        | succ k =>
          have hadd : vp + (k + 1) = vp + 1 + k := by omega
          rw [hadd, ← kids_setEntry v pt (vp % 512) 0]
          exact h2 k (by omega)
      · have hadd : vp + (m + 1) = vp + 1 + m := by omega
        rw [hadd, ← h3 (by omega), kids_setEntry]

/-- **Mapped pages are unmapped**, and no others. -/
theorem unmapMemory_erases {va amount : ℕ} (hT : Tables R s v) (hr : R r)
    (hva : va % 2 ^ 48 / 0x1000 + amount ≤ 2 ^ 36)
    (hw : ∀ k < amount, flat v r (va % 2 ^ 48 / 0x1000 + k) ≠ 0) :
    ∃ st v', v.unmapMemory va amount r = some (st, v') ∧ Erased R s v v' r (va % 2 ^ 48 / 0x1000) amount := by
  have hw' : ∀ k < amount, walk v.kids r (path (va % 2 ^ 48 / 0x1000 + k)) ≠ none := fun k hk h0 =>
    hw k hk (flat_of_none h0)
  obtain ⟨v', m, h1, hE, hm, -, hstop⟩ := unmapLoop_stops amount v _ hT hr hva
  obtain rfl : m = amount := by
    by_contra hne
    exact hw' m (by omega) (hstop (by omega))
  unfold Vmm.unmapMemory
  rw [if_neg (hT.root r hr), and_page]
  dsimp only
  split_ifs with h0
  · -- the first table is missing, so there were no pages to unmap
    refine ⟨_, _, rfl, hT, Grown.refl R v, fun k hk => ?_, fun _ _ _ _ => rfl⟩
    rw [lookupTable_eq (by omega)] at h0
    obtain ⟨pt, hpt⟩ := Option.ne_none_iff_exists'.1 (hw' 0 (by omega))
    rw [Nat.add_zero] at hpt
    rw [hpt, Option.getD_some] at h0
    exact absurd h0 (walk_ne_null (hT.root r hr) hpt)
  · exact ⟨_, v', by rw [h1]; rfl, hE⟩

/-- One page is always unmapped. -/
theorem unmapMemory_one (v : Vmm) (va r : ℕ) : ∃ st v', v.unmapMemory va 1 r = some (st, v') := by
  unfold Vmm.unmapMemory
  split_ifs
  · exact ⟨_, _, rfl⟩
  · rw [and_page]
    dsimp only
    split_ifs with h0
    · exact ⟨_, _, rfl⟩
    · unfold Vmm.unmapLoop
      rw [if_neg (by omega)]
      dsimp only
      rw [if_neg h0]
      exact ⟨_, _, rfl⟩

/-- `unmap_memory` takes no structures. -/
theorem unmapLoop_slots : ∀ n (v : Vmm) (va : ℕ), Vmm.unmapLoop r n v va = some v' → v'.freeSlots = v.freeSlots := by
  intro n
  induction n with
  | zero =>
    intro v va h
    obtain rfl := Option.some.inj h
    rfl
  | succ n ih =>
    intro v va h
    unfold Vmm.unmapLoop at h
    dsimp only at h
    split_ifs at h
    · exact ih v va h
    · exact (ih _ (u64 (va + 0x1000)) h).trans rfl

theorem unmapMemory_slots {va amount st : ℕ} (h : v.unmapMemory va amount r = some (st, v')) :
    v'.freeSlots = v.freeSlots := by
  unfold Vmm.unmapMemory at h
  dsimp only at h
  split_ifs at h
  · rw [(Prod.mk.inj (Option.some.inj h)).2]
  · rw [(Prod.mk.inj (Option.some.inj h)).2]
  · obtain ⟨v₁, h1, h2⟩ := Option.map_eq_some_iff.1 h
    rw [← (Prod.mk.inj h2).2]
    exact unmapLoop_slots amount v _ h1

/-! ## Enough structures -/

/-- The loop returns if there are three free slots for every table that begins in the range. -/
theorem mapLoop_total {u : ℕ} : ∀ n (v : Vmm) (pa vp pt : ℕ), Tables R s v → R r → vp + n ≤ 2 ^ 36 →
    (vp % 512 = 0 ∨ walk v.kids r (path vp) = some pt) →
    3 * ((vp + n + 511) / 512 - (vp + 511) / 512) ≤ v.freeSlots.card →
    ∃ v', Vmm.mapLoop r u n v pa (vp * 0x1000) pt = some v' := by
  intro n
  induction n with
  | zero => intro v pa vp pt _ _ _ _ _; exact ⟨v, rfl⟩
  | succ n ih =>
    intro v pa vp pt hT hr hvp hpt hc
    have htab : ∃ pt₁ v₁, (if vp * 0x1000 / 0x1000 % 512 = 0 then v.findTable r (vp * 0x1000)
        else some (pt, v)) = some (pt₁, v₁) := by
      rw [Nat.mul_div_cancel vp (by decide)]
      split_ifs with hm
      · exact findTable_total hT hr (show vp < 2 ^ 36 by omega) (by omega)
      · exact ⟨pt, v, rfl⟩
    obtain ⟨pt₁, v₁, h1⟩ := htab
    obtain ⟨hE, hw, hv₁⟩ := table_spec hT hr hpt h1
    have hva : u64 (vp * 0x1000 + 0x1000) = (vp + 1) * 0x1000 := by unfold u64; omega
    -- a page that starts a table pays for its three structures, and the others for none
    have hcard : 3 * ((vp + 1 + n + 511) / 512 - (vp + 1 + 511) / 512) ≤ v₁.freeSlots.card := by
      by_cases hm : vp % 512 = 0
      · have := hE.card
        omega
      · rw [hv₁ hm]
        omega
    unfold Vmm.mapLoop
    rw [h1, Option.bind_some]
    dsimp only
    rw [(index_eq vp).2.2.2, hva]
    exact ih _ _ (vp + 1) pt₁ (hE.tables.setEntry hr hw) hr (by omega) (walk_next hw) hcard

theorem mapMemory_total {pa va amount u : ℕ} (hT : Tables R s v) (hr : R r)
    (hva : va % 2 ^ 48 + amount * 0x1000 ≤ 2 ^ 48) (hc : 3 * (amount / 512 + 2) ≤ v.freeSlots.card) :
    ∃ v', v.mapMemory pa va amount r u = some (GENERIC_SUCCESS, v') := by
  unfold Vmm.mapMemory
  rw [if_neg (hT.root r hr), and_page]
  dsimp only
  obtain ⟨pt, v₁, h1⟩ := findTable_total hT hr (show va % 2 ^ 48 / 0x1000 < 2 ^ 36 by omega) (by omega)
  obtain ⟨hE, hw⟩ := findTable_spec hT hr h1
  have hcard := hE.card
  obtain ⟨v₂, h2⟩ := mapLoop_total (u := u) amount v₁ (pa &&& 0xFFFFFFFFFFFFF000) (va % 2 ^ 48 / 0x1000) pt hE.tables hr
    (by omega) (Or.inr hw) (by omega)
  refine ⟨v₂, ?_⟩
  rw [h1, Option.bind_some]
  dsimp only
  rw [h2]
  rfl

/-- The loop takes three structures at most for every table that begins in the range. -/
theorem mapLoop_slots {u : ℕ} : ∀ n (v : Vmm) (pa vp pt : ℕ), Tables R s v → R r → vp + n ≤ 2 ^ 36 →
    (vp % 512 = 0 ∨ walk v.kids r (path vp) = some pt) →
    Vmm.mapLoop r u n v pa (vp * 0x1000) pt = some v' →
    v.freeSlots.card ≤ v'.freeSlots.card + 3 * ((vp + n + 511) / 512 - (vp + 511) / 512) := by
  intro n
  induction n with
  | zero =>
    intro v pa vp pt _ _ _ _ h
    obtain rfl := Option.some.inj h
    omega
  | succ n ih =>
    intro v pa vp pt hT hr hvp hpt h
    obtain ⟨pt₁, v₁, hE, hw, hsame, hrest⟩ := mapLoop_step hT hr (by omega) hpt h
    have hc := ih _ _ (vp + 1) pt₁ (hE.tables.setEntry hr hw) hr (by omega) (walk_next hw) hrest
    change v₁.freeSlots.card ≤ _ at hc
    -- a page that starts a table pays for its three structures, and the others for none
    by_cases hm : vp % 512 = 0
    · have := hE.card
      omega
    · rw [hsame hm] at hc
      omega

theorem mapMemory_slots {pa va amount u st : ℕ} (hT : Tables R s v) (hr : R r)
    (h : v.mapMemory pa va amount r u = some (st, v')) :
    v.freeSlots.card ≤ v'.freeSlots.card + 3 * (amount / 512 + 2) := by
  obtain ⟨-, hvp, pt, v₁, hE, hw, hloop⟩ := mapMemory_cases hT hr h
  have hc := mapLoop_slots amount v₁ _ _ pt hE.tables hr hvp (Or.inr hw) hloop
  have hcard := hE.card
  omega

/-! ## One address space -/

/-- The structures of an address space form a tree, in which the entries carry the physical
addresses of the children. -/
structure PageTree (v : Vmm) (pml4t : ℕ) : Prop where
  root : pml4t ≠ NULL
  tree : ∀ p q n, p.length ≤ 3 → q.length ≤ 3 →
    walk v.kids pml4t p = some n → walk v.kids pml4t q = some n → p = q
  carries : ∀ p t i n, p.length < 3 → walk v.kids pml4t p = some t → v.kids t i = some n →
    Carries v p.length t i n

/-- The free slots of the page heap are not in the address space, and they are aligned. -/
structure FreshHeap (v : Vmm) (pml4t : ℕ) : Prop where
  fresh : ∀ j ∈ v.freeSlots, ∀ p, p.length ≤ 3 → walk v.kids pml4t p ≠ some (v.pageStructAt j)
  begin_pos : 0 < v.pageHeapBegin
  phys : v.pageHeapPhys % 0x1000 = 0
  length : v.pageHeapBitmapLength % 0x1000 = 0

theorem PageTree.tables (h : PageTree v r) (hf : FreshHeap v r) : Tables (· = r) s v := by
  refine ⟨?_, ?_, ?_, ?_, hf.begin_pos, hf.phys, hf.length⟩
  · rintro r₁ r₂ p q n rfl rfl hp hq h1 h2
    exact ⟨h.tree p q n hp hq h1 h2, Or.inl rfl⟩
  · rintro _ rfl
    exact h.root
  · rintro _ p t i n rfl hp ht hn
    exact h.carries p t i n hp ht hn
  · rintro j hj ⟨_, p, rfl, hp, hw⟩
    exact hf.fresh j hj p hp hw

theorem Tables.pageTree (h : Tables (· = r) s v) : PageTree v r :=
  ⟨h.root r rfl, fun _ _ _ hp hq h1 h2 => h.forest.path_eq rfl rfl hp hq h1 h2,
    fun p t i n hp ht hn => h.carries r p t i n rfl hp ht hn⟩

theorem Tables.freshHeap (h : Tables (· = r) s v) : FreshHeap v r :=
  ⟨fun j hj p hp hw => h.fresh j hj ⟨r, p, rfl, hp, hw⟩, h.begin_pos, h.phys, h.length⟩

/-- **`map_memory` refines a flat page map.** When it returns, every page of the range has the entry
of its frame, every other page has the entry it had, and the structures form a tree
again. It returns when the page heap has the slots that the range may need. -/
theorem map_memory_refines {pml4t : ℕ} (ht : PageTree v pml4t) (hf : FreshHeap v pml4t) (pa va amount u : ℕ)
    (hva : va % 2 ^ 48 + amount * 0x1000 ≤ 2 ^ 48) :
    (∀ st v', v.mapMemory pa va amount pml4t u = some (st, v') →
      st = GENERIC_SUCCESS ∧ PageTree v' pml4t ∧ FreshHeap v' pml4t ∧
      (∀ k < amount, v'.getPageEntry pml4t (va + k * 0x1000) =
        if u ≠ 0 then u64 ((pa &&& 0xFFFFFFFFFFFFF000) + k * 0x1000) ||| 4 ||| 2 ||| 1
        else u64 ((pa &&& 0xFFFFFFFFFFFFF000) + k * 0x1000) ||| 2 ||| 1) ∧
      ∀ va', (∀ k < amount, va' % 2 ^ 48 / 0x1000 ≠ (va + k * 0x1000) % 2 ^ 48 / 0x1000) →
        v'.getPageEntry pml4t va' = v.getPageEntry pml4t va') ∧
    (3 * (amount / 512 + 2) ≤ v.freeSlots.card →
      ∃ v', v.mapMemory pa va amount pml4t u = some (GENERIC_SUCCESS, v')) := by
  have hT : Tables (· = pml4t) (fun _ => False) v := ht.tables hf
  refine ⟨fun st v' h => ?_, fun hc => mapMemory_total hT rfl hva hc⟩
  obtain ⟨hst, hM⟩ := mapMemory_spec hT rfl h
  refine ⟨hst, hM.tables.pageTree, hM.tables.freshHeap, ?_, ?_⟩
  · intro k hk
    have hvp : (va + k * 0x1000) % 2 ^ 48 / 0x1000 = va % 2 ^ 48 / 0x1000 + k := by omega
    rw [getPageEntry_eq ht.root, hvp, hM.inside k hk]
    rfl
  · intro va' hout
    rw [getPageEntry_eq ht.root, getPageEntry_eq ht.root]
    refine hM.outside pml4t _ rfl (Or.inl ?_)
    by_contra hc
    have h1 := hout (va' % 2 ^ 48 / 0x1000 - va % 2 ^ 48 / 0x1000) (by omega)
    omega

/-- An address space without pages at `0x1000`, and a page heap that is free. -/
def emptySpace : Vmm := ⟨fun _ => ⟨fun _ => 0, fun _ => 0, 0⟩, 0xFFFFFFFF90000000, 0x400000, 0x2000, fun _ => 0⟩

theorem walk_emptySpace {a : ℕ} (h : walk emptySpace.kids r p = some a) : p = [] ∧ a = r := by
  cases p with
  | nil => exact ⟨rfl, (Option.some.inj h).symm⟩
  | cons i p =>
    rw [walk_cons, kids_of_eq rfl] at h
    cases h

theorem pageTree_emptySpace : PageTree emptySpace 0x1000 := by
  refine ⟨by decide, fun p q n _ _ h1 h2 => ?_, fun p t i n _ _ hn => ?_⟩
  · rw [(walk_emptySpace h1).1, (walk_emptySpace h2).1]
  · rw [kids_of_eq rfl] at hn
    cases hn

theorem freshHeap_emptySpace : FreshHeap emptySpace 0x1000 := by
  refine ⟨fun j _ p _ h => ?_, by decide, by decide, by decide⟩
  have hs : 0xFFFFFFFF90000000 + 0x2000 + j * 0x3000 = 0x1000 := (walk_emptySpace h).2
  omega

theorem card_freeSlots_emptySpace : emptySpace.freeSlots.card = 0x10000 := by
  have h : emptySpace.freeSlots = Finset.range 0x10000 := by
    ext j
    rw [mem_freeSlots, Finset.mem_range]
    simp [emptySpace, test]
  rw [h, Finset.card_range]

/-- A thousand pages across the boundaries of a table, of a directory and of a PDPT. -/
theorem map_memory_refines_thousand : ∃ v',
    emptySpace.mapMemory 0x200123 0x7FFFFFF000 1000 0x1000 1 = some (GENERIC_SUCCESS, v') ∧
      v'.getPageEntry 0x1000 0x7FFFFFF000 = 0x200007 ∧ v'.getPageEntry 0x1000 0x8000000000 = 0x201007 ∧
      v'.getPageEntry 0x1000 0x7FFFFFE000 = 0 ∧ PageTree v' 0x1000 := by
  have h := map_memory_refines pageTree_emptySpace freshHeap_emptySpace 0x200123 0x7FFFFFF000 1000 1 (by decide)
  obtain ⟨v', hv'⟩ := h.2 (by rw [card_freeSlots_emptySpace]; decide)
  obtain ⟨-, h1, -, h3, h4⟩ := h.1 _ v' hv'
  refine ⟨v', hv', ?_, ?_, ?_, h1⟩
  · exact h3 0 (by decide)
  · exact h3 1 (by decide)
  · rw [h4 0x7FFFFFE000 (fun k hk => by omega)]
    decide

end Nettapus
