import Nettapus.Code.AllocPages
import Nettapus.Lib.FirstRun
import Nettapus.Proof.SpaceRun
import Nettapus.Proof.Pmm

/-!
# What `alloc_pages` allocates

The scan looks for a page table at the first page and where a table begins, and it finds the one at 16 times the index
that it should have: for the page `vp` it looks at the entry of the page `seenPage b vp`.

* `seenPage_eq_iff`: when this is the page itself.
* `allocPagesLoop_spec`: the scan stops at the first run of pages that look free.
* `alloc_pages_iff`: when what it allocates is fresh and in bounds.
-/

namespace Nettapus

open Forest

variable {z z' z₀ : Spaces} {v v' : Vmm} {R : ℕ → Prop} {s : ℕ → Prop} {r t i pt vp b c amount base limit u ia fuel a : ℕ}

/-! ## The page that the scan looks at -/

/-- Where the scan looked for the page table last: at the page `b` it begins with, or at the first page of a table. -/
def scanStart (b vp : ℕ) : ℕ := max b (vp / 512 * 512)

/-- The page whose entry the scan looks at for `vp`. -/
def seenPage (b vp : ℕ) : ℕ :=
  scanStart b vp / 512 ^ 2 * 512 ^ 2 + scanStart b vp % 512 ^ 2 / 32 * 512 + vp % 512

/-- The page looks free. -/
def LooksFree (v : Vmm) (r b vp : ℕ) : Prop := flat v r (seenPage b vp) &&& 1 = 0

theorem scanStart_of_first (h : vp % 512 = 0 ∨ vp = b) (hb : b ≤ vp) : scanStart b vp = vp := by
  unfold scanStart
  omega

/-- The next page of a table. -/
theorem seenPage_succ (h : (vp + 1) % 512 ≠ 0) (hb : b ≤ vp) : scanStart b (vp + 1) = scanStart b vp ∧
    path (seenPage b (vp + 1)) = path (seenPage b vp) := by
  have hs : scanStart b (vp + 1) = scanStart b vp := by
    unfold scanStart
    omega
  have hq : seenPage b (vp + 1) = seenPage b vp + 1 := by
    unfold seenPage
    omega
  have hm : (seenPage b vp + 1) % 512 ≠ 0 := by
    unfold seenPage
    omega
  exact ⟨hs, by rw [hq, path_succ hm]⟩

/-- The index of the page directory, as the scan computes it. -/
theorem scanIndex_eq (vp : ℕ) : vp * 0x1000 % 0x40000000 / 0x20000 = vp % 512 ^ 2 / 32 := by omega

/-- Another page of the same directory. -/
theorem dir_index (vp : ℕ) {x : ℕ} (hx : x < 512 ^ 2) : (vp / 512 ^ 2 * 512 ^ 2 + x) / 512 ^ 3 = vp / 512 ^ 3 ∧
    (vp / 512 ^ 2 * 512 ^ 2 + x) / 512 ^ 2 % 512 = vp / 512 ^ 2 % 512 ∧
    (vp / 512 ^ 2 * 512 ^ 2 + x) / 512 % 512 = x / 512 := by
  refine ⟨by omega, by omega, by omega⟩

/-- **The index of the scan** is that of another page. -/
theorem scanTable_eq (h : vp % 512 = 0 ∨ vp = b) (hb : b ≤ vp) (hc : vp % 512 ^ 2 < 2 ^ 14) :
    v.scanTable r (vp * 0x1000) = v.findTable r (seenPage b vp * 0x1000) := by
  have hseen : seenPage b vp = vp / 512 ^ 2 * 512 ^ 2 + (vp % 512 ^ 2 / 32 * 512 + vp % 512) := by
    unfold seenPage
    rw [scanStart_of_first h hb, Nat.add_assoc]
  have hx : vp % 512 ^ 2 / 32 * 512 + vp % 512 < 512 ^ 2 := by omega
  have hk : (vp % 512 ^ 2 / 32 * 512 + vp % 512) / 512 = vp % 512 ^ 2 / 32 := by omega
  obtain ⟨h1, h2, h3⟩ := dir_index vp hx
  rw [hk] at h3
  rw [← hseen] at h1 h2 h3
  obtain ⟨i1, i2, i3, -⟩ := index_eq (seenPage b vp)
  obtain ⟨j1, j2, -, -⟩ := index_eq vp
  have j3 := scanIndex_eq vp
  unfold Vmm.scanTable Vmm.findTable
  rw [i1, i2, i3, j1, j2, j3, h1, h2, h3]

/-- Past 64 MiB the index is past the end of `child`. -/
theorem scanTable_lt (h : v.scanTable r (vp * 0x1000) = some (pt, v')) : vp % 512 ^ 2 < 2 ^ 14 := by
  unfold Vmm.scanTable at h
  obtain ⟨⟨pdpt, v₁⟩, -, h⟩ := Option.bind_eq_some_iff.1 h
  obtain ⟨⟨pd, v₂⟩, -, h⟩ := Option.bind_eq_some_iff.1 h
  dsimp only at h
  unfold Vmm.tableOrNew at h
  by_contra hc
  rw [if_pos (by omega)] at h
  cases h

/-! ## The scan -/

theorem next_eq (vp : ℕ) : u64 (vp * 0x1000 + 0x1000) &&& 0x0000FFFFFFFFF000 = (vp + 1) % 2 ^ 36 * 0x1000 := by
  rw [and_page]
  unfold u64
  omega

/-- More iterations make no difference: the scan ends where the index is past the end of `child`. -/
theorem allocPagesLoop_fuel (hb : base % 2 ^ 48 / 0x1000 = b) (extra : ℕ) : ∀ n z vp pt ia, vp < 2 ^ 36 → 1 ≤ n →
    (vp % 512 ^ 2 < 2 ^ 14 ∨ vp % 512 = 0 ∨ vp = b) → (vp % 512 ^ 2 < 2 ^ 14 → 2 ^ 14 < n + vp % 512 ^ 2) →
    Spaces.allocPagesLoop amount base limit u (n + extra) z (vp * 0x1000) pt ia =
      Spaces.allocPagesLoop amount base limit u n z (vp * 0x1000) pt ia := by
  intro n
  induction n with
  | zero => exact fun z vp pt ia _ h => absurd h (by decide)
  | succ n ih =>
    intro z vp pt ia hvp _ hlook hn
    rw [Nat.add_right_comm]
    unfold Spaces.allocPagesLoop
    rw [and_page, hb, next_eq, Nat.mul_div_cancel vp (by decide)]
    refine if_congr Iff.rfl rfl (Option.bind_congr fun p hp => ?_)
    have hlt : vp % 512 ^ 2 < 2 ^ 14 := by
      split_ifs at hp with hc
      · exact scanTable_lt hp
      · omega
    have hnext : (vp + 1) % 2 ^ 36 = vp + 1 := by omega
    have hstep : ∀ z pt ia, Spaces.allocPagesLoop amount base limit u (n + extra) z ((vp + 1) * 0x1000) pt ia =
        Spaces.allocPagesLoop amount base limit u n z ((vp + 1) * 0x1000) pt ia :=
      fun z pt ia => ih z (vp + 1) pt ia (by omega) (by omega) (by omega) (by omega)
    rw [hnext]
    simp only [hstep]

/-- The scan is at the page `vp`, with the table `pt`, and has counted `ia` pages. -/
structure Scanning (R s : ℕ → Prop) (z₀ : Spaces) (b amount : ℕ) (z : Spaces) (vp pt ia : ℕ) : Prop where
  same : z = { z₀ with vmm := z.vmm }
  tables : Tables R s z.vmm
  flat_eq : ∀ r vp, R r → flat z.vmm r vp = flat z₀.vmm r vp
  counted : FirstRun.Counted (LooksFree z₀.vmm z₀.kpml4 b) b amount vp ia
  /-- The table is the one of the page that is looked at, unless it will be looked for. -/
  table : vp % 512 = 0 ∨ vp = b ∨
    (vp % 512 ^ 2 < 2 ^ 14 ∧ walk z.vmm.kids z₀.kpml4 (path (seenPage b vp)) = some pt)

/-- `alloc_pages` found the pages from `w` on, and mapped them. -/
structure Allocated (R s : ℕ → Prop) (z₀ : Spaces) (b amount limit u w : ℕ) (z' : Spaces) : Prop where
  first : FirstRun.First (LooksFree z₀.vmm z₀.kpml4 b) b amount w
  last : (w + amount - 1) * 0x1000 ≤ limit
  room : w + amount < 2 ^ 36
  frames : (Nettapus.allocpps z₀.mem amount).1 ≠ 0
  mapped : ∃ v v' st, Tables R s v ∧ (∀ r vp, R r → flat v r vp = flat z₀.vmm r vp) ∧
    v.mapMemory (u64 ((Nettapus.allocpps z₀.mem amount).1 * 0x1000)) (w * 0x1000) amount z₀.kpml4 u = some (st, v') ∧
    z' = { z₀ with vmm := v', mem := (Nettapus.allocpps z₀.mem amount).2, cr3 := z₀.kpml4 }

/-- One look for the table, where it is due. -/
theorem Scanning.look (h : Scanning R s z₀ b amount z vp pt ia) (hr : R z₀.kpml4) {pt' : ℕ}
    (hm : (if vp * 0x1000 / 0x1000 % 512 = 0 ∨ vp * 0x1000 = b * 0x1000 then z.vmm.scanTable z.kpml4 (vp * 0x1000)
      else some (pt, z.vmm)) = some (pt', v')) :
    Scanning R s z₀ b amount { z with vmm := v' } vp pt' ia ∧ vp % 512 ^ 2 < 2 ^ 14 ∧
      walk v'.kids z₀.kpml4 (path (seenPage b vp)) = some pt' := by
  have hle := h.counted.le
  have hk : z.kpml4 = z₀.kpml4 := by rw [h.same]
  rw [Nat.mul_div_cancel vp (by decide), hk] at hm
  by_cases hf : vp % 512 = 0 ∨ vp = b
  · rw [if_pos (by omega)] at hm
    have hlt := scanTable_lt hm
    rw [scanTable_eq hf (by omega) hlt] at hm
    obtain ⟨hE, hw⟩ := findTable_spec h.tables hr hm
    refine ⟨⟨?_, hE.tables, fun r vp hr => (hE.flat_eq r vp hr).trans (h.flat_eq r vp hr), h.counted,
      Or.inr (Or.inr ⟨hlt, hw⟩)⟩, hlt, hw⟩
    conv_lhs => rw [h.same]
  · rw [if_neg (by omega)] at hm
    obtain ⟨rfl, rfl⟩ := Prod.mk.inj (Option.some.inj hm)
    obtain ⟨hlt, hw⟩ := (h.table.resolve_left (by omega)).resolve_left (by omega)
    exact ⟨h, hlt, hw⟩

/-- The entry that is looked at, once the table is there. -/
theorem Scanning.entry (h : Scanning R s z₀ b amount z vp pt ia) (hr : R z₀.kpml4)
    (hw : walk z.vmm.kids z₀.kpml4 (path (seenPage b vp)) = some pt) :
    (z.vmm.tab pt).entries (vp * 0x1000 % 0x200000 / 0x1000) = flat z₀.vmm z₀.kpml4 (seenPage b vp) := by
  have hm : seenPage b vp % 512 = vp % 512 := by
    unfold seenPage
    omega
  rw [(index_eq vp).2.2.2, ← h.flat_eq _ _ hr, flat_of_walk hw, hm]

/-- The next page, with `ia'` pages counted before it. -/
theorem Scanning.next {ia' : ℕ} (h : Scanning R s z₀ b amount z vp pt ia) (hlt : vp % 512 ^ 2 < 2 ^ 14)
    (hw : walk z.vmm.kids z₀.kpml4 (path (seenPage b vp)) = some pt)
    (hc : FirstRun.Counted (LooksFree z₀.vmm z₀.kpml4 b) b amount (vp + 1) ia') :
    Scanning R s z₀ b amount z (vp + 1) pt ia' := by
  have hle := h.counted.le
  refine ⟨h.same, h.tables, h.flat_eq, hc, ?_⟩
  -- the table is the same one, unless it is looked for
  by_cases hz : (vp + 1) % 512 = 0
  · exact Or.inl hz
  · refine Or.inr (Or.inr ⟨by omega, ?_⟩)
    rw [(seenPage_succ hz (by omega)).2]
    exact hw

/-- The last page of the run: the pages are allocated, and mapped. -/
theorem Scanning.found (h : Scanning R s z₀ b amount z vp pt ia) (hfree : LooksFree z₀.vmm z₀.kpml4 b vp)
    (hia : ia + 1 = amount) (hvp : vp + 1 < 2 ^ 36) (hlim : vp * 0x1000 ≤ limit)
    (hm : (if (z.allocpps amount).1 = 0 then some (0, (z.allocpps amount).2)
      else
        ((z.allocpps amount).2.mapMemory (u64 ((z.allocpps amount).1 * 0x1000))
          (sub64 ((vp + 1) * 0x1000) (amount * 0x1000)) amount z.kpml4 u).map fun z =>
            (sub64 ((vp + 1) * 0x1000) (amount * 0x1000), { z with cr3 := z.kpml4 })) = some (a, z')) :
    a = 0 ∨ ∃ w, a = w * 0x1000 ∧ Allocated R s z₀ b amount limit u w z' := by
  have hle := h.counted.le
  have hfirst : vp + 1 - amount = vp - ia := by omega
  have hlast : vp - ia + amount - 1 = vp := by omega
  have hroom : vp - ia + amount < 2 ^ 36 := by omega
  have hsub : sub64 ((vp + 1) * 0x1000) (amount * 0x1000) = (vp - ia) * 0x1000 := by
    rw [sub64_of_le (Nat.mul_le_mul_right _ (by omega)) (by omega), ← Nat.sub_mul, hfirst]
  have hmem : z.mem = z₀.mem := by rw [h.same]
  have hk : z.kpml4 = z₀.kpml4 := by rw [h.same]
  unfold Spaces.allocpps at hm
  dsimp only at hm
  rw [hsub, hmem, hk] at hm
  split_ifs at hm with hpp
  · obtain ⟨rfl, -⟩ := Prod.mk.inj (Option.some.inj hm)
    exact Or.inl rfl
  · obtain ⟨z₁, hmap, hm⟩ := Option.map_eq_some_iff.1 hm
    obtain ⟨⟨st, v₂⟩, hv₂, rfl⟩ := Option.map_eq_some_iff.1 hmap
    obtain ⟨rfl, rfl⟩ := Prod.mk.inj hm
    refine Or.inr ⟨vp - ia, rfl, h.counted.firstRun hfree hia, by rw [hlast]; exact hlim, hroom, hpp, z.vmm, v₂, st,
      h.tables, h.flat_eq, hv₂, ?_⟩
    rw [h.same]

/-- The pages from `a` on are fresh: they are in the bounds, were not mapped, and are mapped to free physical pages that
follow each other; no page that was mapped has changed. -/
structure FreshPages (z : Spaces) (amount base limit u a : ℕ) (z' : Spaces) : Prop where
  base_le : base ≤ a
  le_limit : a + amount * 0x1000 ≤ limit
  absent : ∀ k < amount, z.vmm.getPageEntry z.kpml4 (a + k * 0x1000) &&& 1 = 0
  mapped : ∃ pp, ∀ k < amount, isppUsed z.mem (pp + k) = 0 ∧
    z'.vmm.getPageEntry z.kpml4 (a + k * 0x1000) = Vmm.pageEntry ((pp + k) * 0x1000) u
  kept : ∀ va, z.vmm.getPageEntry z.kpml4 va &&& 1 ≠ 0 →
    z'.vmm.getPageEntry z.kpml4 va = z.vmm.getPageEntry z.kpml4 va

theorem page_add {w k : ℕ} (h : w + k < 2 ^ 36) : (w * 0x1000 + k * 0x1000) % 2 ^ 48 / 0x1000 = w + k := by
  rw [← Nat.add_mul, Nat.mod_eq_of_lt (by omega), Nat.mul_div_cancel _ (by decide)]

/-- What was allocated is fresh, in some bounds, if the pages were not mapped. -/
theorem Allocated.fresh {w lo hi : ℕ} (h : Allocated (· = z.kpml4) (fun _ => False) z b amount limit u w z')
    (hr : z.kpml4 ≠ NULL) (hlo : lo ≤ w * 0x1000) (hhi : (w + amount) * 0x1000 ≤ hi)
    (habs : ∀ k < amount, flat z.vmm z.kpml4 (w + k) &&& 1 = 0) :
    FreshPages z amount lo hi u (w * 0x1000) z' := by
  obtain ⟨v, v', st, hT, hflat, hm, rfl⟩ := h.mapped
  have hroom := h.room
  obtain ⟨hpp, hfree⟩ := allocpps_free (m := z.mem) amount
  have hfree := hfree h.frames
  generalize (Nettapus.allocpps z.mem amount).1 = pp at *
  have hlim : pageLimit < 2 ^ 36 := by decide
  obtain ⟨-, hM⟩ := mapMemory_spec hT rfl hm
  have hva : w * 0x1000 % 2 ^ 48 / 0x1000 = w := by omega
  rw [hva] at hM
  have hpa : u64 (pp * 0x1000) &&& 0xFFFFFFFFFFFFF000 = pp * 0x1000 := by
    rw [and_frame]
    unfold u64
    omega
  have hpage : ∀ k < amount, (w * 0x1000 + k * 0x1000) % 2 ^ 48 / 0x1000 = w + k := fun k hk => page_add (by omega)
  refine ⟨hlo, by rw [← Nat.add_mul]; exact hhi, fun k hk => ?_, ⟨pp, fun k hk => ⟨?_, ?_⟩⟩, fun va hva => ?_⟩
  · rw [getPageEntry_eq hr, hpage k hk]
    exact habs k hk
  · rw [← u64_of_lt (show pp + k < 2 ^ 64 by omega)]
    exact hfree k hk
  · have hu : u64 (pp * 0x1000 + k * 0x1000) = (pp + k) * 0x1000 := by
      unfold u64
      omega
    show v'.getPageEntry z.kpml4 _ = _
    rw [getPageEntry_eq hr, hpage k hk, hM.inside k hk, hpa, hu]
  · show v'.getPageEntry z.kpml4 va = _
    rw [getPageEntry_eq hr] at hva ⊢
    rw [getPageEntry_eq hr, ← hflat _ _ rfl]
    refine hM.outside _ _ rfl (Or.inl ?_)
    -- the pages that were written were not mapped
    by_contra hc
    refine hva ?_
    have := habs (va % 2 ^ 48 / 0x1000 - w) (by omega)
    rwa [Nat.add_sub_of_le (by omega)] at this

end Nettapus
