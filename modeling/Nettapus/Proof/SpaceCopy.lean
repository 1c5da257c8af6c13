import Nettapus.Proof.SpacePages

/-!
# A copy of an address space is private

* `Copied`: the state of `copy_addr_space` before the page `N`: the pages before it are copied, to new frames,
  and nothing else has changed.
* `copyPage_yields`, `copyTable_yields` and so on: one page, and the four loops.
* `copy_is_private`: the address space that `copy_addr_space` returns.
-/

namespace Nettapus

open Forest Runs

variable {z z' z₀ : Spaces} {r r' P ret N : ℕ}

/-! ## The state of the copy -/

/-- The pages of the user half from `N` on that are mapped in `P`. -/
def rest (z : Spaces) (P N : ℕ) : Finset ℕ :=
  (Finset.range userHalf).filter fun vp => N ≤ vp ∧ flat z.vmm P vp ≠ 0

theorem rest_of_zero (h : flat z.vmm P N = 0) : rest z P (N + 1) = rest z P N := by
  unfold rest
  apply Finset.filter_congr
  intro vp _
  constructor
  · rintro ⟨h1, h2⟩
    exact ⟨by omega, h2⟩
  · rintro ⟨h1, h2⟩
    refine ⟨?_, h2⟩
    rcases Nat.eq_or_lt_of_le h1 with rfl | h1
    · exact absurd h h2
    · exact h1

theorem rest_of_ne (hN : N < userHalf) (h : flat z.vmm P N ≠ 0) : (rest z P (N + 1)).card + 1 = (rest z P N).card := by
  have he : rest z P (N + 1) = (rest z P N).erase N := by
    ext vp
    unfold rest
    rw [Finset.mem_erase, Finset.mem_filter, Finset.mem_filter]
    constructor
    · rintro ⟨h1, h2, h3⟩
      exact ⟨by omega, h1, by omega, h3⟩
    · rintro ⟨h1, h2, h3, h4⟩
      exact ⟨h2, by omega, h4⟩
  rw [he]
  exact Finset.card_erase_add_one (Finset.mem_filter.2 ⟨Finset.mem_range.2 hN, le_rfl, h⟩)

/-- `z` is `z₀` after the pages of `P` before `N` were copied to `ret`. -/
structure Copied (z₀ : Spaces) (P ret N : ℕ) (z : Spaces) : Prop where
  keeps : Keeps z₀ z
  cr3_eq : z.cr3 = z₀.cr3
  others : ∀ r vp, z₀.Root r → r ≠ ret → vp < userHalf → flat z.vmm r vp = flat z₀.vmm r vp
  used : ∀ q, isppUsed z₀.mem q ≠ 0 → isppUsed z.mem q ≠ 0 ∧ z.page q = z₀.page q
  copy : ∀ vp < N, flat z₀.vmm P vp ≠ 0 → ∃ pp < pageLimit, flat z.vmm ret vp = pp * 0x1000 + 7 ∧
    isppUsed z₀.mem pp = 0 ∧ isppUsed z.mem pp ≠ 0 ∧ z.page pp = z₀.page (frame (flat z₀.vmm P vp))
  inj : ∀ vp < N, ∀ vp' < N, flat z₀.vmm P vp ≠ 0 → flat z₀.vmm P vp' ≠ 0 →
    flat z.vmm ret vp = flat z.vmm ret vp' → vp = vp'
  zero : ∀ vp < userHalf, N ≤ vp ∨ flat z₀.vmm P vp = 0 → flat z.vmm ret vp = 0
  free : (rest z₀ P N).card ≤ (freePages z.mem).card
  /-- The only pages that were taken are those of the copy. -/
  valid_eq : ∀ q, isppValid z.mem q = isppValid z₀.mem q
  taken : ∀ q, pageBit z.mem q = true ↔ pageBit z₀.mem q = true ∨
    ∃ vp < N, flat z₀.vmm P vp ≠ 0 ∧ flat z.vmm ret vp = q * 0x1000 + 7
  slots : 18 * (rest z₀ P N).card + z₀.vmm.freeSlots.card ≤ z.vmm.freeSlots.card + 18 * (rest z₀ P 0).card

/-- The source of the copy: another address space, whose frames are in use. -/
structure CopySource (z₀ : Spaces) (P ret : ℕ) : Prop where
  root : z₀.Root P
  copy : z₀.Root ret
  ne : P ≠ ret
  cr3 : z₀.Root z₀.cr3
  frames : ∀ vp < userHalf, flat z₀.vmm P vp ≠ 0 → isppUsed z₀.mem (frame (flat z₀.vmm P vp)) ≠ 0

/-- Pages that are not mapped are passed over. -/
theorem Copied.skip (h : Copied z₀ P ret N z) : ∀ {n : ℕ}, N + n ≤ userHalf →
    (∀ vp, N ≤ vp → vp < N + n → flat z₀.vmm P vp = 0) → Copied z₀ P ret (N + n) z := by
  intro n
  induction n with
  | zero => exact fun _ _ => h
  | succ n ih =>
    intro hn hz
    have hprev := ih (by omega) fun vp h1 h2 => hz vp h1 (by omega)
    have h0 : flat z₀.vmm P (N + n) = 0 := hz (N + n) (by omega) (by omega)
    have hr := rest_of_zero h0
    rw [Nat.add_assoc] at hr
    have hlt : ∀ a, a < N + (n + 1) → flat z₀.vmm P a ≠ 0 → a < N + n := by
      intro a ha hne
      by_contra hc
      exact hne (hz a (by omega) (by omega))
    refine ⟨hprev.keeps, hprev.cr3_eq, hprev.others, hprev.used, fun vp hvp hne => ?_, fun vp hvp vp' hvp' hne hne' => ?_,
      fun vp hvp hor => ?_, by rw [hr]; exact hprev.free, hprev.valid_eq, fun q => ?_, by rw [hr]; exact hprev.slots⟩
    · exact hprev.copy vp (hlt vp hvp hne) hne
    · exact hprev.inj vp (hlt vp hvp hne) vp' (hlt vp' hvp' hne') hne hne'
    · exact hprev.zero vp hvp (hor.imp (fun h => by omega) id)
    · rw [hprev.taken q]
      refine or_congr Iff.rfl ⟨fun ⟨vp, hvp, hne, he⟩ => ⟨vp, by omega, hne, he⟩, fun ⟨vp, hvp, hne, he⟩ => ?_⟩
      exact ⟨vp, hlt vp hvp hne, hne, he⟩

/-- Enough structures for the pages that are left. -/
theorem Copied.enough (h : Copied z₀ P ret N z) (hE : 18 * (rest z₀ P 0).card ≤ z₀.vmm.freeSlots.card) :
    18 * (rest z₀ P N).card ≤ z.vmm.freeSlots.card := by
  have := h.slots
  omega

theorem windowVp_ne {vp : ℕ} (h : vp < userHalf) : vp ≠ windowVp := by
  rintro rfl
  revert h
  decide

/-- `z'` is `z` after the page behind the entry `e` was copied, for the page `N` of `ret`. -/
structure PageCopied (z : Spaces) (ret N e : ℕ) (z' : Spaces) : Prop where
  keeps : Keeps z z'
  cr3_eq : z'.cr3 = z.cr3
  mem_eq : z'.mem = (Nettapus.allocpp z.mem).2
  page_eq : z'.page = Function.update z.page (Nettapus.allocpp z.mem).1 (z.page (frame e))
  entry : flat z'.vmm ret N = (Nettapus.allocpp z.mem).1 * 0x1000 + 7
  other : ∀ r vp, z.Root r → vp < userHalf → (vp ≠ N ∨ r ≠ ret) → flat z'.vmm r vp = flat z.vmm r vp
  slots : z.vmm.freeSlots.card ≤ z'.vmm.freeSlots.card + 18

/-- The three mappings of a copy. -/
theorem copyPage_takes {e : ℕ} (h : SpaceInv z) (hret : z.Root ret) (hcr : z.Root z.cr3) (hN : N < userHalf)
    (hlt : (Nettapus.allocpp z.mem).1 < pageLimit) :
    Yields (18 ≤ z.vmm.freeSlots.card) (z.copyPage ret e (N * 0x1000)) (PageCopied z ret N e) := by
  have hvp : N * 0x1000 % 2 ^ 48 / 0x1000 = N := by unfold userHalf at hN; omega
  unfold Spaces.copyPage
  refine Yields.bind (Q := fun z₁ => OnePage z z₁ ret windowVp (frame e) 0)
    ⟨(mapOne_yields _ _ _ h hret (by decide)).1, fun hc => (mapOne_yields _ _ _ h hret (by decide)).2 (by omega)⟩ ?_
  intro z₁ o1
  have hret₁ : z₁.Root ret := o1.keeps.root ▸ hret
  have hbuf : z₁.page z₁.windowPage = z.page (frame e) := by rw [o1.window hret hcr, o1.page_eq]
  have halloc : z₁.allocpp = ((Nettapus.allocpp z.mem).1, { z₁ with mem := (Nettapus.allocpp z.mem).2 }) := by
    unfold Spaces.allocpp
    rw [o1.mem_eq]
  have k1 := keeps_allocpp o1.keeps.inv
  rw [halloc] at k1 ⊢
  dsimp only at k1 ⊢
  rw [hbuf]
  generalize hpp : (Nettapus.allocpp z.mem).1 = pp at *
  generalize hmem : (Nettapus.allocpp z.mem).2 = mem at *
  have hfr : frame (u64 (pp * 0x1000)) = pp := by
    unfold frame u64
    unfold pageLimit at hlt
    omega
  have c1 := o1.slots
  refine Yields.bind (Q := fun z₂ => OnePage { z₁ with mem := mem } z₂ ret N pp 1) ?_ ?_
  · have hy := mapOne_yields (u64 (pp * 0x1000)) (N * 0x1000) 1 k1.inv (k1.root ▸ hret₁) (by omega)
    rw [hvp, hfr] at hy
    exact ⟨hy.1, fun hc => hy.2 (show 6 ≤ z₁.vmm.freeSlots.card by omega)⟩
  intro z₂ o2
  have k2 := k1.trans o2.keeps
  have hret₂ : z₂.Root ret := k2.root ▸ hret₁
  have c2 : z₁.vmm.freeSlots.card ≤ z₂.vmm.freeSlots.card + 6 := o2.slots
  refine Yields.map (Q := fun z₃ => OnePage z₂ z₃ ret windowVp pp 0) ?_ ?_
  · have hy := mapOne_yields (u64 (pp * 0x1000)) WINDOW 0 k2.inv hret₂ (by decide)
    rw [hfr] at hy
    exact ⟨hy.1, fun hc => hy.2 (by omega)⟩
  intro z₃ o3
  have k3 := (o1.keeps.trans k2).trans o3.keeps
  have hcr₂ : z₂.Root z₂.cr3 := by
    rw [o2.cr3_eq, (o1.keeps.trans k2).root]
    show z.Root z₁.cr3
    rw [o1.cr3_eq]
    exact hcr
  refine ⟨k3.trans (k3.inv.congr rfl rfl rfl rfl), ?_, ?_, ?_, ?_, fun r vp hr hvp' hne => ?_, ?_⟩
  · show z₃.cr3 = z.cr3
    rw [o3.cr3_eq, o2.cr3_eq]
    exact o1.cr3_eq
  · show z₃.mem = _
    rw [o3.mem_eq, o2.mem_eq, hmem]
  · show Function.update z₃.page z₃.windowPage _ = _
    rw [o3.window hret₂ hcr₂, o3.page_eq, o2.page_eq, hpp]
    show Function.update z₁.page pp _ = _
    rw [o1.page_eq]
  · show flat z₃.vmm ret N = _
    rw [o3.other ret N hret₂ (Or.inl (windowVp_ne hN)), o2.entry, hpp, if_pos (by decide)]
  · show flat z₃.vmm r vp = _
    have hr₁ : z₁.Root r := o1.keeps.root ▸ hr
    rw [o3.other r vp (k2.root ▸ hr₁) (Or.inl (windowVp_ne hvp'))]
    have hmid : flat z₂.vmm r vp = flat z₁.vmm r vp := by
      refine o2.other r vp (k1.root ▸ hr₁) (hne.imp id fun hne => ⟨hne, ?_⟩)
      unfold userHalf at hvp'
      omega
    rw [hmid, o1.other r vp hr (Or.inl (windowVp_ne hvp'))]
  · have c3 := o3.slots
    show z.vmm.freeSlots.card ≤ z₃.vmm.freeSlots.card + 18
    omega

/-- A copied page is one of the copy. -/
theorem Copied.step (hS : CopySource z₀ P ret) (h : Copied z₀ P ret N z) (hN : N < userHalf)
    (hne : flat z₀.vmm P N ≠ 0) (hc : PageCopied z ret N (flat z.vmm P N) z') : Copied z₀ P ret (N + 1) z' := by
  have hrest := rest_of_ne hN hne
  have hroot : ∀ {a}, z₀.Root a → z.Root a := fun ha => h.keeps.root ▸ ha
  have hfree := h.free
  obtain ⟨ha1, ha2, ha3⟩ := allocpp_takes z.mem (by omega)
  have hfp := freePages_allocpp z.mem (by omega)
  have hfree₀ : isppUsed z₀.mem (Nettapus.allocpp z.mem).1 = 0 := by
    by_contra hu
    exact (h.used _ hu).1 ha1
  -- a frame in use is not the new one, and stays in use with its content
  have hkeep : ∀ q, isppUsed z.mem q ≠ 0 → isppUsed z'.mem q ≠ 0 ∧ z'.page q = z.page q := by
    intro q hq
    have hqp : q ≠ (Nettapus.allocpp z.mem).1 := fun e => hq (e ▸ ha1)
    refine ⟨fun h0 => ?_, by rw [hc.page_eq, Function.update_of_ne hqp]⟩
    rw [hc.mem_eq, ha3] at h0
    exact hq h0.1
  obtain ⟨hu1, hu2⟩ := h.used _ (hS.frames N hN hne)
  have hflat : flat z.vmm P N = flat z₀.vmm P N := h.others P N hS.root hS.ne hN
  have hold : ∀ vp < N, flat z'.vmm ret vp = flat z.vmm ret vp := fun vp hvp =>
    hc.other ret vp (hroot hS.copy) (by omega) (Or.inl (by omega))
  refine ⟨h.keeps.trans hc.keeps, hc.cr3_eq.trans h.cr3_eq, fun r vp hr hrne hvp => ?_, fun q hq => ?_,
    fun vp hvp hvne => ?_, fun vp hvp vp' hvp' hvne hvne' heq => ?_, fun vp hvp hor => ?_, ?_, fun q => ?_, fun q => ?_, ?_⟩
  · rw [hc.other r vp (hroot hr) hvp (Or.inr hrne), h.others r vp hr hrne hvp]
  · obtain ⟨h1, h2⟩ := h.used q hq
    obtain ⟨h3, h4⟩ := hkeep q h1
    exact ⟨h3, h4.trans h2⟩
  · rcases Nat.lt_succ_iff_lt_or_eq.1 hvp with hlt | rfl
    · obtain ⟨pp, hpp, h1, h2, h3, h4⟩ := h.copy vp hlt hvne
      obtain ⟨h5, h6⟩ := hkeep pp h3
      exact ⟨pp, hpp, (hold vp hlt).trans h1, h2, h5, h6.trans h4⟩
    · refine ⟨_, ha2, hc.entry, hfree₀, fun h0 => ?_, ?_⟩
      · rw [hc.mem_eq, ha3] at h0
        exact h0.2 rfl
      · rw [hc.page_eq, Function.update_self, hflat]
        exact hu2
  · -- the new frame is no frame of the pages before
    have hnew : ∀ a < N, flat z₀.vmm P a ≠ 0 → flat z'.vmm ret a ≠ flat z'.vmm ret N := by
      intro a ha hane he
      obtain ⟨pp, -, h1, -, h3, -⟩ := h.copy a ha hane
      rw [hold a ha, h1, hc.entry] at he
      rw [show pp = (Nettapus.allocpp z.mem).1 by omega] at h3
      exact h3 ha1
    rcases Nat.lt_succ_iff_lt_or_eq.1 hvp with hlt | rfl <;>
      rcases Nat.lt_succ_iff_lt_or_eq.1 hvp' with hlt' | rfl
    · rw [hold vp hlt, hold vp' hlt'] at heq
      exact h.inj vp hlt vp' hlt' hvne hvne' heq
    · exact absurd heq (hnew vp hlt hvne)
    · exact absurd heq.symm (hnew vp' hlt' hvne')
    · rfl
  · have hvN : vp ≠ N := by
      rintro rfl
      rcases hor with h1 | h1
      · omega
      · exact hne h1
    rw [hc.other ret vp (hroot hS.copy) hvp (Or.inl hvN)]
    exact h.zero vp hvp (hor.imp (fun h => by omega) id)
  · rw [hc.mem_eq]
    omega
  · rw [hc.mem_eq, (allocpp_bits z.mem (by omega)).1, h.valid_eq]
  · rw [hc.mem_eq, (allocpp_bits z.mem (by omega)).2, h.taken]
    constructor
    · rintro (rfl | hq | ⟨vp, hvp, hvne, he⟩)
      · exact Or.inr ⟨N, by omega, hne, hc.entry⟩
      · exact Or.inl hq
      · exact Or.inr ⟨vp, by omega, hvne, (hold vp hvp).trans he⟩
    · rintro (hq | ⟨vp, hvp, hvne, he⟩)
      · exact Or.inr (Or.inl hq)
      · rcases Nat.lt_succ_iff_lt_or_eq.1 hvp with hlt | rfl
        · exact Or.inr (Or.inr ⟨vp, hlt, hvne, (hold vp hlt).symm.trans he⟩)
        · have := hc.entry
          exact Or.inl (by omega)
  · have h1 := h.slots
    have h2 := hc.slots
    omega

/-- **A page is copied** to a new frame. -/
theorem copyPage_yields (hS : CopySource z₀ P ret) (h : Copied z₀ P ret N z) (hN : N < userHalf)
    (hne : flat z₀.vmm P N ≠ 0) :
    Yields (18 * (rest z₀ P 0).card ≤ z₀.vmm.freeSlots.card) (z.copyPage ret (flat z.vmm P N) (N * 0x1000))
      (fun z' => Copied z₀ P ret (N + 1) z' ∧ Keeps z z') := by
  have hrest := rest_of_ne hN hne
  have hfree := h.free
  obtain ⟨-, hlt, -⟩ := allocpp_takes z.mem (by omega)
  have hcr : z.Root z.cr3 := by rw [h.cr3_eq]; exact h.keeps.root ▸ hS.cr3
  have hy := copyPage_takes (e := flat z.vmm P N) h.keeps.inv (h.keeps.root ▸ hS.copy) hcr hN hlt
  refine ⟨fun z' hz' => ⟨h.step hS hN hne (hy.1 z' hz'), (hy.1 z' hz').keeps⟩, fun hE => hy.2 ?_⟩
  have := h.enough hE
  omega

/-! ## The loops -/

/-- There are structures for all pages. -/
def SlotsFor (z₀ : Spaces) (P : ℕ) : Prop := 18 * (rest z₀ P 0).card ≤ z₀.vmm.freeSlots.card

/-- `z'` has the pages before `N` copied, and `z` came before it. -/
def CopiedFrom (z₀ : Spaces) (P ret N : ℕ) (z z' : Spaces) : Prop := Copied z₀ P ret N z' ∧ Keeps z z'

/-- A loop whose iterations copy `size` pages each. -/
theorem loop_yields {f : Spaces → ℕ → Option Spaces} (size n : ℕ) (h : Copied z₀ P ret N z)
    (hf : ∀ l z₁, l < n → Copied z₀ P ret (N + l * size) z₁ → Keeps z z₁ →
      Yields (SlotsFor z₀ P) (f z₁ l) (CopiedFrom z₀ P ret (N + l * size + size) z₁)) :
    Yields (SlotsFor z₀ P) ((List.range n).foldlM f z) (CopiedFrom z₀ P ret (N + n * size) z) := by
  refine Yields.foldlM_range (J := fun l z₁ => CopiedFrom z₀ P ret (N + l * size) z z₁) ?_ ?_
  · rw [Nat.zero_mul]
    exact ⟨h, h.keeps.inv.keeps_refl⟩
  · rintro l z₁ hl ⟨hc, hk⟩
    obtain ⟨h1, h2⟩ := hf l z₁ hl hc hk
    refine ⟨fun z₂ hz₂ => ?_, h2⟩
    obtain ⟨hc₂, hk₂⟩ := h1 z₂ hz₂
    rw [Nat.add_mul, Nat.one_mul, ← Nat.add_assoc]
    exact ⟨hc₂, hk.trans hk₂⟩

/-- Without a structure there are no pages. -/
theorem flat_of_missing {v : Vmm} {q q' : List ℕ} {vp : ℕ} (h : walk v.kids r q = none) (hq : path vp = q ++ q') :
    flat v r vp = 0 := by
  refine flat_of_none ?_
  rw [hq, walk_append, h]
  rfl

/-- A structure that is not there is passed over. -/
theorem Copied.missing (hS : CopySource z₀ P ret) (h : Copied z₀ P ret N z) {q : List ℕ} {n : ℕ}
    (hn : N + n ≤ userHalf) (hq : walk z.vmm.kids P q = none)
    (hpath : ∀ vp, N ≤ vp → vp < N + n → ∃ q', path vp = q ++ q') : Copied z₀ P ret (N + n) z := by
  refine h.skip hn fun vp h1 h2 => ?_
  obtain ⟨q', hq'⟩ := hpath vp h1 h2
  rw [← h.others P vp hS.root hS.ne (by omega)]
  exact flat_of_missing hq hq'

/-- The child `i` of a structure of `P`. -/
theorem child_cases {v : Vmm} {q : List ℕ} {t i : ℕ} (ht : walk v.kids P q = some t) (hi : i < 512) :
    ((v.tab t).child i = NULL ∧ walk v.kids P (q ++ [i]) = none) ∨
      ((v.tab t).child i ≠ NULL ∧ walk v.kids P (q ++ [i]) = some ((v.tab t).child i)) := by
  by_cases hc : (v.tab t).child i = NULL
  · left
    rw [walk_snoc, ht]
    exact ⟨hc, kids_of_eq hc⟩
  · right
    rw [walk_snoc, ht]
    exact ⟨hc, kids_of_ne hi hc⟩

section Levels

variable (hS : CopySource z₀ P ret) {i j k pt pd pdpt : ℕ}
include hS

/-- The pages of a page table. -/
theorem copyTable_yields (hi : i < 511) (hj : j < 512) (hk : k < 512)
    (h : Copied z₀ P ret (i * 512 ^ 3 + j * 512 ^ 2 + k * 512) z) (hw : walk z.vmm.kids P [i, j, k] = some pt) :
    Yields (SlotsFor z₀ P) (z.copyTable ret pt i j k)
      (CopiedFrom z₀ P ret (i * 512 ^ 3 + j * 512 ^ 2 + k * 512 + 512) z) := by
  have hloop := loop_yields 1 512
    (f := fun z l => if (z.vmm.tab pt).entries l = 0 then some z
      else z.copyPage ret ((z.vmm.tab pt).entries l) ((l + k * 512 + j * 512 * 512 + i * 512 * 512 * 512) * 0x1000))
    h fun l z₁ hl hc hk₁ => ?_
  · rw [Nat.mul_one] at hloop
    exact hloop
  rw [Nat.mul_one] at hc ⊢
  have hN : i * 512 ^ 3 + j * 512 ^ 2 + k * 512 + l < userHalf := by unfold userHalf; omega
  have hpath : path (i * 512 ^ 3 + j * 512 ^ 2 + k * 512 + l) = [i, j, k] := by
    unfold path
    simp only [List.cons.injEq, and_true]
    omega
  have hmod : (i * 512 ^ 3 + j * 512 ^ 2 + k * 512 + l) % 512 = l := by omega
  have hroot : z.Root P := h.keeps.root ▸ hS.root
  have hw₁ : walk z₁.vmm.kids P [i, j, k] = some pt := hk₁.grown.walk P _ pt hroot (by simp) hw
  have hflat : flat z₁.vmm P (i * 512 ^ 3 + j * 512 ^ 2 + k * 512 + l) = (z₁.vmm.tab pt).entries l := by
    rw [← hpath] at hw₁
    rw [flat_of_walk hw₁, hmod]
  have h₀ := hc.others P _ hS.root hS.ne hN
  split_ifs with he
  · refine .some ⟨hc.skip hN fun vp h1 h2 => ?_, hc.keeps.inv.keeps_refl⟩
    obtain rfl : vp = i * 512 ^ 3 + j * 512 ^ 2 + k * 512 + l := by omega
    rw [← h₀, hflat, he]
  · rw [show l + k * 512 + j * 512 * 512 + i * 512 * 512 * 512 = i * 512 ^ 3 + j * 512 ^ 2 + k * 512 + l by omega, ← hflat]
    exact copyPage_yields hS hc hN (by rw [← h₀, hflat]; exact he)

/-- The pages of a page directory. -/
theorem copyDir_yields (hi : i < 511) (hj : j < 512) (h : Copied z₀ P ret (i * 512 ^ 3 + j * 512 ^ 2) z)
    (hw : walk z.vmm.kids P [i, j] = some pd) :
    Yields (SlotsFor z₀ P) (z.copyDir ret pd i j)
      (CopiedFrom z₀ P ret (i * 512 ^ 3 + j * 512 ^ 2 + 512 * 512) z) := by
  refine loop_yields _ _ h fun k z₁ hk hc hk₁ => ?_
  have hroot : z.Root P := h.keeps.root ▸ hS.root
  have hw₁ : walk z₁.vmm.kids P [i, j] = some pd := hk₁.grown.walk P _ pd hroot (by simp) hw
  dsimp only
  rcases child_cases hw₁ hk with ⟨h0, hnone⟩ | ⟨hne, hsome⟩
  · rw [if_pos h0]
    refine .some ⟨hc.missing hS (by unfold userHalf; omega) hnone fun vp h1 h2 => ⟨[], ?_⟩, hc.keeps.inv.keeps_refl⟩
    unfold path
    simp only [List.cons_append, List.nil_append, List.cons.injEq, and_true]
    omega
  · rw [if_neg hne]
    exact copyTable_yields hS hi hj hk hc hsome

/-- The pages of a PDPT. -/
theorem copyDirPtr_yields (hi : i < 511) (h : Copied z₀ P ret (i * 512 ^ 3) z)
    (hw : walk z.vmm.kids P [i] = some pdpt) :
    Yields (SlotsFor z₀ P) (z.copyDirPtr ret pdpt i) (CopiedFrom z₀ P ret (i * 512 ^ 3 + 512 * 512 ^ 2) z) := by
  refine loop_yields _ _ h fun j z₁ hj hc hk₁ => ?_
  have hroot : z.Root P := h.keeps.root ▸ hS.root
  have hw₁ : walk z₁.vmm.kids P [i] = some pdpt := hk₁.grown.walk P _ pdpt hroot (by simp) hw
  dsimp only
  rcases child_cases hw₁ hj with ⟨h0, hnone⟩ | ⟨hne, hsome⟩
  · rw [if_pos h0]
    refine .some ⟨hc.missing hS (by unfold userHalf; omega) hnone fun vp h1 h2 => ⟨[vp / 512 % 512], ?_⟩,
      hc.keeps.inv.keeps_refl⟩
    unfold path
    simp only [List.cons_append, List.nil_append, List.cons.injEq, and_true]
    omega
  · rw [if_neg hne]
    exact copyDir_yields hS hi hj hc hsome

/-- **All pages of the user half.** -/
theorem copyPml4t_yields (h : Copied z₀ P ret 0 z) :
    Yields (SlotsFor z₀ P) (z.copyPml4t ret P) (CopiedFrom z₀ P ret userHalf z) := by
  have hloop := loop_yields (512 ^ 3) 511 (f := fun z i =>
    if (z.vmm.tab P).child i = NULL then some z else z.copyDirPtr ret ((z.vmm.tab P).child i) i) h fun i z₁ hi hc hk₁ => ?_
  · rw [Nat.zero_add] at hloop
    exact hloop
  rw [Nat.zero_add] at hc ⊢
  rcases child_cases (v := z₁.vmm) (P := P) (q := []) rfl (show i < 512 by omega) with ⟨h0, hnone⟩ | ⟨hne, hsome⟩
  · rw [if_pos h0]
    refine .some ⟨hc.missing hS (by unfold userHalf; omega) hnone fun vp h1 h2 =>
      ⟨[vp / 512 ^ 2 % 512, vp / 512 % 512], ?_⟩, hc.keeps.inv.keeps_refl⟩
    unfold path
    simp only [List.cons_append, List.nil_append, List.cons.injEq, and_true]
    omega
  · rw [if_neg hne]
    exact copyDirPtr_yields hS hi hc hsome

end Levels

/-! ## The copy -/

/-- **`Q` is a private copy of `P`**, made from `z` to `z'`. -/
structure PrivateCopy (z : Spaces) (P Q : ℕ) (z' : Spaces) : Prop where
  fresh : ¬ z.Root Q
  mapped : ∀ vp < userHalf, (flat z'.vmm Q vp ≠ 0 ↔ flat z.vmm P vp ≠ 0)
  content : ∀ vp < userHalf, flat z.vmm P vp ≠ 0 →
    z'.page (frame (flat z'.vmm Q vp)) = z.page (frame (flat z.vmm P vp))
  distinct : ∀ vp < userHalf, ∀ vp' < userHalf, flat z'.vmm Q vp ≠ 0 → flat z'.vmm Q vp' ≠ 0 →
    frame (flat z'.vmm Q vp) = frame (flat z'.vmm Q vp') → vp = vp'
  /-- The frames of `Q` were free, and are used now. -/
  free : ∀ vp < userHalf, flat z'.vmm Q vp ≠ 0 →
    isppUsed z.mem (frame (flat z'.vmm Q vp)) = 0 ∧ isppUsed z'.mem (frame (flat z'.vmm Q vp)) ≠ 0
  /-- The entries of `P`, and of all other address spaces. -/
  entries : ∀ r vp, z.Root r → vp < userHalf → flat z'.vmm r vp = flat z.vmm r vp
  /-- The contents of all pages that were in use, of `P` and of anyone else. -/
  contents : ∀ q, isppUsed z.mem q ≠ 0 → z'.page q = z.page q
  kernel : (z'.vmm.tab Q).child 511 = z.kFirstPdpt ∧
    (z'.vmm.tab Q).entries 511 = (z.vmm.tab z.kFirstPdpt).physicalAddress ||| 2 ||| 1

theorem Begun.rest_eq (h : Begun z ret z₀) (hP : z.Root P) : rest z₀ P 0 = rest z P 0 := by
  unfold rest
  refine Finset.filter_congr fun vp _ => ?_
  rw [h.others P vp hP]

/-- The copy begins with no pages. -/
theorem Begun.copied (h : Begun z ret z₀) (hP : z.Root P) (hfree : (rest z P 0).card ≤ (freePages z.mem).card) :
    Copied z₀ P ret 0 z₀ := by
  refine ⟨h.space.inv.keeps_refl, rfl, fun _ _ _ _ _ => rfl, fun _ hq => ⟨hq, rfl⟩, fun vp hvp => absurd hvp (by omega),
    fun vp hvp => absurd hvp (by omega), fun vp hvp _ => h.zero vp hvp, ?_, fun _ => rfl, fun q => ?_, by omega⟩
  · rw [h.rest_eq hP, h.mem_eq]
    exact hfree
  · refine (or_iff_left ?_).symm
    rintro ⟨vp, hvp, -⟩
    omega

theorem Begun.source (h : Begun z ret z₀) (hP : z.Root P) (hcr : z.Root z.cr3)
    (hused : ∀ vp < userHalf, flat z.vmm P vp ≠ 0 → isppUsed z.mem (frame (flat z.vmm P vp)) ≠ 0) :
    CopySource z₀ P ret := by
  refine ⟨h.space.root hP, Or.inr h.space.mem, fun e => h.space.fresh (e ▸ hP), ?_, fun vp hvp hne => ?_⟩
  · rw [h.cr3_eq]
    exact h.space.root hcr
  · rw [h.others P vp hP] at hne ⊢
    rw [h.mem_eq]
    exact hused vp hvp hne

theorem frame_entry {pp : ℕ} (h : pp < pageLimit) : frame (pp * 0x1000 + 7) = pp := by
  unfold pageLimit at h
  unfold frame
  omega

/-- When all pages are copied, the copy is private. -/
theorem Copied.privateCopy (hb : Begun z ret z₀) (hP : z.Root P) (h : Copied z₀ P ret userHalf z') :
    PrivateCopy z P ret z' := by
  have hflat : ∀ vp, flat z₀.vmm P vp = flat z.vmm P vp := fun vp => hb.others P vp hP
  have hret : z₀.Root ret := Or.inr hb.space.mem
  -- what the page of the copy is, for a page that is mapped in either
  have hpage : ∀ vp < userHalf, flat z'.vmm ret vp ≠ 0 → flat z.vmm P vp ≠ 0 := by
    intro vp hvp hne h0
    exact hne (h.zero vp hvp (Or.inr ((hflat vp).trans h0)))
  have hcopy : ∀ vp < userHalf, flat z.vmm P vp ≠ 0 → ∃ pp < pageLimit, flat z'.vmm ret vp = pp * 0x1000 + 7 ∧
      isppUsed z.mem pp = 0 ∧ isppUsed z'.mem pp ≠ 0 ∧ z'.page pp = z.page (frame (flat z.vmm P vp)) := by
    intro vp hvp hne
    rw [← hflat vp] at hne ⊢
    rw [← hb.mem_eq, ← hb.page_eq]
    exact h.copy vp hvp hne
  refine ⟨hb.space.fresh, fun vp hvp => ⟨hpage vp hvp, fun hne => ?_⟩, fun vp hvp hne => ?_,
    fun vp hvp vp' hvp' hne hne' he => ?_, fun vp hvp hne => ?_, fun r vp hr hvp => ?_, fun q hq => ?_, ?_⟩
  · obtain ⟨pp, -, h1, -⟩ := hcopy vp hvp hne
    omega
  · obtain ⟨pp, hlt, h1, -, -, h4⟩ := hcopy vp hvp hne
    rw [h1, frame_entry hlt, h4]
  · have hp := hpage vp hvp hne
    have hp' := hpage vp' hvp' hne'
    obtain ⟨pp, hlt, h1, -⟩ := hcopy vp hvp hp
    obtain ⟨pp', hlt', h1', -⟩ := hcopy vp' hvp' hp'
    rw [h1, h1', frame_entry hlt, frame_entry hlt'] at he
    refine h.inj vp hvp vp' hvp' (by rw [hflat]; exact hp) (by rw [hflat]; exact hp') ?_
    rw [h1, h1', he]
  · obtain ⟨pp, hlt, h1, h2, h3, -⟩ := hcopy vp hvp (hpage vp hvp hne)
    rw [h1, frame_entry hlt]
    exact ⟨h2, h3⟩
  · have hne : r ≠ ret := fun e => hb.space.fresh (e ▸ hr)
    rw [h.others r vp (hb.space.root hr) hne hvp]
    exact hb.others r vp hr
  · rw [← hb.page_eq]
    exact (h.used q (by rw [hb.mem_eq]; exact hq)).2
  · obtain ⟨hk, -⟩ := hb.space.inv.kernel ret hret
    obtain ⟨hk', -⟩ := h.keeps.inv.kernel ret (h.keeps.root ▸ hret)
    refine ⟨?_, ?_⟩
    · rw [(kids_eq_some.1 hk').2.1, h.keeps.kFirstPdpt_eq]
      exact hb.space.kFirstPdpt_eq
    · rw [h.keeps.grown.kept ret [] ret 511 _ hret (by decide) rfl hk]
      exact hb.entry

/-- The window is closed again, which is no page of the user half. -/
theorem unwindow_yields (hS : CopySource z₀ P ret) {z₁ : Spaces} (h : Copied z₀ P ret userHalf z₁) {E : Prop} :
    Yields E (z₁.unmapMemory WINDOW 1 ret) (Copied z₀ P ret userHalf) := by
  have hret : z₁.Root ret := h.keeps.root ▸ hS.copy
  constructor
  · intro z' hz'
    obtain ⟨⟨st, v⟩, hv, rfl⟩ := Option.map_eq_some_iff.1 hz'
    have hU := unmapMemory_spec h.keeps.inv.tables hret hv
    have hk := h.keeps.trans (h.keeps.inv.grown hU.tables hU.grown)
    have hflat : ∀ r vp, z₁.Root r → vp < userHalf → flat v r vp = flat z₁.vmm r vp := fun r vp hr hvp =>
      hU.outside r vp hr (Or.inl (hvp.trans_le (by decide)))
    refine ⟨hk, h.cr3_eq, fun r vp hr hne hvp => ?_, h.used, fun vp hvp hne => ?_,
      fun vp hvp vp' hvp' hne hne' he => ?_, fun vp hvp hor => ?_, h.free, h.valid_eq, fun q => ?_, ?_⟩
    · exact (hflat r vp (h.keeps.root ▸ hr) hvp).trans (h.others r vp hr hne hvp)
    · show ∃ pp < pageLimit, flat v ret vp = _ ∧ _
      rw [hflat ret vp hret hvp]
      exact h.copy vp hvp hne
    · refine h.inj vp hvp vp' hvp' hne hne' ?_
      rw [← hflat ret vp hret hvp, ← hflat ret vp' hret hvp']
      exact he
    · exact (hflat ret vp hret hvp).trans (h.zero vp hvp hor)
    · refine (h.taken q).trans (or_congr Iff.rfl (exists_congr fun vp => and_congr_right fun hvp => ?_))
      show _ ↔ _ ∧ flat v ret vp = _
      rw [hflat ret vp hret hvp]
    · have hs := h.slots
      rw [← unmapMemory_slots hv] at hs
      exact hs
  · intro _
    obtain ⟨st, v, hv⟩ := unmapMemory_one z₁.vmm WINDOW ret
    exact ⟨_, Option.map_eq_some_iff.2 ⟨_, hv, rfl⟩⟩

/-- **All of it is copied**, after a new address space was begun. -/
theorem copyAddrSpace_copied (h : SpaceInv z) (hP : z.Root P) (hcr : z.Root z.cr3)
    (hused : ∀ vp < userHalf, flat z.vmm P vp ≠ 0 → isppUsed z.mem (frame (flat z.vmm P vp)) ≠ 0)
    (hfree : (rest z P 0).card ≤ (freePages z.mem).card) :
    Yields (18 * (rest z P 0).card + 1 ≤ z.vmm.freeSlots.card) (z.copyAddrSpace P)
      fun p => ∃ z₀, Begun z p.1 z₀ ∧ Copied z₀ P p.1 userHalf p.2 := by
  unfold Spaces.copyAddrSpace
  rw [if_neg (h.tables.root P hP)]
  refine Yields.bind (Q := fun p => Begun z p.1 p.2)
    ⟨(newPml4t_yields h).1, fun hc => (newPml4t_yields h).2 (by omega)⟩ ?_
  rintro ⟨ret, z₀⟩ hb
  have hS := hb.source hP hcr hused
  have hC := copyPml4t_yields hS (hb.copied hP hfree)
  refine Yields.bind (Q := CopiedFrom z₀ P ret userHalf z₀) ⟨hC.1, fun hc => hC.2 ?_⟩ ?_
  · have hs := hb.slots
    unfold SlotsFor
    rw [hb.rest_eq hP]
    dsimp only at hs ⊢
    omega
  rintro z₁ ⟨hC₁, -⟩
  exact (unwindow_yields hS hC₁).map fun z' hz' => ⟨z₀, hb, hz'⟩

/-- The copy that is returned is private. -/
theorem copyAddrSpace_private {Q : ℕ} {z' : Spaces} (h : SpaceInv z) (hP : z.Root P) (hcr : z.Root z.cr3)
    (hused : ∀ vp < userHalf, flat z.vmm P vp ≠ 0 → isppUsed z.mem (frame (flat z.vmm P vp)) ≠ 0)
    (hfree : (rest z P 0).card ≤ (freePages z.mem).card) (hz' : z.copyAddrSpace P = some (Q, z')) :
    PrivateCopy z P Q z' := by
  obtain ⟨z₀, hb, hC⟩ := (copyAddrSpace_copied h hP hcr hused hfree).1 (Q, z') hz'
  exact hC.privateCopy hb hP

/-- **`copy_addr_space` makes a private copy.** The frames of the pages of `P` are in use, and there are
free frames for the copies of them. Then the address space that is returned is a
private copy of `P`; and one is returned if the page heap has the structures that the
copies may need. -/
theorem copy_is_private (h : SpaceInv z) (hP : z.Root P) (hcr : z.Root z.cr3)
    (hused : ∀ vp < userHalf, flat z.vmm P vp ≠ 0 → isppUsed z.mem (frame (flat z.vmm P vp)) ≠ 0)
    (hfree : (rest z P 0).card ≤ (freePages z.mem).card) :
    (∀ Q z', z.copyAddrSpace P = some (Q, z') → PrivateCopy z P Q z') ∧
      (18 * (rest z P 0).card + 1 ≤ z.vmm.freeSlots.card → ∃ Q z', z.copyAddrSpace P = some (Q, z')) := by
  refine ⟨fun Q z' hz' => copyAddrSpace_private h hP hcr hused hfree hz', fun hc => ?_⟩
  obtain ⟨⟨Q, z'⟩, hz'⟩ := (copyAddrSpace_copied h hP hcr hused hfree).2 hc
  exact ⟨Q, z', hz'⟩

/-! ## A copy -/

/-- The two stacks of a new address space can be copied. -/
theorem SpaceCreated.copyable {w : Spaces} (h : SpaceCreated w P z) (hmem : w.mem = bootedSpaces.mem)
    (hcr : w.Root w.cr3) : z.Root z.cr3 ∧
      (∀ vp < userHalf, flat z.vmm P vp ≠ 0 → isppUsed z.mem (frame (flat z.vmm P vp)) ≠ 0) ∧
      (rest z P 0).card ≤ 2 ∧ (rest z P 0).card ≤ (freePages z.mem).card := by
  have hu : flat z.vmm P userStackPage = 0x400007 := h.userStack.trans (by rw [hmem]; decide +kernel)
  have hk : flat z.vmm P stackPage = 0x401003 := h.kernelStack.trans (by rw [hmem]; decide +kernel)
  have hpages : ∀ vp < userHalf, flat z.vmm P vp ≠ 0 → vp = userStackPage ∨ vp = stackPage := by
    intro vp hvp hne
    by_contra hc
    obtain ⟨h1, h2⟩ := not_or.1 hc
    exact hne (h.zero vp hvp h1 h2)
  have hrest : (rest z P 0).card ≤ 2 := by
    have hsub : rest z P 0 ⊆ {userStackPage, stackPage} := by
      intro vp hvp
      obtain ⟨h1, -, h2⟩ := Finset.mem_filter.1 hvp
      rw [Finset.mem_insert, Finset.mem_singleton]
      exact hpages vp (Finset.mem_range.1 h1) h2
    exact (Finset.card_le_card hsub).trans (by decide)
  have hfree : 2 ≤ (freePages z.mem).card := by
    have hsub : ({0x402, 0x403} : Finset ℕ) ⊆ freePages z.mem := by
      intro q hq
      rw [h.mem_eq, hmem]
      rcases Finset.mem_insert.1 hq with rfl | hq
      · exact Finset.mem_filter.2 ⟨Finset.mem_range.2 (by decide), by decide +kernel⟩
      · rw [Finset.mem_singleton.1 hq]
        exact Finset.mem_filter.2 ⟨Finset.mem_range.2 (by decide), by decide +kernel⟩
    exact Finset.card_le_card hsub
  refine ⟨?_, fun vp hvp hne => ?_, hrest, hrest.trans hfree⟩
  · rw [h.cr3_eq]
    exact h.space.root hcr
  · rw [h.mem_eq, hmem]
    rcases hpages vp hvp hne with rfl | rfl
    · rw [hu]
      decide +kernel
    · rw [hk]
      decide +kernel

/-- An address space with its two stacks is copied, as `fork` does it. -/
theorem copy_is_private_stacks : ∃ z P Q z', flat z.vmm P userStackPage = 0x400007 ∧ flat z.vmm P stackPage = 0x401003 ∧
    z.copyAddrSpace P = some (Q, z') ∧ PrivateCopy z P Q z' := by
  have hy := createAddressSpace_yields spaceInit_bootedSpaces.inv
  obtain ⟨⟨P, z⟩, hz⟩ := hy.2 (by rw [card_freeSlots_bootedSpaces]; decide)
  have hC : SpaceCreated bootedSpaces P z := hy.1 _ hz
  obtain ⟨hcr, hused, hrest, hfree⟩ := hC.copyable rfl (Or.inl rfl)
  have hp := copy_is_private hC.space.inv (Or.inr hC.space.mem) hcr hused hfree
  have hslots := hC.slots
  rw [card_freeSlots_bootedSpaces] at hslots
  obtain ⟨Q, z', hz'⟩ := hp.2 (by omega)
  exact ⟨z, P, Q, z', hC.userStack.trans (by decide +kernel), hC.kernelStack.trans (by decide +kernel), hz', hp.1 Q z' hz'⟩

end Nettapus
