import Nettapus.Proof.PageStructs

/-!
# The region of the page structures

`init_vmm` reserves 1024 pages for the page heap: two for the bitmap, and 340 structures. `alloc_page_struct`
goes through all the bits of the bitmap, 65536 of them, and takes the first one that is clear
(`allocPageStruct_first`). It stays in the region as long as a structure of the region is free: `page_heap_iff`.
-/

namespace Nettapus

open Bitmap Runs

variable {v : Vmm} {s s' : PageSys} {i n p : ℕ}

/-! ## The region -/

/-- The structure at `p` lies in the region that `init_vmm` reserved. -/
def Vmm.InPageHeap (v : Vmm) (p : ℕ) : Prop :=
  v.pageHeapBegin ≤ p ∧ p + Vmm.sizeofPageStruct ≤ v.pageHeapBegin + Vmm.pageHeapLength

/-- Every slot of the region is in use. -/
def PageSys.Full (s : PageSys) : Prop := ∀ i, s.vmm.InPageHeap (s.vmm.pageStructAt i) → s.vmm.pageStructAt i ∈ s.live

/-- `alloc_page_struct` gives a structure in the region, and `NULL` once the region is full. -/
def AllocLaw (s : PageSys) : Prop :=
  (s.vmm.allocPageStruct.1 ≠ NULL → s.vmm.InPageHeap s.vmm.allocPageStruct.1) ∧
    (s.Full → s.vmm.allocPageStruct.1 = NULL)

/-- An allocation only when a slot of the region is free. -/
def RoomLeft (s : PageSys) : PageOp → Prop
  | .alloc => ¬ s.Full
  | _ => True

/-- **The region has 340 slots.** -/
theorem PageInv.inPageHeap_iff (hI : PageInv s) : s.vmm.InPageHeap (s.vmm.pageStructAt i) ↔ i < 340 := by
  have hsize : Vmm.sizeofPageStruct = 0x3000 := rfl
  have hlen : Vmm.pageHeapLength = 0x400000 := rfl
  unfold Vmm.InPageHeap Vmm.pageStructAt
  rw [hI.length_eq, hsize, hlen]
  omega

theorem PageInv.full_iff (hI : PageInv s) : s.Full ↔ ∀ i < 340, s.vmm.pageStructAt i ∈ s.live :=
  forall_congr' fun _ => imp_congr_left hI.inPageHeap_iff

/-- **The first slot that is not in use is taken.** -/
theorem PageInv.allocPageStruct_first (hI : PageInv s) (hi : i < 0x10000) (hfree : s.vmm.pageStructAt i ∉ s.live)
    (hlive : ∀ k < i, s.vmm.pageStructAt k ∈ s.live) :
    s.vmm.allocPageStruct = (s.vmm.pageStructAt i, s.vmm.take i) := by
  have hbit : test s.vmm.pageHeapBitmap i ≠ true := mt (hI.bit i hi).1 hfree
  rcases allocPageStructLoop_spec (v := s.vmm) (s.vmm.pageHeapBitmapLength * 8) 0 with
    ⟨j, -, h1, h2, h3, h4⟩ | ⟨-, h2⟩
  · rw [hI.length_eq] at h1
    have hj : s.vmm.pageStructAt j ∉ s.live := fun hmem => by
      rw [(hI.bit j (by omega)).2 hmem] at h2
      cases h2
    rcases Nat.lt_trichotomy i j with hlt | rfl | hgt
    · exact absurd (h3 i (Nat.zero_le i) hlt) hbit
    · exact h4
    · exact absurd (hlive j hgt) hj
  · exact absurd (h2 i (Nat.zero_le i) (by rw [hI.length_eq]; omega)) hbit

/-! ## Runs that leave room -/

/-- The live structures are in the region. -/
def InRegion (s : PageSys) : Prop := ∀ p ∈ s.live, s.vmm.InPageHeap p

/-- If a slot of the region is free, the first free slot is in the region. -/
theorem PageInv.alloc_inPageHeap (hI : PageInv s) (hroom : ¬ s.Full) :
    ∃ i < 340, s.vmm.allocPageStruct = (s.vmm.pageStructAt i, s.vmm.take i) := by
  have hex : ∃ i, i < 340 ∧ s.vmm.pageStructAt i ∉ s.live := by
    rw [hI.full_iff] at hroom
    push Not at hroom
    exact hroom
  classical
  obtain ⟨h1, h2⟩ := Nat.find_spec hex
  refine ⟨Nat.find hex, h1, hI.allocPageStruct_first (by omega) h2 fun k hk => ?_⟩
  by_contra hc
  exact Nat.find_min hex hk ⟨by omega, hc⟩

/-- If the region is full and nothing is outside it, the slot behind the region is the first free one. -/
theorem PageInv.alloc_full (hI : PageInv s) (hr : InRegion s) (hfull : s.Full) :
    s.vmm.allocPageStruct = (s.vmm.pageStructAt 340, s.vmm.take 340) := by
  refine hI.allocPageStruct_first (by decide) (fun hmem => ?_) (hI.full_iff.1 hfull)
  exact absurd (hI.inPageHeap_iff.1 (hr _ hmem)) (by decide)

/-- **Every operation that leaves room keeps the structures in the region.** -/
theorem InRegion.step {e : PageOp} (hr : InRegion s) (hI : PageInv s) (hok : RoomLeft s e)
    (h : pageStep s e = some s') : InRegion s' := by
  cases e with
  | alloc =>
    obtain ⟨i, hi, he⟩ := hI.alloc_inPageHeap hok
    unfold pageStep at h
    dsimp only at h
    rw [he, if_neg (hI.ne_null i)] at h
    obtain rfl := Option.some.inj h
    intro p hp
    rcases List.mem_cons.1 hp with rfl | hp
    · exact hI.inPageHeap_iff.2 hi
    · exact hr p hp
  | free ps =>
    unfold pageStep at h
    dsimp only at h
    split_ifs at h with hps
    obtain rfl := Option.some.inj h
    obtain ⟨i, -, -, he⟩ := hI.free_eq hps
    intro p hp
    rw [he]
    exact hr p (List.mem_of_mem_erase hp)
  | write ps t =>
    unfold pageStep at h
    dsimp only at h
    split_ifs at h
    obtain rfl := Option.some.inj h
    exact hr

theorem roomReach_inv (hs : Reach NewPageHeap pageStep RoomLeft s) : PageInv s ∧ InRegion s := by
  refine hs.inv (I := fun s => PageInv s ∧ InRegion s) ?_ fun s e s' hI hok h => ⟨hI.1.step h, hI.2.step hI.1 hok h⟩
  rintro s ⟨v, basePp, rfl⟩
  exact ⟨PageInv.init v basePp, fun p hp => by cases hp⟩

/-- **The region.** In every run that allocates only when a slot of the region is free, all live structures are in the
region; and in every state of such a run the next allocation does what it should exactly if a slot is free. -/
theorem page_heap_iff (hs : Reach NewPageHeap pageStep RoomLeft s) :
    (∀ p ∈ s.live, s.vmm.InPageHeap p) ∧ (AllocLaw s ↔ RoomLeft s .alloc) := by
  obtain ⟨hI, hr⟩ := roomReach_inv hs
  refine ⟨hr, fun hlaw hfull => ?_, fun hroom => ?_⟩
  · have hnull := hlaw.2 hfull
    rw [hI.alloc_full hr hfull] at hnull
    exact hI.ne_null 340 hnull
  · obtain ⟨i, hi, he⟩ := hI.alloc_inPageHeap hroom
    unfold AllocLaw
    rw [he]
    exact ⟨fun _ => hI.inPageHeap_iff.2 hi, fun hfull => absurd hfull hroom⟩

/-! ## A run that fills the region -/

/-- Bits are set from the first one on. -/
theorem PageInv.alloc_next (hI : PageInv s) (hn : n < 0x10000)
    (hlive : ∀ i, s.vmm.pageStructAt i ∈ s.live ↔ i < n) :
    ∃ s', pageStep s .alloc = some s' ∧ s'.vmm.pageHeapBegin = s.vmm.pageHeapBegin ∧
      ∀ i, s'.vmm.pageStructAt i ∈ s'.live ↔ i < n + 1 := by
  have he := hI.allocPageStruct_first hn (fun hmem => absurd ((hlive n).1 hmem) (lt_irrefl n)) fun k hk => (hlive k).2 hk
  refine ⟨⟨s.vmm.take n, s.vmm.pageStructAt n :: s.live⟩, ?_, rfl, fun i => ?_⟩
  · unfold pageStep
    dsimp only
    rw [he, if_neg (hI.ne_null n)]
  · show s.vmm.pageStructAt i ∈ s.vmm.pageStructAt n :: s.live ↔ _
    rw [List.mem_cons, hlive]
    constructor
    · rintro (h | h)
      · rw [pageStructAt_inj h]
        exact Nat.lt_succ_self n
      · omega
    · intro h
      rcases Nat.lt_succ_iff_lt_or_eq.1 h with h | rfl
      · exact Or.inr h
      · exact Or.inl rfl

/-- Allocations and nothing else take the slots one after the other. -/
theorem PageInv.alloc_many : ∀ {n k : ℕ} {s : PageSys}, PageInv s → (∀ i, s.vmm.pageStructAt i ∈ s.live ↔ i < k) →
    k + n ≤ 0x10000 → ∃ s', run pageStep (fun _ _ => true) s (List.replicate n .alloc) = some s' ∧
      s'.vmm.pageHeapBegin = s.vmm.pageHeapBegin ∧ ∀ i, s'.vmm.pageStructAt i ∈ s'.live ↔ i < k + n := by
  intro n
  induction n with
  | zero => exact fun _ hlive _ => ⟨_, rfl, rfl, hlive⟩
  | succ n ih =>
    intro k s hI hlive hle
    obtain ⟨s₁, h1, h2, h3⟩ := hI.alloc_next (by omega) hlive
    obtain ⟨s', h4, h5, h6⟩ := ih (hI.step h1) h3 (by omega)
    refine ⟨s', ?_, h5.trans h2, fun i => (h6 i).trans (by omega)⟩
    rw [List.replicate_succ, run, if_pos rfl, h1, Option.bind_some, h4]

/-- The page heap of a kernel whose pages are at 4 MiB. -/
def newPageHeap : PageSys := ⟨Vmm.initPageHeap ⟨fun _ => ⟨fun _ => 0, fun _ => 0, 0⟩, 0, 0, 0, fun _ => 0⟩ 0x400, []⟩

theorem newPageHeap_reach : Reach NewPageHeap pageStep RoomLeft newPageHeap := .init ⟨_, _, rfl⟩

/-- The first allocation is in the region, as a case of `page_heap_iff`. -/
theorem page_heap_first : AllocLaw newPageHeap := by
  refine ((page_heap_iff newPageHeap_reach).2).2 fun hfull => ?_
  have hI : PageInv newPageHeap := PageInv.init _ _
  have hmem := hI.full_iff.1 hfull 0 (by decide)
  cases hmem

/-- **After 340 allocations the next structure is outside the region**: its last page is not reserved. -/
theorem page_heap_overrun : ∃ s s', run pageStep (fun _ _ => true) newPageHeap (List.replicate 340 .alloc) = some s ∧
    s.Full ∧ pageStep s .alloc = some s' ∧ s'.live.head? = some 0xFFFFFFFF903FE000 ∧
    ¬ s'.vmm.InPageHeap 0xFFFFFFFF903FE000 ∧ ¬ AllocLaw s := by
  have hI₀ : PageInv newPageHeap := PageInv.init _ _
  obtain ⟨s, hrun, hbegin, hlive⟩ := hI₀.alloc_many (n := 340) (k := 0)
    (fun i => ⟨fun h => absurd h List.not_mem_nil, fun h => absurd h (Nat.not_lt_zero i)⟩) (by decide)
  have hs : Reach NewPageHeap pageStep Any s := Reach.run (.init ⟨_, _, rfl⟩) (fun _ _ _ => trivial) _ hrun
  have hI := pageReach_inv hs
  have hfull : s.Full := hI.full_iff.2 fun i hi => (hlive i).2 (by omega)
  have hat : s.vmm.pageStructAt 340 = 0xFFFFFFFF903FE000 := by
    unfold Vmm.pageStructAt
    rw [hI.begin_eq, hI.length_eq]
    rfl
  have hnew : s.vmm.pageStructAt 340 ∉ s.live := fun hmem => absurd ((hlive 340).1 hmem) (by decide)
  have he := hI.allocPageStruct_first (by decide) hnew fun k hk => (hlive k).2 (by omega)
  rw [hat] at he
  have hout : ¬ s.vmm.InPageHeap 0xFFFFFFFF903FE000 := by
    rw [← hat, hI.inPageHeap_iff]
    decide
  refine ⟨s, ⟨s.vmm.take 340, 0xFFFFFFFF903FE000 :: s.live⟩, hrun, hfull, ?_, rfl, hout, fun hlaw => ?_⟩
  · unfold pageStep
    dsimp only
    rw [he]
    rfl
  · have hnull := hlaw.2 hfull
    rw [he] at hnull
    cases hnull

end Nettapus
