import Nettapus.Proof.Vmm
import Nettapus.Lib.Runs

/-!
# The page-structure allocator

`alloc_page_struct` computes the address of a slot and `free_page_struct` finds the slot
again by stepping a typed pointer over the page heap. The two agree because the padded
size of the structure is the distance of the slots (`freePageStruct_at`).

`page_structs_invariant`: in every run the live structures are in distinct slots, and
the bits that are set are theirs. The page heap is mapped for its first 340 slots only;
nothing here depends on how many are in use.
-/

namespace Nettapus

open Bitmap Runs

variable {v v' : Vmm} {i j p : ℕ}

/-! ## Slots -/

/-- The slot of a structure. -/
def Vmm.slotIndex (v : Vmm) (p : ℕ) : ℕ := (p - v.pageHeapFirst) / Vmm.sizeofPageStruct

/-- The slots are as far apart as a structure is long. -/
theorem pageStructAt_eq (v : Vmm) (i : ℕ) : v.pageStructAt i = v.pageHeapFirst + i * Vmm.sizeofPageStruct := rfl

@[simp] theorem slotIndex_pageStructAt (v : Vmm) (i : ℕ) : v.slotIndex (v.pageStructAt i) = i := by
  unfold Vmm.slotIndex
  rw [pageStructAt_eq, Nat.add_sub_cancel_left]
  exact Nat.mul_div_cancel i (by decide)

theorem pageStructAt_inj (h : v.pageStructAt i = v.pageStructAt j) : i = j := by
  rw [← slotIndex_pageStructAt v i, h, slotIndex_pageStructAt]

/-- The pointer steps to the next slot. -/
theorem pageStructAt_add (v : Vmm) (i : ℕ) : v.pageStructAt i + Vmm.sizeofPageStruct = v.pageStructAt (i + 1) := by
  rw [pageStructAt_eq, pageStructAt_eq, Nat.add_mul, Nat.one_mul, Nat.add_assoc]

theorem freePageStructLoop_spec : ∀ n i, i ≤ j → j < i + n →
    v.freePageStructLoop (v.pageStructAt j) n i (v.pageStructAt i) =
      { v with pageHeapBitmap := clear v.pageHeapBitmap j } := by
  intro n
  induction n with
  | zero => intro i h1 h2; omega
  | succ n ih =>
    intro i h1 h2
    unfold Vmm.freePageStructLoop
    by_cases hij : v.pageStructAt i = v.pageStructAt j
    · rw [if_pos hij, pageStructAt_inj hij]
    · have hne : i ≠ j := fun h => hij (by rw [h])
      rw [if_neg hij, pageStructAt_add]
      exact ih (i + 1) (by omega) (by omega)

/-- **`free_page_struct` clears the bit of the slot** that the structure is in, and that is all. -/
theorem freePageStruct_at (hj : j < v.pageHeapBitmapLength * 8) :
    v.freePageStruct (v.pageStructAt j) = { v with pageHeapBitmap := clear v.pageHeapBitmap j } := by
  have h := freePageStructLoop_spec (v := v) (v.pageHeapBitmapLength * 8) 0 (Nat.zero_le j) (by omega)
  rw [pageStructAt_eq v 0, Nat.zero_mul, Nat.add_zero] at h
  exact h

/-- A structure that is in no slot is not freed. -/
theorem freePageStruct_none (h : ∀ j < v.pageHeapBitmapLength * 8, v.pageStructAt j ≠ p) : v.freePageStruct p = v := by
  have hloop : ∀ n i, i + n ≤ v.pageHeapBitmapLength * 8 → v.freePageStructLoop p n i (v.pageStructAt i) = v := by
    intro n
    induction n with
    | zero => intro i _; rfl
    | succ n ih =>
      intro i hi
      unfold Vmm.freePageStructLoop
      rw [if_neg (h i (by omega)), pageStructAt_add]
      exact ih (i + 1) (by omega)
  have h0 := hloop (v.pageHeapBitmapLength * 8) 0 (by omega)
  rw [pageStructAt_eq v 0, Nat.zero_mul, Nat.add_zero] at h0
  exact h0

/-! ## Runs -/

/-- The page heap, and the structures that were allocated and not freed yet. -/
structure PageSys where
  vmm : Vmm
  live : List ℕ

/-- The operations on page structures, and the writes of the owners of structures. -/
inductive PageOp
  | alloc
  | free (ps : ℕ)
  | write (ps : ℕ) (s : PageStruct)

/-- One operation: a `free_page_struct` is of a live structure, and so is a write. -/
def pageStep (s : PageSys) : PageOp → Option PageSys
  | .alloc =>
    let r := s.vmm.allocPageStruct
    some ⟨r.2, if r.1 = NULL then s.live else r.1 :: s.live⟩
  | .free ps => if ps ∈ s.live then some ⟨s.vmm.freePageStruct ps, s.live.erase ps⟩ else none
  | .write ps t =>
    if ps ∈ s.live then some ⟨{ s.vmm with tab := Function.update s.vmm.tab ps t }, s.live⟩ else none

/-- The page heap that `init_vmm` sets up. -/
def NewPageHeap (s : PageSys) : Prop := ∃ v basePp, s = ⟨Vmm.initPageHeap v basePp, []⟩

/-- **The invariant**: the live structures are the slots whose bits are set. -/
structure PageInv (s : PageSys) : Prop where
  begin_eq : s.vmm.pageHeapBegin = kernelVirtBase + 0x10000000
  length_eq : s.vmm.pageHeapBitmapLength = 0x2000
  nodup : s.live.Nodup
  slot : ∀ p ∈ s.live, ∃ i < 0x10000, p = s.vmm.pageStructAt i
  bit : ∀ i < 0x10000, test s.vmm.pageHeapBitmap i = true ↔ s.vmm.pageStructAt i ∈ s.live

variable {s s' : PageSys}

theorem PageInv.init (v : Vmm) (basePp : ℕ) : PageInv ⟨Vmm.initPageHeap v basePp, []⟩ := by
  refine ⟨rfl, rfl, List.nodup_nil, by simp, fun i hi => ?_⟩
  have hw : (Vmm.initPageHeap v basePp).pageHeapBitmap (i / 64) = 0 := if_pos (by omega)
  simp [test, hw]

theorem PageInv.ne_null (hI : PageInv s) (i : ℕ) : s.vmm.pageStructAt i ≠ NULL := by
  have := hI.begin_eq
  unfold Vmm.pageStructAt kernelVirtBase NULL at *
  omega

/-- What `alloc_page_struct` does in a state that is reached. -/
theorem PageInv.alloc_cases (hI : PageInv s) :
    (∃ i < 0x10000, s.vmm.pageStructAt i ∉ s.live ∧
      s.vmm.allocPageStruct = (s.vmm.pageStructAt i, s.vmm.take i)) ∨
    (s.vmm.allocPageStruct = (NULL, s.vmm) ∧ ∀ i < 0x10000, s.vmm.pageStructAt i ∈ s.live) := by
  rcases allocPageStruct_spec (v := s.vmm) with ⟨i, hi, h⟩ | ⟨h, h0⟩
  · obtain ⟨h1, h2⟩ := mem_freeSlots.1 hi
    rw [hI.length_eq] at h1
    refine Or.inl ⟨i, h1, fun hmem => ?_, h⟩
    rw [(hI.bit i h1).2 hmem] at h2
    cases h2
  · refine Or.inr ⟨h, fun i hi => (hI.bit i hi).1 ?_⟩
    by_contra hc
    have hmem : i ∈ s.vmm.freeSlots := mem_freeSlots.2 ⟨by rw [hI.length_eq]; omega, by simpa using hc⟩
    rw [h0] at hmem
    cases hmem

theorem PageInv.alloc (hI : PageInv s) (h : pageStep s .alloc = some s') : PageInv s' := by
  obtain rfl := Option.some.inj h
  rcases hI.alloc_cases with ⟨i, hi, hnew, he⟩ | ⟨he, -⟩
  · have hlive : ∀ q, q ∈ (if s.vmm.pageStructAt i = NULL then s.live else s.vmm.pageStructAt i :: s.live) ↔
        q = s.vmm.pageStructAt i ∨ q ∈ s.live := by
      intro q
      rw [if_neg (hI.ne_null i), List.mem_cons]
    rw [he]
    refine ⟨hI.begin_eq, hI.length_eq, ?_, fun p hp => ?_, fun k hk => ?_⟩
    · rw [if_neg (hI.ne_null i)]
      exact List.nodup_cons.2 ⟨hnew, hI.nodup⟩
    · rcases (hlive p).1 hp with rfl | hp
      · exact ⟨i, hi, rfl⟩
      · exact hI.slot p hp
    · show test (mark s.vmm.pageHeapBitmap i) k = true ↔ s.vmm.pageStructAt k ∈ _
      rw [hlive, test_mark, Bool.or_eq_true, decide_eq_true_eq, hI.bit k hk]
      exact or_congr ⟨fun h => by rw [h], pageStructAt_inj⟩ Iff.rfl
  · rw [he, if_pos rfl]
    exact hI

/-- What `free_page_struct` does to a live structure. -/
theorem PageInv.free_eq (hI : PageInv s) (hp : p ∈ s.live) : ∃ i < 0x10000, p = s.vmm.pageStructAt i ∧
    s.vmm.freePageStruct p = { s.vmm with pageHeapBitmap := clear s.vmm.pageHeapBitmap i } := by
  obtain ⟨i, hi, rfl⟩ := hI.slot p hp
  exact ⟨i, hi, rfl, freePageStruct_at (by rw [hI.length_eq]; omega)⟩

theorem PageInv.free (hI : PageInv s) (h : pageStep s (.free p) = some s') : PageInv s' := by
  unfold pageStep at h
  dsimp only at h
  split_ifs at h with hp
  obtain rfl := Option.some.inj h
  obtain ⟨i, hi, rfl, he⟩ := hI.free_eq hp
  rw [he]
  refine ⟨hI.begin_eq, hI.length_eq, hI.nodup.erase _, fun q hq => hI.slot q (List.mem_of_mem_erase hq), fun k hk => ?_⟩
  show test (clear s.vmm.pageHeapBitmap i) k = true ↔ s.vmm.pageStructAt k ∈ s.live.erase (s.vmm.pageStructAt i)
  rw [test_clear, Bool.and_eq_true, hI.bit k hk, hI.nodup.mem_erase_iff, Bool.not_eq_true', decide_eq_false_iff_not]
  exact and_congr_left fun _ => not_congr ⟨fun h => by rw [h], pageStructAt_inj⟩

/-- **Every operation keeps the invariant.** -/
theorem PageInv.step {e : PageOp} (hI : PageInv s) (h : pageStep s e = some s') : PageInv s' := by
  cases e with
  | alloc => exact hI.alloc h
  | free ps => exact hI.free h
  | write ps t =>
    unfold pageStep at h
    dsimp only at h
    split_ifs at h
    obtain rfl := Option.some.inj h
    exact ⟨hI.begin_eq, hI.length_eq, hI.nodup, hI.slot, hI.bit⟩

theorem pageReach_inv (hs : Reach NewPageHeap pageStep Any s) : PageInv s := by
  refine hs.inv ?_ fun s e s' hI _ h => hI.step h
  rintro s ⟨v, basePp, rfl⟩
  exact PageInv.init v basePp

/-- Two structures do not overlap. -/
def SlotsApart (p q : ℕ) : Prop := p + 0x3000 ≤ q ∨ q + 0x3000 ≤ p

theorem PageInv.slotsApart (hI : PageInv s) : s.live.Pairwise SlotsApart := by
  refine hI.nodup.imp_of_mem fun {p q} hp hq hne => ?_
  obtain ⟨i, -, rfl⟩ := hI.slot p hp
  obtain ⟨j, -, rfl⟩ := hI.slot q hq
  have hij : i ≠ j := fun h => hne (by rw [h])
  unfold SlotsApart Vmm.pageStructAt
  omega

/-- **The page-structure allocator.** In every state that a run reaches: the live structures
are in page-aligned slots and do not overlap; the bit of a slot is set iff its structure
is live; an allocation gives a structure that was not live, sets its bit and clears all of
it but its physical address, or finds that all slots are live; and freeing a live
structure clears the bit that its allocation set. -/
theorem page_structs_invariant (hs : Reach NewPageHeap pageStep Any s) :
    (∀ p ∈ s.live, p % 0x1000 = 0 ∧
      ∃ i < 0x10000, p = s.vmm.pageHeapBegin + 0x2000 + i * 0x3000 ∧ s.vmm.slotIndex p = i) ∧
    s.live.Pairwise SlotsApart ∧
    (∀ i < 0x10000, test s.vmm.pageHeapBitmap i = true ↔ s.vmm.pageHeapBegin + 0x2000 + i * 0x3000 ∈ s.live) ∧
    (∀ p v', s.vmm.allocPageStruct = (p, v') →
      (p = NULL ∧ v' = s.vmm ∧ ∀ i < 0x10000, s.vmm.pageHeapBegin + 0x2000 + i * 0x3000 ∈ s.live) ∨
      (p ∉ s.live ∧ v'.pageHeapBitmap = mark s.vmm.pageHeapBitmap (s.vmm.slotIndex p) ∧
        v'.pageHeapBegin = s.vmm.pageHeapBegin ∧
        (∃ phys, v'.tab p = ⟨fun _ => 0, fun _ => 0, phys⟩ ∧
          (phys : ℤ) - s.vmm.pageHeapPhys = (p : ℤ) - s.vmm.pageHeapBegin) ∧
        ∀ q, q ≠ p → v'.tab q = s.vmm.tab q)) ∧
    (∀ p ∈ s.live, s.vmm.freePageStruct p =
      { s.vmm with pageHeapBitmap := clear s.vmm.pageHeapBitmap (s.vmm.slotIndex p) }) := by
  have hI := pageReach_inv hs
  have hat : ∀ i, s.vmm.pageStructAt i = s.vmm.pageHeapBegin + 0x2000 + i * 0x3000 := by
    intro i
    unfold Vmm.pageStructAt
    rw [hI.length_eq]
  refine ⟨fun p hp => ?_, hI.slotsApart, fun i hi => ?_, fun p v' h => ?_, fun p hp => ?_⟩
  · obtain ⟨i, hi, rfl⟩ := hI.slot p hp
    refine ⟨?_, i, hi, hat i, slotIndex_pageStructAt _ i⟩
    rw [hat, hI.begin_eq]
    unfold kernelVirtBase
    omega
  · rw [hI.bit i hi, hat]
  · rcases hI.alloc_cases with ⟨i, hi, hnew, he⟩ | ⟨he, hfull⟩
    · obtain ⟨rfl, rfl⟩ := Prod.mk.inj (he.symm.trans h)
      refine Or.inr ⟨hnew, ?_, rfl, ⟨_, Function.update_self _ _ _, ?_⟩, fun q hq => Function.update_of_ne hq _ _⟩
      · rw [slotIndex_pageStructAt]
        rfl
      · rw [hat]
        omega
    · obtain ⟨rfl, rfl⟩ := Prod.mk.inj (he.symm.trans h)
      exact Or.inl ⟨rfl, rfl, fun i hi => by rw [← hat]; exact hfull i hi⟩
  · obtain ⟨i, -, rfl, he⟩ := hI.free_eq hp
    rw [slotIndex_pageStructAt]
    exact he

/-- Two structures, and the first one freed, as a case of `page_structs_invariant`: the bit of the
second slot is set and that of the first one is not. -/
theorem page_structs_invariant_second : ∃ s, Reach NewPageHeap pageStep Any s ∧ s.live = [0xFFFFFFFF90005000] ∧
    test s.vmm.pageHeapBitmap 0 = false ∧ test s.vmm.pageHeapBitmap 1 = true := by
  let s₀ : PageSys := ⟨Vmm.initPageHeap ⟨fun _ => ⟨fun _ => 0, fun _ => 0, 0⟩, 0, 0, 0, fun _ => 0⟩ 0x400, []⟩
  have hlive : (run pageStep (fun _ _ => true) s₀ [.alloc, .alloc, .free 0xFFFFFFFF90002000]).map
      (fun s => (s.live, s.vmm.pageHeapBegin)) = some ([0xFFFFFFFF90005000], 0xFFFFFFFF90000000) := by
    decide +kernel
  obtain ⟨s, h1, h2⟩ := Option.map_eq_some_iff.1 hlive
  have h0 : Reach NewPageHeap pageStep Any s₀ := Reach.init ⟨_, _, rfl⟩
  have hs : Reach NewPageHeap pageStep Any s := h0.run (fun _ _ _ => trivial) _ h1
  obtain ⟨h3, h4⟩ := Prod.mk.inj h2
  obtain ⟨-, -, hbit, -⟩ := page_structs_invariant hs
  refine ⟨s, hs, h3, ?_, ?_⟩
  · rw [← Bool.not_eq_true, hbit 0 (by decide), h3, h4]
    decide
  · rw [hbit 1 (by decide), h3, h4]
    decide

end Nettapus
