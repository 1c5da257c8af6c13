import Nettapus.Proof.Boot
import Nettapus.Proof.PmmFit
import Mathlib.Order.Interval.Finset.Nat

/-!
# `init_memory`

* `Booting`: the invariant of the maps that `init_vmm` and `init_heap` make, with the entries of all pages so far.
* `initVmm_boots`, `initHeap_boots`: the two functions, from one map to the next.
-/

namespace Nettapus

open Forest Runs Bitmap

variable {k : KernelImage} {v v' : Vmm} {z z' : Spaces} {f g : ℕ → ℕ} {a b i j n r t vp u : ℕ}

/-! ## The slots in use come first -/

/-- The slots in use are the first `n`. -/
def FirstSlots (v : Vmm) (n : ℕ) : Prop := ∀ j < v.pageHeapBitmapLength * 8, test v.pageHeapBitmap j = decide (j < n)

/-- The slots in use are the first ones. -/
def Packed (v : Vmm) : Prop := ∃ n, FirstSlots v n

theorem FirstSlots.freeSlots (h : FirstSlots v n) : v.freeSlots = Finset.Ico n (v.pageHeapBitmapLength * 8) := by
  ext j
  rw [mem_freeSlots, Finset.mem_Ico]
  constructor
  · rintro ⟨h1, h2⟩
    rw [h j h1, decide_eq_false_iff_not] at h2
    omega
  · rintro ⟨h1, h2⟩
    exact ⟨h2, by rw [h j h2]; exact decide_eq_false (by omega)⟩

/-- **The next allocation** takes the slot that comes next. -/
theorem Packed.alloc (h : Packed v) : Packed v.allocPageStruct.2 := by
  obtain ⟨n, hn⟩ := h
  unfold Vmm.allocPageStruct
  rcases allocPageStructLoop_spec (v := v) (v.pageHeapBitmapLength * 8) 0 with ⟨j, -, h1, h2, h3, h4⟩ | ⟨h1, -⟩
  · rw [h4]
    have hj : j = n := by
      rw [hn j (by omega), decide_eq_false_iff_not] at h2
      by_contra hc
      have hlt := h3 n (Nat.zero_le _) (by omega)
      rw [hn n (by omega), decide_eq_true_eq] at hlt
      omega
    refine ⟨n + 1, fun i hi => ?_⟩
    show test (mark v.pageHeapBitmap j) i = decide (i < n + 1)
    rw [test_mark, hn i hi, hj, ← Bool.decide_or]
    exact decide_eq_decide.2 (by omega)
  · rw [h1]
    exact ⟨n, hn⟩

theorem Packed.childOrNew (h : Packed v) (hm : v.childOrNew t i = some (n, v')) : Packed v' := by
  have ha := h.alloc
  unfold Vmm.childOrNew at hm
  split_ifs at hm
  · dsimp only at hm
    split_ifs at hm
    rw [← (Prod.mk.inj (Option.some.inj hm)).2]
    exact ha
  · rw [← (Prod.mk.inj (Option.some.inj hm)).2]
    exact h

theorem Packed.tableOrNew (h : Packed v) (hm : v.tableOrNew t i = some (n, v')) : Packed v' := by
  have ha := h.alloc
  unfold Vmm.tableOrNew at hm
  split_ifs at hm
  · dsimp only at hm
    split_ifs at hm
    rw [← (Prod.mk.inj (Option.some.inj hm)).2]
    exact ha
  · rw [← (Prod.mk.inj (Option.some.inj hm)).2]
    exact h

theorem Packed.findTable {va : ℕ} (h : Packed v) (hm : v.findTable r va = some (n, v')) : Packed v' := by
  obtain ⟨⟨pdpt, v₁⟩, h1, hm⟩ := Option.bind_eq_some_iff.1 hm
  obtain ⟨⟨pd, v₂⟩, h2, h3⟩ := Option.bind_eq_some_iff.1 hm
  exact ((h.childOrNew h1).childOrNew h2).tableOrNew h3

theorem Packed.mapLoop : ∀ n (v : Vmm) (pa va pt : ℕ), Packed v → Vmm.mapLoop r u n v pa va pt = some v' → Packed v' := by
  intro n
  induction n with
  | zero => exact fun v pa va pt h hm => Option.some.inj hm ▸ h
  | succ n ih =>
    intro v pa va pt h hm
    obtain ⟨⟨pt', v₁⟩, h1, hm⟩ := Option.bind_eq_some_iff.1 hm
    have hv₁ : Packed v₁ := by
      split_ifs at h1
      · exact h.findTable h1
      · rw [← (Prod.mk.inj (Option.some.inj h1)).2]
        exact h
    exact ih (v₁.setEntry pt' _ _) _ _ _ hv₁ hm

theorem Packed.mapMemory {pa va amount st : ℕ} (h : Packed v) (hm : v.mapMemory pa va amount r u = some (st, v')) :
    Packed v' := by
  unfold Vmm.mapMemory at hm
  split_ifs at hm
  · rw [← (Prod.mk.inj (Option.some.inj hm)).2]
    exact h
  · obtain ⟨⟨pt, v₁⟩, h1, hm⟩ := Option.bind_eq_some_iff.1 hm
    obtain ⟨v₂, h2, h3⟩ := Option.map_eq_some_iff.1 hm
    rw [← (Prod.mk.inj h3).2]
    exact (h.findTable h1).mapLoop _ _ _ _ _ h2

/-- If few slots are in use, they are in the region that is mapped. -/
theorem Packed.slotsMapped (h : Packed v) (hb : v.pageHeapBitmapLength = 0x2000) (hc : 0x10000 ≤ v.freeSlots.card + 340) :
    SlotsMapped v := by
  obtain ⟨n, hn⟩ := h
  rw [hn.freeSlots, Nat.card_Ico, hb] at hc
  intro j hj hu
  rw [hn j hj, decide_eq_true_eq] at hu
  unfold Vmm.InPageHeap Vmm.pageStructAt Vmm.sizeofPageStruct Vmm.pageHeapLength
  rw [hb]
  omega

/-! ## The maps of the start -/

/-- `f` with a range of pages at the frames from `a` on. -/
def withRange (f : ℕ → ℕ) (vp n a c : ℕ) : ℕ → ℕ := fun q =>
  if vp ≤ q ∧ q < vp + n then (a + (q - vp)) * 0x1000 + c else f q

/-- The pages of the kernel's binary, and of the page heap. -/
def kernelVp : ℕ := 0xFFFFFFFF80200000 % 2 ^ 48 / 0x1000
def pageHeapVp : ℕ := 0xFFFFFFFF90000000 % 2 ^ 48 / 0x1000

/-- **The structures in the course of the start**: `n` slots at most are in use, and `f` are the entries of the pages. -/
structure Booting (k : KernelImage) (b n : ℕ) (f : ℕ → ℕ) (v : Vmm) : Prop where
  tables : Tables (· = k.kpml4) (· = 511) v
  forest : ∀ p a, (p, a) ∈ k.forest → walk v.kids k.kpml4 p = some a
  entry : (v.tab k.kpml4).entries 511 % 8 = 3
  laid : Laid (· = k.kpml4) v
  packed : Packed v
  slots : 0x10000 ≤ v.freeSlots.card + n
  begin_eq : v.pageHeapBegin = kernelVirtBase + 0x10000000
  phys_eq : v.pageHeapPhys = b * 0x1000
  length_eq : v.pageHeapBitmapLength = 0x2000
  flat_eq : ∀ vp, flat v k.kpml4 vp = f vp

/-- Where the page heap is in memory stays. -/
theorem phys_mapRule (R s : ℕ → Prop) (c : ℕ) : MapRule R s fun v => v.pageHeapPhys = c :=
  ⟨fun _ _ _ _ _ _ _ _ h _ hA => hA.phys_eq.trans h, fun _ _ _ _ _ h _ _ _ => h⟩

/-- **One map.** -/
theorem Booting.map (h : Booting k b n f v) (a va amount u : ℕ) (hn : n + 3 * (amount / 512 + 2) ≤ 0x10000)
    (ha : a + amount ≤ pageLimit) (hva : va % 0x1000 = 0) (hle : va % 2 ^ 48 / 0x1000 + amount ≤ 2 ^ 36) :
    ∃ v', v.mapMemory (a * 0x1000) va amount k.kpml4 u = some (GENERIC_SUCCESS, v') ∧
      Booting k b (n + 3 * (amount / 512 + 2)) (withRange f (va % 2 ^ 48 / 0x1000) amount a (if u ≠ 0 then 7 else 3)) v' := by
  have hslots := h.slots
  obtain ⟨v', hm⟩ : ∃ v', v.mapMemory (a * 0x1000) va amount k.kpml4 u = some (GENERIC_SUCCESS, v') :=
    mapMemory_total h.tables rfl (by omega) (by omega)
  obtain ⟨-, hM⟩ := mapMemory_spec h.tables rfl hm
  have hcard := mapMemory_slots h.tables rfl hm
  have hframe : a * 0x1000 &&& 0xFFFFFFFFFFFFF000 = a * 0x1000 := by
    unfold pageLimit at ha
    rw [and_frame]
    omega
  rw [hframe] at hM
  refine ⟨v', hm, hM.tables, fun p c hp => ?_, ?_, (laid_mapRule _ _).mapMemory h.laid h.tables rfl hm, h.packed.mapMemory hm,
    by omega, hM.grown.begin_eq.trans h.begin_eq, (phys_mapRule _ _ _).mapMemory h.phys_eq h.tables rfl hm,
    hM.grown.length_eq.trans h.length_eq, fun q => ?_⟩
  · exact hM.grown.walk k.kpml4 p c rfl (k.forest_length hp) (h.forest p c hp)
  · have hkid : v.kids k.kpml4 511 = some k.kFirstPdpt := by
      have hw := h.forest [511] k.kFirstPdpt (by simp [KernelImage.forest])
      rwa [walk_singleton] at hw
    rw [hM.grown.kept k.kpml4 [] k.kpml4 511 k.kFirstPdpt rfl (by decide) rfl hkid]
    exact h.entry
  · unfold withRange
    by_cases hq : va % 2 ^ 48 / 0x1000 ≤ q ∧ q < va % 2 ^ 48 / 0x1000 + amount
    · rw [if_pos hq]
      have hin := hM.inside (q - va % 2 ^ 48 / 0x1000) (by omega)
      have hpa : u64 (a * 0x1000 + (q - va % 2 ^ 48 / 0x1000) * 0x1000) = (a + (q - va % 2 ^ 48 / 0x1000)) * 0x1000 := by
        unfold pageLimit at ha
        unfold u64
        omega
      rw [hpa, pageEntry_aligned (by omega), Nat.add_sub_cancel' hq.1] at hin
      exact hin
    · rw [if_neg hq, hM.outside k.kpml4 q rfl (Or.inl (by omega))]
      exact h.flat_eq q

/-! ## `init_vmm` -/

/-- What is mapped without the page heap. -/
theorem Booting.before {va amount st : ℕ} (h : Booting k b n f (v.initPageHeap b)) (hn : 0 < amount)
    (hva : va % 2 ^ 48 / 0x1000 + amount ≤ 2 ^ 36)
    (hp : ∀ j < amount, ∃ pt, (path (va % 2 ^ 48 / 0x1000 + j), pt) ∈ k.forest)
    (hm : (v.initPageHeap b).mapMemory a va amount k.kpml4 u = some (st, v')) :
    ∃ v₁, v.mapMemory a va amount k.kpml4 u = some (st, v₁) ∧ v' = v₁.initPageHeap b := by
  have hw : ∀ j < amount, ∃ pt, walk v.kids k.kpml4 (path (va % 2 ^ 48 / 0x1000 + j)) = some pt := by
    intro j hj
    obtain ⟨pt, hpt⟩ := hp j hj
    exact ⟨pt, h.forest _ pt hpt⟩
  have hroot : k.kpml4 ≠ NULL := h.tables.root _ rfl
  rw [mapMemory_initPageHeap b hroot hn hva hw] at hm
  obtain ⟨⟨st', v₁⟩, h1, h2⟩ := Option.map_eq_some_iff.1 hm
  obtain ⟨rfl, rfl⟩ := Prod.mk.inj h2
  exact ⟨v₁, h1, rfl⟩

/-- The entries after `init_vmm`. -/
def vmmEntries (base stack : ℕ) : ℕ → ℕ :=
  withRange (withRange (withRange (withRange (fun _ => 0) kernelVp 0x200 0x200 3) pageHeapVp 128 base 3)
    (pageHeapVp + 128) 896 (base + 128) 3) stackPage 1 stack 3

/-- **The frames of the start**: `m` is the memory before, and `m'` after; from the page `e` on nothing is taken. -/
structure BootFrames (e : ℕ) (m m' : MemoryMap) (base stack heap : ℕ) : Prop where
  used : ∀ q, isppUsed m q ≠ 0 ∨ (base ≤ q ∧ q < base + 1024) ∨ q = stack ∨ (heap ≤ q ∧ q < heap + 256) → isppUsed m' q ≠ 0
  free : ∀ q, e ≤ q → isppUsed m q = 0 → isppUsed m' q = 0
  low : 1024 ≤ base ∧ 1024 ≤ stack ∧ 1024 ≤ heap
  below : base + 1024 ≤ pageLimit ∧ stack < pageLimit ∧ heap + 256 ≤ pageLimit
  stack_apart : stack < base ∨ base + 1024 ≤ stack
  heap_apart : (heap + 256 ≤ base ∨ base + 1024 ≤ heap) ∧ (stack < heap ∨ heap + 256 ≤ stack)
  limit : BelowLimit m'

/-- A run of pages that is free is apart from one that was marked. -/
theorem Marked.apart {m m' : MemoryMap} {p q c d : ℕ} (h : Marked m p c m') (hf : FreeRun m' q d) (hc : 0 < c) (hd : 0 < d) :
    q + d ≤ p ∨ p + c ≤ q := by
  by_contra hcon
  push Not at hcon
  have hfree := hf (max p q) (le_max_right p q) (by omega)
  exact h.used (Or.inr ⟨le_max_left p q, by omega⟩) hfree

/-- A page that was free, and is not marked. -/
theorem Marked.free {m m' : MemoryMap} {p q c : ℕ} (h : Marked m p c m') (hq : isppUsed m q = 0) (hout : p + c ≤ q) :
    isppUsed m' q = 0 := by
  rw [isppUsed_eq_zero_iff] at hq ⊢
  rw [h.valid, h.bit, hq.2, decide_eq_false (by omega)]
  exact ⟨hq.1, rfl⟩

/-- What the kernel has mapped after the start: its binary, the page heap, a stack and the heap. -/
def bootFrame (base stack heap vp : ℕ) : Option ℕ :=
  if heapVp ≤ vp ∧ vp < heapVp + 256 then some (heap + (vp - heapVp))
  else if vp = stackPage then some stack
  else if pageHeapVp ≤ vp ∧ vp < pageHeapVp + 1024 then some (base + (vp - pageHeapVp))
  else if kernelVp ≤ vp ∧ vp < kernelVp + 0x200 then some (0x200 + (vp - kernelVp))
  else none

/-- The entries are those of the map. The heap has the bit for user code. -/
theorem entries_bootFrame (base stack heap vp : ℕ) :
    withRange (vmmEntries base stack) heapVp 256 heap 7 vp =
      (bootFrame base stack heap vp).elim 0 fun f => f * 0x1000 + if heapVp ≤ vp ∧ vp < heapVp + 256 then 7 else 3 := by
  have h1 : stackPage + 1 ≤ kernelVp := by decide
  have h2 : kernelVp + 0x200 ≤ pageHeapVp := by decide
  have h3 : pageHeapVp + 1024 ≤ heapVp := by decide
  unfold vmmEntries bootFrame withRange
  generalize stackPage = s at *
  generalize kernelVp = k at *
  generalize pageHeapVp = p at *
  generalize heapVp = h at *
  by_cases c1 : h ≤ vp ∧ vp < h + 256
  · simp [c1]
  rw [if_neg c1, if_neg c1, if_neg c1]
  by_cases c2 : vp = s
  · subst c2
    simp
  rw [if_neg (by omega), if_neg c2]
  by_cases c3 : p ≤ vp ∧ vp < p + 1024
  · rw [if_pos c3]
    by_cases c4 : vp < p + 128
    · rw [if_neg (by omega), if_pos ⟨c3.1, c4⟩]
      rfl
    · have he : base + 128 + (vp - (p + 128)) = base + (vp - p) := by omega
      rw [if_pos (by omega), he]
      rfl
  rw [if_neg (by omega), if_neg (by omega), if_neg c3]
  by_cases c5 : k ≤ vp ∧ vp < k + 0x200
  · rw [if_pos c5, if_pos c5]
    rfl
  · rw [if_neg c5, if_neg c5]
    rfl

/-- **Two pages have two frames.** -/
theorem BootFrames.inj {m m' : MemoryMap} {e base stack heap q q' c : ℕ} (h : BootFrames e m m' base stack heap)
    (hq : bootFrame base stack heap q = some c) (hq' : bootFrame base stack heap q' = some c) : q = q' := by
  have h1 := h.low
  have h2 := h.stack_apart
  have h3 := h.heap_apart
  unfold bootFrame at hq hq'
  generalize stackPage = s at *
  generalize kernelVp = k at *
  generalize pageHeapVp = p at *
  generalize heapVp = h at *
  split_ifs at hq hq' <;> simp only [Option.some.injEq] at hq hq' <;> omega

/-- The frames are in use. -/
theorem BootFrames.mapped_used {m m' : MemoryMap} {e base stack heap q c : ℕ} (h : BootFrames e m m' base stack heap)
    (hlow : ∀ q < 1024, isppUsed m q ≠ 0) (hq : bootFrame base stack heap q = some c) : isppUsed m' c ≠ 0 ∧ c < pageLimit := by
  have h1 := h.below
  have hlim : 1024 < pageLimit := by decide
  unfold bootFrame at hq
  split_ifs at hq
  · obtain rfl := Option.some.inj hq
    exact ⟨h.used _ (by omega), by omega⟩
  · obtain rfl := Option.some.inj hq
    exact ⟨h.used _ (by omega), by omega⟩
  · obtain rfl := Option.some.inj hq
    exact ⟨h.used _ (by omega), by omega⟩
  · obtain rfl := Option.some.inj hq
    exact ⟨h.used _ (Or.inl (hlow _ (by omega))), by omega⟩

/-! ## The state after `init_memory` -/

/-- **The state after `init_memory`**: runs can begin in it, and the processor maps what `bootFrame` says, for the kernel
alone; the physical memory of the binary and of the page heap is where `virtOf` has it. -/
structure Booted (z : Spaces) (base stack heap : ℕ) : Prop where
  life : LifeInit z
  slots : SlotsMapped z.vmm
  room : 0xFF00 ≤ z.vmm.freeSlots.card
  map : ∀ va, z.vmm.mmuWalk z.kpml4 va = (bootFrame base stack heap (va % 2 ^ 48 / 0x1000)).map fun f => ⟨f, false, true⟩
  virt : ∀ pa, (0x200000 ≤ pa ∧ pa < 0x400000) ∨ (base * 0x1000 ≤ pa ∧ pa < (base + 1024) * 0x1000) →
    z.vmm.mmuWalk z.kpml4 (z.vmm.virtOf pa) = some ⟨pa / 0x1000, false, true⟩
  inj : ∀ q q' c, bootFrame base stack heap q = some c → bootFrame base stack heap q' = some c → q = q'
  used : ∀ q c, bootFrame base stack heap q = some c → z.Used c

/-- Where the kernel has the memory of the binary and of the page heap. -/
theorem Booting.bootFrame_virtOf {base stack heap pa : ℕ} (h : Booting k base n f v) (hb : 1024 ≤ base)
    (hpa : (0x200000 ≤ pa ∧ pa < 0x400000) ∨ (base * 0x1000 ≤ pa ∧ pa < (base + 1024) * 0x1000)) :
    bootFrame base stack heap (v.virtOf pa % 2 ^ 48 / 0x1000) = some (pa / 0x1000) := by
  have hst : stackPage = 0xFF7FFFFFF := by decide
  have hkv : kernelVp = 0xFFFF80200 := by decide
  have hpv : pageHeapVp = 0xFFFF90000 := by decide
  have hhv : heapVp = 0xFFFFA0000 := by decide
  have hlen : Vmm.pageHeapLength = 0x400000 := rfl
  rcases hpa with hpa | hpa
  · have hvp : v.virtOf pa % 2 ^ 48 / 0x1000 = 0xFFFF80000 + pa / 0x1000 := by
      unfold Vmm.virtOf
      rw [hlen, h.phys_eq, if_neg (by omega)]
      unfold kernelVirtBase
      omega
    have he : 0x200 + (0xFFFF80000 + pa / 0x1000 - 0xFFFF80200) = pa / 0x1000 := by omega
    unfold bootFrame
    rw [hvp, hst, hkv, hpv, hhv, if_neg (by omega), if_neg (by omega), if_neg (by omega), if_pos (by omega), he]
  · have hvp : v.virtOf pa % 2 ^ 48 / 0x1000 = 0xFFFF90000 + (pa / 0x1000 - base) := by
      have hin : base * 0x1000 ≤ pa ∧ pa < base * 0x1000 + 0x400000 := ⟨hpa.1, by rw [Nat.add_mul] at hpa; exact hpa.2⟩
      unfold Vmm.virtOf
      rw [hlen, h.phys_eq, h.begin_eq, if_pos hin]
      unfold kernelVirtBase
      omega
    have he : base + (0xFFFF90000 + (pa / 0x1000 - base) - 0xFFFF90000) = pa / 0x1000 := by omega
    unfold bootFrame
    rw [hvp, hst, hpv, hhv, if_neg (by omega), if_neg (by omega), if_pos (by omega), he]

/-- The flags of an entry. -/
theorem entry_present {e : ℕ} (h : e % 2 = 1) : entryPresent e = true := decide_eq_true h

theorem entry_write {e : ℕ} (h : e / 2 % 2 = 1) : entryWrite e = true := decide_eq_true h

theorem entry_kernel {e : ℕ} (h : e / 4 % 2 ≠ 1) : entryUser e = false := decide_eq_false h

theorem Booting.booted {m : MemoryMap} {e base stack heap : ℕ}
    (h : Booting k base n (withRange (vmmEntries base stack) heapVp 256 heap 7) z.vmm) (hn : n ≤ 0x100) (hkp : z.kpml4 = k.kpml4)
    (hpd : z.kFirstPdpt = k.kFirstPdpt) (hsp : z.spaces = []) (hcr : z.cr3 = z.kpml4)
    (hlow : ∀ q < 1024, isppUsed m q ≠ 0) (hF : BootFrames e m z.mem base stack heap) : Booted z base stack heap := by
  have hroot : z.Root = (· = k.kpml4) := by
    funext r
    unfold Spaces.Root
    rw [hsp, hkp]
    simp
  have hinv : SpaceInv z := by
    refine ⟨by rw [hroot]; exact h.tables, fun r hr => ?_, fun r hr => ?_⟩
    · rw [hroot] at hr
      obtain rfl : r = k.kpml4 := hr
      have hw := h.forest [511] k.kFirstPdpt (by simp [KernelImage.forest])
      rw [walk_singleton] at hw
      exact ⟨by rw [hpd]; exact hw, h.entry⟩
    · rw [hsp] at hr
      cases hr
  have hlaid : Laid z.Root z.vmm := by
    rw [hroot]
    exact h.laid
  have hslots : SlotsMapped z.vmm := h.packed.slotsMapped h.length_eq (by have := h.slots; omega)
  have hflat : ∀ vp, flat z.vmm z.kpml4 vp = (bootFrame base stack heap vp).elim 0 fun f =>
      f * 0x1000 + if heapVp ≤ vp ∧ vp < heapVp + 256 then 7 else 3 := by
    intro vp
    rw [hkp, h.flat_eq, entries_bootFrame]
  have hmap : ∀ va, z.vmm.mmuWalk z.kpml4 va =
      (bootFrame base stack heap (va % 2 ^ 48 / 0x1000)).map fun f => ⟨f, false, true⟩ := by
    intro va
    rw [hlaid.mmuWalk hinv.tables (hlaid.housed.heapMapped hinv.tables hslots) (Or.inl rfl),
      getPageEntry_eq (hinv.tables.root _ (Or.inl rfl)), hflat]
    have hvp : va % 2 ^ 48 / 0x1000 < 2 ^ 36 := by omega
    generalize va % 2 ^ 48 / 0x1000 = vp at hvp ⊢
    cases hc : bootFrame base stack heap vp with
    | none => rfl
    | some c =>
      have hc' := (hF.mapped_used hlow hc).2
      have hlim : pageLimit = 6291456 := by decide
      have hhalf : userHalf ≤ heapVp := by decide
      rw [Option.elim_some, Option.map_some]
      by_cases hheap : heapVp ≤ vp ∧ vp < heapVp + 256
      · have hup : upperUser z.vmm z.kpml4 vp = false := by
          by_contra hcon
          have := hinv.user_half (Or.inl rfl) hvp (by simpa using hcon)
          omega
        have hfr : (c * 0x1000 + 7) % 2 ^ 52 / 0x1000 = c := by omega
        rw [if_pos hheap, hup, if_pos (entry_present (by omega)), entry_write (by omega), Bool.false_and, hfr]
      · have hfr : (c * 0x1000 + 3) % 2 ^ 52 / 0x1000 = c := by omega
        rw [if_neg hheap, if_pos (entry_present (by omega)), entry_write (by omega), entry_kernel (by omega), Bool.and_false, hfr]
  have hpage : ∀ vp < userHalf, flat z.vmm z.kpml4 vp ≠ 0 → ∃ c, bootFrame base stack heap vp = some c ∧
      flat z.vmm z.kpml4 vp = c * 0x1000 + 3 := by
    intro vp hvp h0
    have hhalf : userHalf ≤ heapVp := by decide
    rw [hflat] at h0 ⊢
    cases hc : bootFrame base stack heap vp with
    | none => exact absurd (by rw [hc]; rfl) h0
    | some c =>
      dsimp only [Option.elim]
      rw [if_neg (by omega)]
      exact ⟨c, rfl, rfl⟩
  refine ⟨⟨hinv, hsp, hcr, hF.limit, hlaid, fun vp hvp h0 => ?_, fun vp hvp vp' hvp' h0 h0' he => ?_⟩, hslots,
    by have := h.slots; omega, hmap, fun pa hpa => ?_, fun q q' c => hF.inj, fun q c hq => (hF.mapped_used hlow hq).1⟩
  · obtain ⟨c, hc, he⟩ := hpage vp hvp h0
    obtain ⟨hu, hlt⟩ := hF.mapped_used hlow hc
    exact ⟨c, hlt, Or.inr he, hu⟩
  · obtain ⟨c, hc, h1⟩ := hpage vp hvp h0
    obtain ⟨c', hc', h2⟩ := hpage vp' hvp' h0'
    obtain rfl : c = c' := by omega
    exact hF.inj hc hc'
  · rw [hmap, h.bootFrame_virtOf hF.low.1 hpa]
    rfl

/-- The frame `q` is the kernel's: it is in use, no page of a user half has it, and it holds what it held. -/
structure Reserved (z₀ z : Spaces) (q : ℕ) : Prop where
  used : z.Used q
  unheld : ∀ c, ¬ z.HasFrame c q
  page_eq : z.page q = z₀.page q

variable {z₀ : Spaces} {q : ℕ} {e : LifeEvent}

/-- A new address space is in free frames. -/
theorem Reserved.made (h : Reserved z₀ z q) (hS : Made z z' r) : Reserved z₀ z' q := by
  obtain ⟨hu, hpage⟩ := hS.kept q h.used
  refine ⟨hu, ?_, hpage.trans h.page_eq⟩
  rintro ⟨r', vp⟩ ⟨hr', hvp, h0, he⟩
  dsimp only at hr' hvp h0 he
  have hroot : z.Root r' ∨ r' = r := by
    unfold Spaces.Root at hr' ⊢
    rw [hS.space.kpml4_eq, hS.space.spaces_eq, List.mem_append, List.mem_singleton] at hr'
    tauto
  rcases hroot with hr' | rfl
  · rw [hS.others r' vp hr' hvp] at h0 he
    exact h.unheld (r', vp) ⟨hr', hvp, h0, he⟩
  · obtain ⟨hfree, -⟩ := (hS.pages vp hvp h0).frame
    rw [he] at hfree
    exact hfree h.used

/-- A page of a user half is written. -/
theorem Reserved.rewritten {y : ℕ} {b : ℕ → UInt8} (h : Reserved z₀ z q) (hR : Rewritten z z' (Function.update z.page y b))
    (hy : ∃ c, z.HasFrame c y) : Reserved z₀ z' q := by
  obtain ⟨c, hc⟩ := hy
  refine ⟨?_, fun c' hc' => h.unheld c' (hR.user.hasFrame.1 hc'), ?_⟩
  · unfold Spaces.Used
    rw [hR.user.mem_eq]
    exact h.used
  · have hne : q ≠ y := by
      rintro rfl
      exact h.unheld c hc
    rw [hR.page_eq, Function.update_of_ne hne]
    exact h.page_eq

/-- **Every event leaves the kernel its frames.** -/
theorem Reserved.step (h : Reserved z₀ z q) (hI : Isolated z) (hok : LifeOk z e) (hm : z.lifeStep e = some z') :
    Reserved z₀ z' q := by
  have hE := hI.effect hok hm
  cases e with
  | create =>
    obtain ⟨r, hS, -⟩ := hE
    exact h.made hS
  | load f =>
    rcases hE with rfl | ⟨r, hS⟩
    · exact h
    · exact h.made hS
  | initialise r main =>
    have hr : z.Root r := Or.inr hE.1
    exact h.rewritten hE.2 ⟨_, Isolated.hasFrame hr (by decide) (hI.stackPages r hE.1).1⟩
  | copy r =>
    obtain ⟨-, c, hS, -⟩ := hE
    exact h.made hS
  | forkStack p c =>
    obtain ⟨-, -, hc, hR⟩ := hE
    exact h.rewritten hR ⟨_, Isolated.hasFrame (Or.inr hc) (by decide) (hI.stackPages c hc).2⟩
  | exit r =>
    obtain ⟨hr, -, hD⟩ := hE
    refine ⟨?_, ?_, ?_⟩
    · rcases hD.used q h.used with hu | ⟨vp, hvp, h0, he⟩
      · exact hu
      · exact absurd ⟨Or.inr hr, hvp, h0, he⟩ (h.unheld (r, vp))
    · rintro ⟨r', vp⟩ ⟨hr', hvp, h0, he⟩
      dsimp only at hr' hvp h0 he
      rw [hD.flat_eq hr' vp] at h0 he
      exact h.unheld (r', vp) ⟨((hD.root r').1 hr').1, hvp, h0, he⟩
    · rw [hD.beside.1]
      exact h.page_eq
  | switch r =>
    obtain ⟨-, rfl⟩ := hE
    exact ⟨h.used, h.unheld, h.page_eq⟩
  | store va b =>
    obtain ⟨hvp, h0, -, hR⟩ := hE
    exact h.rewritten hR ⟨_, Isolated.hasFrame hI.cr3 hvp h0⟩

end Nettapus
