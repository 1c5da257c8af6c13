import Nettapus.Proof.HeapFit

/-!
# Bytes between chunks

`divideChunk` records the size of the first part and then aligns the header of the
second part to 16 bytes, so the bytes between the two belong to no chunk unless the
size is 8 modulo 16. `Tiled s`: the free and the live chunks, in address order, follow
each other without a gap from the start of the heap to its end.

* `exists_tile`: disjoint chunks that cover an interval tile it;
* `split_whole_iff`: what a split does to the cover;
* `heap_tiled`: the heap is tiled in every run without a split that leaves a gap, and
  the first such split ends it.
-/

namespace Nettapus

open Bytes Links Runs

variable {s s' : HeapSys} {h : Heap} {F F' G A L : List Chunk} {b c d : Chunk} {n : ℕ}

/-! ## Tilings -/

/-- The chunks of `L` follow each other from `a` to `b`. -/
def Tile : ℕ → List Chunk → ℕ → Prop
  | a, [], b => a = b
  | a, c :: L, b => c.addr = a ∧ Tile c.fin L b

theorem Tile.covered {a b x : ℕ} (h : Tile a L b) (h1 : a ≤ x) (h2 : x < b) : Covered L x := by
  induction L generalizing a with
  | nil =>
    obtain rfl : a = b := h
    omega
  | cons c L ih =>
    obtain ⟨h3, h4⟩ := h
    rw [covered_cons]
    rcases Nat.lt_or_ge x c.fin with hx | hx
    · exact Or.inl ⟨by omega, hx⟩
    · exact Or.inr (ih h4 hx)

/-- Two chunks that follow each other in a tiling touch. -/
theorem Tile.touch {L₁ L₂ : List Chunk} {a e : ℕ} (h : Tile a (L₁ ++ c :: d :: L₂) e) : c.fin = d.addr := by
  induction L₁ generalizing a with
  | nil => exact h.2.1.symm
  | cons b L₁ ih => exact ih h.2

/-- **Disjoint chunks that cover an interval tile it.** -/
theorem exists_tile : ∀ (k : ℕ) (S : List Chunk) (a e : ℕ), S.length = k → a ≤ e →
    (∀ c ∈ S, a ≤ c.addr ∧ c.fin ≤ e) → S.Pairwise Chunk.Apart →
    (∀ x, a ≤ x → x < e → Covered S x) → ∃ L, L.Perm S ∧ Tile a L e := by
  intro k
  -- on the number of chunks: the one that covers the first byte goes to the front
  induction k with
  | zero =>
    intro S a e hk hae _ _ hcov
    obtain rfl := List.length_eq_zero_iff.1 hk
    have : ¬ a < e := fun h => covered_nil (hcov a (Nat.le_refl _) h)
    exact ⟨[], .nil, show a = e by omega⟩
  | succ k ih =>
    intro S a e hk hae hin hap hcov
    have hlt : a < e := by
      obtain ⟨c, hc⟩ := List.exists_mem_of_length_pos (show 0 < S.length by omega)
      have := hin c hc
      unfold Chunk.fin at this; omega
    obtain ⟨c, hc, hca⟩ := hcov a (Nat.le_refl _) hlt
    have hcin := hin c hc
    have hcaddr : c.addr = a := Nat.le_antisymm hca.1 hcin.1
    obtain ⟨S₁, S₂, rfl⟩ := List.append_of_mem hc
    have hperm : (S₁ ++ c :: S₂).Perm (c :: (S₁ ++ S₂)) := List.perm_middle
    have hap' := (hperm.pairwise_iff (fun h => h.symm)).1 hap
    obtain ⟨hcS, hSS⟩ := List.pairwise_cons.1 hap'
    obtain ⟨L, hL, ht⟩ := ih (S₁ ++ S₂) c.fin e (by simp at hk ⊢; omega) hcin.2 (fun d hd => by
        have hd' := hin d (hperm.mem_iff.2 (List.mem_cons_of_mem _ hd))
        have := apart_iff.1 (hcS d hd)
        unfold Chunk.fin at *; omega) hSS (fun x h1 h2 => by
        obtain ⟨d, hd, hdx⟩ := hcov x (by unfold Chunk.fin at h1; omega) h2
        rcases List.mem_cons.1 (hperm.mem_iff.1 hd) with rfl | hd
        · exact absurd hdx.2 (by omega)
        · exact ⟨d, hd, hdx⟩)
    exact ⟨c :: L, (hL.cons c).trans hperm.symm, hcaddr, ht⟩

/-- The free list of a heap is unique. -/
theorem FreeList.unique (hF : FreeList h F) (hG : FreeList h G) : F = G := by
  have ha : addrs F = addrs G :=
    hF.next.unique hG.next hF.null_notMem hG.null_notMem (hF.first_eq.symm.trans hG.first_eq)
  -- the sizes are read from the headers
  have hread : ∀ L, FreeList h L → L = (addrs L).map fun a => ⟨a, get h.mem .size a⟩ := by
    intro L hL
    unfold addrs
    rw [List.map_map]
    conv_lhs => rw [← List.map_id L]
    refine List.map_congr_left fun c hc => ?_
    show c = ⟨c.addr, get h.mem .size c.addr⟩
    rw [hL.size c hc]
  rw [hread F hF, hread G hG, ha]

/-- **The chunks tile the heap**, and neighbours that are free pass the test by which `kfree`
and `mergeChunk` merge chunks. -/
def Tiled (s : HeapSys) : Prop := ∃ F L, FreeList s.heap F ∧ L.Perm (F ++ s.chunks) ∧
  Tile s.heap.start L s.heap.stop ∧
  ∀ L₁ c d L₂, L = L₁ ++ c :: d :: L₂ → c ∈ F → d ∈ F →
    u64 (c.addr + hdrSize + get s.heap.mem .size c.addr) = d.addr

/-- Every byte of the heap is in a chunk. -/
def Whole (F A : List Chunk) : Prop := ∀ x, heapStart ≤ x → x < heapStop → Covered (F ++ A) x

theorem HeapInv.ok (hi : HeapInv h F A) (hc : c ∈ F ++ A) : c.Ok := by
  rcases List.mem_append.1 hc with hc | hc
  · exact hi.okF c hc
  · exact hi.okA c hc

theorem tiled_iff_whole (hr : HeapRep s F A) : Tiled s ↔ Whole F A := by
  have hi := hr.inv
  unfold Tiled
  rw [hr.chunks_eq, hi.start_eq, hi.stop_eq]
  constructor
  · rintro ⟨F', L, hF', hL, ht, -⟩ x h1 h2
    obtain rfl := hF'.unique hi.freeList
    obtain ⟨c, hc, hcx⟩ := ht.covered h1 h2
    exact ⟨c, hL.mem_iff.1 hc, hcx⟩
  · intro hw
    obtain ⟨L, hL, ht⟩ := exists_tile _ (F ++ A) heapStart heapStop rfl (by unfold heapStop; omega)
      (fun c hc => ⟨(hi.ok hc).lo, (hi.ok hc).hi⟩) hi.apart hw
    refine ⟨F, L, hi.freeList, hL, ht, ?_⟩
    rintro L₁ c d L₂ rfl hc -
    have hlt := (hi.okF c hc).addr_lt
    rw [hi.freeList.size c hc]
    unfold hdrSize
    rw [u64_of_lt hlt]
    exact ht.touch

/-- In a tiled heap every size is 8 modulo 16: headers and the heap's end are aligned. -/
theorem Whole.size_mod (hw : Whole F A) (hi : HeapInv h F A) (hc : c ∈ F ++ A) : c.size % 16 = 8 := by
  have hcok := hi.ok hc
  have hmod : c.fin % 16 = 0 := by
    rcases Nat.eq_or_lt_of_le hcok.hi with he | hlt
    · rw [he]
      decide
    · have h1 := hcok.lo
      obtain ⟨d, hd, hdx⟩ := hw c.fin (by unfold Chunk.fin; omega) hlt
      have hcd : c ≠ d := by
        rintro rfl
        exact absurd hdx.2 (Nat.lt_irrefl _)
      have hap : c.Apart d :=
        have : Std.Symm Chunk.Apart := ⟨fun _ _ h => h.symm⟩
        hi.apart.forall hc hd hcd
      have hda := (hi.ok hd).addr_mod
      have h2 := apart_iff.1 hap
      obtain ⟨h3, h4⟩ := hdx
      unfold Chunk.fin at *
      omega
  have := hcok.addr_mod
  unfold Chunk.fin at hmod
  omega

/-! ## What the operations do to the cover -/

/-- The second part ends where the chunk ended. -/
theorem fin_right (hc : c.Ok) (h4 : n % 4 = 0) (h0 : 0 < n) (h48 : n + 48 < c.size) : (c.right n).fin = c.fin := by
  obtain ⟨-, -, -, -, -, -, h7⟩ := divide_arith hc h4 h0 h48
  unfold Chunk.right Chunk.fin at *
  dsimp only
  omega

/-- The second part starts right behind the first one when that place is aligned. -/
theorem left_fin_eq_iff (hc : c.Ok) (h4 : n % 4 = 0) (h0 : 0 < n) (h48 : n + 48 < c.size) :
    (c.left n).fin = (c.right n).addr ↔ divideSize n % 16 = 8 := by
  obtain ⟨-, -, -, -, -, -, h7⟩ := divide_arith hc h4 h0 h48
  have hd3 := (divide_arith hc h4 h0 h48).2.2.1
  have haddr := hc.addr_mod
  have hlt : c.fin < 2 ^ 64 := hc.addr_lt
  have hle := (divide_arith hc h4 h0 h48).2.2.2.2.1
  have hx : c.addr + divideSize n + hdrSize < 2 ^ 64 := by unfold hdrSize; omega
  show c.addr + 24 + divideSize n = divideAddr (divideSize n) c.addr ↔ _
  have he : divideAddr (divideSize n) c.addr = if (c.addr + divideSize n + hdrSize) % 16 ≠ 0 then
      u64 (c.addr + divideSize n + hdrSize + (16 - (c.addr + divideSize n + hdrSize) % 16))
      else c.addr + divideSize n + hdrSize := by
    unfold divideAddr
    dsimp only
    rw [u64_of_lt hx]
  unfold hdrSize at he hx
  split_ifs at he with hz
  · constructor
    · intro h
      rw [← h] at he
      unfold u64 at he
      omega
    · intro h
      omega
  · rw [he]
    omega

/-- **A split keeps every byte in a chunk** exactly when the first part's size is 8 modulo 16. -/
theorem split_whole_iff (hi : HeapInv h (F ++ c :: G) A) (hw : Whole (F ++ c :: G) A) (h4 : n % 4 = 0)
    (h0 : 0 < n) (h48 : n + 48 < c.size) :
    Whole (F ++ c.right n :: G) (c.left n :: A) ↔ divideSize n % 16 = 8 := by
  have hc := hi.okF c (by simp)
  obtain ⟨-, -, -, -, h5, -, h7⟩ := divide_arith hc h4 h0 h48
  have hle : (c.left n).fin ≤ (c.right n).addr := h5
  have hrf := fin_right hc h4 h0 h48
  have hra : (c.right n).addr < c.fin := by
    have : (c.right n).addr = divideAddr (divideSize n) c.addr := rfl
    omega
  rw [← left_fin_eq_iff hc h4 h0 h48]
  constructor
  · intro hw'
    by_contra hne
    have h1 := hc.lo
    have h2 := hc.hi
    have hx : c.Has (c.left n).fin := ⟨by unfold Chunk.fin Chunk.left; dsimp only; omega, by omega⟩
    obtain ⟨d, hd, hdx⟩ := hw' (c.left n).fin (hc.lo.trans hx.1) (by have := hx.2; omega)
    have hap : d ∈ F ++ G → d.Apart c := by
      intro hd
      have hs := hi.sorted
      rcases List.mem_append.1 hd with hd | hd
      · exact hs.apart hd List.mem_cons_self
      · exact (Sorted.apart (F := [c]) (List.pairwise_append.1 hs).2.1 List.mem_cons_self hd).symm
    simp only [List.mem_append, List.mem_cons] at hd hap
    rcases hd with (hd | rfl | hd) | rfl | hd
    · exact hap (Or.inl hd) _ ⟨hdx, hx⟩
    · exact absurd hdx.1 (by omega)
    · exact hap (Or.inr hd) _ ⟨hdx, hx⟩
    · exact absurd hdx.2 (Nat.lt_irrefl _)
    · exact hi.apartF c (by simp) d hd _ ⟨hx, hdx⟩
  · intro he x h1 h2
    obtain ⟨d, hd, hdx⟩ := hw x h1 h2
    simp only [List.mem_append, List.mem_cons] at hd
    rcases hd with (hd | rfl | hd) | hd
    · exact ⟨d, by simp [hd], hdx⟩
    · obtain ⟨h3, h4⟩ := hdx
      rcases Nat.lt_or_ge x (d.left n).fin with hx | hx
      · exact ⟨d.left n, by simp, h3, hx⟩
      · exact ⟨d.right n, by simp, by omega, by omega⟩
    · exact ⟨d, by simp [hd], hdx⟩
    · exact ⟨d, by simp [hd], hdx⟩

/-- Taking a whole chunk moves no byte. -/
theorem take_whole (hw : Whole (F ++ c :: G) A) : Whole (F ++ G) (c :: A) := by
  intro x h1 h2
  have := hw x h1 h2
  simp only [covered_append, covered_cons] at this ⊢
  tauto

/-- The steps that leave no gap: a request fails, or is served with a whole chunk, or with the
first part of a split whose size is 8 modulo 16. -/
def Gapless (s : HeapSys) : HeapOp → Prop
  | .kmalloc n => n = 0 ∨ ∀ F c, FreeList s.heap F → F.find? (fun d => roundUp n ≤ d.size) = some c →
      c.size ≤ roundUp n + 48 ∨ divideSize (roundUp n) % 16 = 8
  | _ => True

/-- The condition, when the free list and the chunk that fits first are known. -/
theorem gapless_kmalloc_iff (hr : HeapRep s F A) (h0 : 0 < n)
    (hf : F.find? (fun d => roundUp n ≤ d.size) = some c) :
    Gapless s (.kmalloc n) ↔ c.size ≤ roundUp n + 48 ∨ divideSize (roundUp n) % 16 = 8 := by
  constructor
  · rintro (rfl | h)
    · omega
    · exact h F c hr.inv.freeList hf
  · intro h
    right
    intro F' c' hF' hf'
    obtain rfl := hF'.unique hr.inv.freeList
    obtain rfl := Option.some.inj (hf.symm.trans hf')
    exact h

/-- No chunk fits, and there is nothing to split. -/
theorem gapless_kmalloc_none (hr : HeapRep s F A) (hf : F.find? (fun d => roundUp n ≤ d.size) = none) :
    Gapless s (.kmalloc n) := by
  right
  intro F' c' hF' hf'
  obtain rfl := hF'.unique hr.inv.freeList
  rw [hf] at hf'
  cases hf'

theorem find?_eq_some (hF : ∀ d ∈ F, d.size < n) (hc : n ≤ c.size) :
    (F ++ c :: G).find? (fun d => n ≤ d.size) = some c := by
  rw [List.find?_eq_some_iff_append]
  refine ⟨by simpa using hc, F, G, rfl, fun d hd => ?_⟩
  simpa using hF d hd

/-- **A request keeps the heap tiled** exactly when it leaves no gap. -/
theorem kmalloc_tiled_iff {p : ℕ} {h' : Heap} (hr : HeapRep s F A) (hw : Whole F A) (h0 : 0 < n)
    (hn : n < 2 ^ 64) (hk : kmalloc s.heap n = some (p, h')) :
    Tiled ⟨h', if p = NULL then s.live else p :: s.live⟩ ↔ Gapless s (.kmalloc n) := by
  have hi := hr.inv
  -- the block that was handed out is the first of the live ones
  have hrep : ∀ {g : Heap} {F' : List Chunk} {c : Chunk}, HeapInv g F' (c :: A) →
      HeapRep ⟨g, if c.addr + 24 = NULL then s.live else (c.addr + 24) :: s.live⟩ F' (c :: A) := by
    intro g F' c hg
    refine ⟨hg, ?_⟩
    rw [if_neg (by unfold NULL; omega), hr.live]
    rfl
  rcases Nat.lt_or_ge (2 ^ 64 - 4) n with hwrap | hle
  · have hz := roundUp_wrap hwrap hn
    rcases kmalloc_wrap hi hwrap hn with ⟨rfl, h1⟩ | ⟨c, G, g, rfl, h1, ht⟩
    · rw [h1, Option.some.injEq, Prod.mk.injEq] at hk
      obtain ⟨rfl, rfl⟩ := hk
      exact iff_of_true ((tiled_iff_whole (s := s) hr).2 hw) (gapless_kmalloc_none hr rfl)
    · rw [h1, Option.some.injEq, Prod.mk.injEq] at hk
      obtain ⟨rfl, rfl⟩ := hk
      have hf : (c :: G).find? (fun d => roundUp n ≤ d.size) = some c := by
        rw [hz]
        simp
      rw [gapless_kmalloc_iff hr h0 hf, hz]
      have hmod : c.size % 16 = 8 := hw.size_mod hi (by simp)
      rcases ht with ⟨h48, hg⟩ | ⟨h52, -⟩ | ⟨h52, hg⟩
      · exact iff_of_true ((tiled_iff_whole (hrep hg)).2 (take_whole (F := []) hw)) (Or.inl h48)
      · omega
      · have hsplit := split_whole_iff (F := []) hi hw (show 4 % 4 = 0 from rfl) (by omega) (by omega)
        refine (tiled_iff_whole (hrep (c := c.left 4) hg)).trans (hsplit.trans ?_)
        have hd : divideSize 4 = divideSize 0 := rfl
        rw [hd]
        omega
  · obtain ⟨r1, r2, -⟩ := roundUp_spec h0 hle
    obtain ⟨q, g, h1, h2⟩ := kmalloc_spec hi h0 hle
    rw [h1, Option.some.injEq, Prod.mk.injEq] at hk
    obtain ⟨rfl, rfl⟩ := hk
    rcases h2 with ⟨rfl, rfl, hsmall⟩ | ⟨F₁, c, G₁, rfl, rfl, hfit, hsmall, ht, -⟩
    · have hf : F.find? (fun d => roundUp n ≤ d.size) = none := by
        rw [List.find?_eq_none]
        intro d hd
        simpa using hsmall d hd
      exact iff_of_true ((tiled_iff_whole (s := s) hr).2 hw) (gapless_kmalloc_none hr hf)
    · rw [gapless_kmalloc_iff hr h0 (find?_eq_some hsmall hfit)]
      rcases ht with ⟨h48, hg⟩ | ⟨h48, hg⟩
      · exact iff_of_true ((tiled_iff_whole (hrep hg)).2 (take_whole hw)) (Or.inl h48)
      · refine (tiled_iff_whole (hrep (c := c.left (roundUp n)) hg)).trans
          ((split_whole_iff hi hw r2 (by omega) h48).trans ?_)
        omega

/-- Freeing a block moves no byte. -/
theorem kfree_tiled {p r : ℕ} {h' : Heap} (hr : HeapRep s F A) (hw : Whole F A) (hp : p = NULL ∨ p ∈ s.live)
    (hk : kfree s.heap p = some (r, h')) : Tiled ⟨h', s.live.erase p⟩ := by
  rcases hp with rfl | hp
  · simp only [kfree, if_true, Option.some.injEq, Prod.mk.injEq] at hk
    obtain ⟨-, rfl⟩ := hk
    rw [List.erase_of_not_mem hr.null_notMem]
    exact (tiled_iff_whole (s := s) hr).2 hw
  · obtain ⟨A₁, c, A₂, rfl, rfl, he⟩ := hr.live_split hp
    obtain ⟨g, F', h1, h2, hcov, -⟩ := kfree_spec hr.inv
    unfold Chunk.data at hk
    rw [h1, Option.some.injEq, Prod.mk.injEq] at hk
    obtain ⟨-, rfl⟩ := hk
    have hr' : HeapRep ⟨g, s.live.erase c.data⟩ F' (A₁ ++ A₂) := ⟨h2, he⟩
    refine (tiled_iff_whole hr').2 fun x hx1 hx2 => ?_
    have := hw x hx1 hx2
    simp only [covered_append, covered_cons, hcov] at this ⊢
    tauto

/-- **One step of a tiled heap** leaves it tiled exactly when it leaves no gap. -/
theorem heapStep_tiled_iff {e : HeapOp} (hr : HeapRep s F A) (ht : Tiled s) (h : heapStep s e = some s') :
    Tiled s' ↔ Gapless s e := by
  have hw := (tiled_iff_whole hr).1 ht
  cases e with
  | kmalloc n =>
    simp only [heapStep] at h
    split_ifs at h with hn
    obtain ⟨⟨p, h'⟩, hk, rfl⟩ := Option.map_eq_some_iff.1 h
    rcases Nat.eq_zero_or_pos n with rfl | h0
    · simp only [kmalloc, if_true, Option.some.injEq, Prod.mk.injEq] at hk
      obtain ⟨rfl, rfl⟩ := hk
      exact iff_of_true ht (Or.inl rfl)
    · exact kmalloc_tiled_iff hr hw h0 hn hk
  | kfree p =>
    simp only [heapStep] at h
    split_ifs at h with hp
    obtain ⟨⟨r, h'⟩, hk, rfl⟩ := Option.map_eq_some_iff.1 h
    exact iff_of_true (kfree_tiled hr hw hp hk) trivial
  | write p x v =>
    simp only [heapStep] at h
    split_ifs at h with hp
    obtain rfl := Option.some.inj h
    exact iff_of_true ((tiled_iff_whole (write_rep hr hp.1 hp.2.1 hp.2.2)).2 hw) trivial

/-- A fresh heap is one chunk. -/
theorem newHeap_tiled (h : Heap) : Tiled ⟨(initHeap 0 h).2, []⟩ :=
  (tiled_iff_whole (initHeap_rep h)).2 fun _ h1 h2 => ⟨_, List.mem_singleton.2 rfl, h1, h2⟩

/-- **When the chunks tile the heap.** In every run whose requests leave no gap the chunks
tile the heap in every state reached; and from there any operation keeps the heap
tiled exactly when it leaves no gap. -/
theorem heap_tiled (hs : Reach NewHeap heapStep Gapless s) :
    Tiled s ∧ ∀ e s', heapStep s e = some s' → (Tiled s' ↔ Gapless s e) := by
  have ht : Tiled s ∧ ∃ F A, HeapRep s F A := by
    refine hs.inv (I := fun s => Tiled s ∧ ∃ F A, HeapRep s F A) ?_ ?_
    · rintro s ⟨h, rfl⟩
      exact ⟨newHeap_tiled h, _, _, initHeap_rep h⟩
    · rintro s e s' ⟨ht, F, A, hr⟩ hok h
      exact ⟨(heapStep_tiled_iff hr ht h).2 hok, heapStep_rep hr h⟩
  obtain ⟨ht, F, A, hr⟩ := ht
  exact ⟨ht, fun e s' h => heapStep_tiled_iff hr ht h⟩

/-- A request of 24 bytes on a fresh heap, as a case of `heap_tiled`. -/
theorem heap_tiled_kmalloc : ∃ s : HeapSys, Reach NewHeap heapStep Gapless s ∧ s.live = [heapStart + 24] ∧
    Tiled s := by
  have hk : (kmalloc clearedHeap 24).map (·.1) = some (heapStart + 24) := by decide +kernel
  obtain ⟨⟨p, h⟩, hm, rfl⟩ := Option.map_eq_some_iff.1 hk
  have hstep : heapStep ⟨clearedHeap, []⟩ (.kmalloc 24) = some ⟨h, [heapStart + 24]⟩ := by
    simp only [heapStep, hm]
    rfl
  have hgap : Gapless ⟨clearedHeap, []⟩ (.kmalloc 24) := Or.inr fun _ _ _ _ => Or.inr (by decide)
  have hs : Reach NewHeap heapStep Gapless ⟨h, [heapStart + 24]⟩ := .step (.init ⟨_, rfl⟩) hgap hstep
  exact ⟨_, hs, rfl, (heap_tiled hs).1⟩

/-- A request of 100 bytes on a fresh heap: the second header is 128 bytes behind the
first, and four bytes are in no chunk. -/
theorem heap_not_tiled : ∃ s : HeapSys, Reach NewHeap heapStep Any s ∧
    get s.heap.mem .size heapStart = 100 ∧ s.heap.firstFree = heapStart + 128 ∧ ¬ Tiled s := by
  have hk : (kmalloc clearedHeap 100).map (fun r => (r.1, get r.2.mem .size heapStart, r.2.firstFree)) =
      some (heapStart + 24, 100, heapStart + 128) := by decide +kernel
  obtain ⟨⟨p, h⟩, hm, hp⟩ := Option.map_eq_some_iff.1 hk
  simp only [Prod.mk.injEq] at hp
  obtain ⟨rfl, hsize, hfirst⟩ := hp
  have hstep : heapStep ⟨clearedHeap, []⟩ (.kmalloc 100) = some ⟨h, [heapStart + 24]⟩ := by
    simp only [heapStep, hm]
    rfl
  have hr : HeapRep ⟨clearedHeap, []⟩ [⟨heapStart, 0x100000 - 24⟩] [] := initHeap_rep _
  refine ⟨_, .step (.init ⟨_, rfl⟩) trivial hstep, hsize, hfirst, ?_⟩
  rw [heapStep_tiled_iff hr (newHeap_tiled _) hstep, gapless_kmalloc_iff hr (by decide) rfl]
  decide

end Nettapus
