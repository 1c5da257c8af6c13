import Nettapus.Proof.HeapRun
import Nettapus.Lib.Runs

/-!
# First fit at both ends of the request range

`HeapRun` has the runs whose requests do not wrap when `kmalloc` rounds them up to a
multiple of four. Here a run may ask for any 64-bit number of bytes (`heapStep`). A
request of more than `2 ^ 64 - 4` bytes is rounded to zero, and takes the first free
chunk (`kmalloc_wrap`): whole, or split, or, when the chunk has 52 bytes, with
`divideChunk` failing and `first_free` set to `NULL`. The chunks stay disjoint and in
bounds all the same (`heapReach_rep`).

`kmalloc_fits_iff`: a request is served as first fit promises unless it wraps while
there is a free chunk.
-/

namespace Nettapus

open Bytes Links Runs

/-- The operations on the heap, and the writes of the owners of blocks. -/
inductive HeapOp
  | kmalloc (bytes : ℕ)
  | kfree (ptr : ℕ)
  | write (ptr x : ℕ) (v : UInt8)

/-- One operation. A request is a `uint64_t`; a `kfree` is of a live block or of `NULL`; a
write is inside a live block. -/
def heapStep (s : HeapSys) : HeapOp → Option HeapSys
  | .kmalloc n =>
    if n < 2 ^ 64 then
      (kmalloc s.heap n).map fun r => ⟨r.2, if r.1 = NULL then s.live else r.1 :: s.live⟩
    else none
  | .kfree p =>
    if p = NULL ∨ p ∈ s.live then (kfree s.heap p).map fun r => ⟨r.2, s.live.erase p⟩ else none
  | .write p x v =>
    if p ∈ s.live ∧ p ≤ x ∧ x < p + (chunkOf s.heap.mem p).size then
      some ⟨{ s.heap with mem := Function.update s.heap.mem x v }, s.live⟩
    else none

/-- A heap that `init_heap` has just built. -/
def NewHeap (s : HeapSys) : Prop := ∃ h, s = ⟨(initHeap 0 h).2, []⟩

variable {s s' : HeapSys} {h : Heap} {F G A : List Chunk} {c : Chunk} {n : ℕ}

/-! ## Requests that wrap -/

theorem roundUp_wrap (hn : 2 ^ 64 - 4 < n) (hn' : n < 2 ^ 64) : roundUp n = 0 := by
  unfold roundUp u64
  rw [if_pos (by omega)]
  omega

/-- A free list that nothing points to any more. -/
theorem HeapInv.lose (hi : HeapInv h F A) : HeapInv { h with firstFree := NULL } [] A :=
  ⟨hi.start_eq, hi.stop_eq, rfl, run_nil, List.Pairwise.nil, hi.live, by simp, hi.okA, by simp, hi.apartA⟩

/-- What a request that wraps did with the first chunk `c` of the list `c :: G`. -/
def FirstTaken (c : Chunk) (G A : List Chunk) (h' : Heap) : Prop :=
  (c.size ≤ 48 ∧ HeapInv h' G (c :: A)) ∨ (c.size = 52 ∧ HeapInv h' [] (c :: A)) ∨
    (52 < c.size ∧ HeapInv h' (c.right 4 :: G) (c.left 4 :: A))

/-- `divideChunk` raises a size of zero to 16, as it does with four. -/
theorem divideChunk_zero (m : Mem) (a : ℕ) : divideChunk m 0 a = divideChunk m 4 a := rfl

/-- A chunk of 52 bytes cannot be split. -/
theorem divideChunk_fails {m : Mem} (hc : c.Ok) (hsize : get m .size c.addr = c.size) (h52 : c.size = 52) :
    divideChunk m 0 c.addr = (NULL, m) := by
  unfold divideChunk
  rw [if_neg hc.ne_null]
  dsimp only
  rw [if_pos]
  rw [hsize, h52]
  decide

/-- **A request that wraps** is served with the first free chunk, whatever its size. -/
theorem kmalloc_wrap (hi : HeapInv h F A) (hn : 2 ^ 64 - 4 < n) (hn' : n < 2 ^ 64) :
    (F = [] ∧ kmalloc h n = some (NULL, h)) ∨
      ∃ c G h', F = c :: G ∧ kmalloc h n = some (c.addr + 24, h') ∧ FirstTaken c G A h' := by
  have hfuel : ∃ k, h.bound = k + 1 := ⟨h.bound - 1, by have := hi.length_lt; omega⟩
  obtain ⟨fuel, hfuel⟩ := hfuel
  unfold kmalloc
  rw [if_neg (by omega), roundUp_wrap hn hn', hfuel, hi.first_eq]
  cases F with
  | nil => exact Or.inl ⟨rfl, by simp [kmallocLoop]⟩
  | cons c G =>
    right
    have hc := hi.okF c List.mem_cons_self
    have hfirst : h.firstFree = c.addr := hi.first_eq
    have hrun := hi.run
    rw [run_cons] at hrun
    obtain ⟨⟨-, -, hsize⟩, -⟩ := hrun
    have hp : u64 (c.addr + hdrSize) = c.addr + 24 := by
      have := hc.addr_lt
      unfold hdrSize
      exact u64_of_lt (by omega)
    have hmod := hc.size_mod
    obtain ⟨ht, -⟩ := HeapInv.take (F := []) hi
    rw [addrs_cons, front_cons]
    simp only [kmallocLoop, if_neg hc.ne_null, hsize, hp, Nat.not_lt_zero, if_false, Nat.sub_zero]
    by_cases hz : c.size = 0
    · rw [if_pos hz]
      exact ⟨c, G, _, rfl, rfl, Or.inl ⟨by omega, ht⟩⟩
    rw [if_neg hz]
    by_cases h48 : c.size > 48
    · rw [if_pos h48]
      refine ⟨c, G, _, rfl, rfl, Or.inr ?_⟩
      rw [if_pos hfirst.symm]
      rcases Nat.eq_or_lt_of_le (show 52 ≤ c.size by omega) with h52 | h52
      · -- the split fails, and `first_free` becomes its result
        left
        rw [divideChunk_fails hc hsize h52.symm]
        exact ⟨h52.symm, ht.lose⟩
      · right
        have hs := HeapInv.split (F := []) hi (show 4 % 4 = 0 from rfl) (by omega) (by omega)
        obtain ⟨ht', -⟩ := HeapInv.take (F := []) hs
        have hd := (divideChunk_run (F := []) hi.run hi.sorted hi.okF (show 4 % 4 = 0 from rfl) (by omega)
          (by omega)).1
        have hnext : get (divideChunk h.mem 4 c.addr).2 .next (c.left 4).addr = (c.right 4).addr := by
          have hr := hs.run
          rw [List.nil_append, run_cons] at hr
          exact hr.1.1
        have hla : (c.left 4).addr = h.firstFree := hfirst.symm
        rw [if_pos hla, hnext] at ht'
        rw [divideChunk_zero, hd]
        exact ⟨h52, ht'⟩
    · rw [if_neg h48]
      exact ⟨c, G, _, rfl, rfl, Or.inl ⟨by omega, ht⟩⟩

/-! ## Runs -/

theorem kmalloc_rep_wrap {p : ℕ} {h' : Heap} (hr : HeapRep s F A) (hn : 2 ^ 64 - 4 < n) (hn' : n < 2 ^ 64)
    (hk : kmalloc s.heap n = some (p, h')) :
    ∃ F' A', HeapRep ⟨h', if p = NULL then s.live else p :: s.live⟩ F' A' := by
  rcases kmalloc_wrap hr.inv hn hn' with ⟨-, h1⟩ | ⟨c, G, g, -, h1, ht⟩
  · rw [h1, Option.some.injEq, Prod.mk.injEq] at hk
    obtain ⟨rfl, rfl⟩ := hk
    exact ⟨F, A, by simpa using hr⟩
  · rw [h1, Option.some.injEq, Prod.mk.injEq] at hk
    obtain ⟨rfl, rfl⟩ := hk
    have hne : c.addr + 24 ≠ NULL := by unfold NULL; omega
    rw [if_neg hne]
    rcases ht with ⟨-, hi⟩ | ⟨-, hi⟩ | ⟨-, hi⟩
    · exact ⟨_, _, hi, by rw [hr.live]; rfl⟩
    · exact ⟨_, _, hi, by rw [hr.live]; rfl⟩
    · exact ⟨_, _, hi, by rw [hr.live]; rfl⟩

theorem heapStep_rep {e : HeapOp} (hr : HeapRep s F A) (h : heapStep s e = some s') :
    ∃ F' A', HeapRep s' F' A' := by
  cases e with
  | kmalloc n =>
    simp only [heapStep] at h
    split_ifs at h with hn
    obtain ⟨⟨p, h'⟩, hk, rfl⟩ := Option.map_eq_some_iff.1 h
    rcases Nat.lt_or_ge (2 ^ 64 - 4) n with hw | hw
    · exact kmalloc_rep_wrap hr hw hn hk
    · exact kmalloc_rep hr hw hk
  | kfree p =>
    simp only [heapStep] at h
    split_ifs at h with hp
    obtain ⟨⟨r, h'⟩, hk, rfl⟩ := Option.map_eq_some_iff.1 h
    exact kfree_rep hr hp hk
  | write p x v =>
    simp only [heapStep] at h
    split_ifs at h with hp
    obtain rfl := Option.some.inj h
    exact ⟨F, A, write_rep hr hp.1 hp.2.1 hp.2.2⟩

/-- **Every state reached has the representation**, whatever the requests were. -/
theorem heapReach_rep {ok : HeapSys → HeapOp → Prop} (hs : Reach NewHeap heapStep ok s) :
    ∃ F A, HeapRep s F A := by
  refine hs.inv (I := fun s => ∃ F A, HeapRep s F A) ?_ ?_
  · rintro s ⟨h, rfl⟩
    exact ⟨_, _, initHeap_rep h⟩
  · rintro s e s' ⟨F, A, hr⟩ - h
    exact heapStep_rep hr h

/-! ## First fit -/

/-- What first fit promises of a request of `n` bytes, with `F` the free chunks: `NULL`
exactly when no free chunk has `n` bytes, and else the data of the lowest one that has
them, with a recorded size that is enough. -/
def FirstFit (h : Heap) (F : List Chunk) (n : ℕ) : Prop :=
  ∃ p h', kmalloc h n = some (p, h') ∧ (p = NULL ↔ ∀ d ∈ F, d.size < n) ∧
    (p ≠ NULL → ∃ c ∈ F, p = c.data ∧ n ≤ c.size ∧ (∀ d ∈ F, n ≤ d.size → c.addr ≤ d.addr) ∧
      n ≤ get h'.mem .size c.addr)

/-- A size is a multiple of four: it is enough for the request when it is for the rounded one. -/
theorem size_lt_roundUp (hc : c.Ok) (h0 : 0 < n) (hn : n ≤ 2 ^ 64 - 4) :
    c.size < roundUp n ↔ c.size < n := by
  obtain ⟨h1, h2, h3⟩ := roundUp_spec h0 hn
  have := hc.size_mod
  omega

/-- The recorded size of the chunk that a request took. -/
theorem Taken.size_ge {h' : Heap} (ht : Taken n F c G A h') (hc : c.Ok) (h4 : n % 4 = 0) (h0 : 0 < n)
    (hle : n ≤ c.size) : n ≤ get h'.mem .size c.addr := by
  rcases ht with ⟨-, hi⟩ | ⟨h48, hi⟩
  · rw [(run_single.1 (hi.live c List.mem_cons_self)).2.2]
    exact hle
  · have hsize : get h'.mem .size c.addr = divideSize n :=
      (run_single.1 (hi.live (c.left n) List.mem_cons_self)).2.2
    rw [hsize]
    exact (divide_arith hc h4 h0 h48).1

/-- A request that does not wrap is first fit. -/
theorem firstFit_of_le (hi : HeapInv h F A) (h0 : 0 < n) (hn : n ≤ 2 ^ 64 - 4) : FirstFit h F n := by
  obtain ⟨p, h', hk, hp⟩ := kmalloc_spec hi h0 hn
  obtain ⟨r1, r2, -⟩ := roundUp_spec h0 hn
  refine ⟨p, h', hk, ?_⟩
  rcases hp with ⟨rfl, -, hsmall⟩ | ⟨F₁, c, G₁, rfl, rfl, hle, hsmall, ht, -⟩
  · have hall : ∀ d ∈ F, d.size < n := fun d hd => (size_lt_roundUp (hi.okF d hd) h0 hn).1 (hsmall d hd)
    exact ⟨⟨fun _ => hall, fun _ => rfl⟩, fun hne => absurd rfl hne⟩
  · have hcF : c ∈ F₁ ++ c :: G₁ := by simp
    have hc := hi.okF c hcF
    have hne : c.addr + 24 ≠ NULL := by unfold NULL; omega
    have hcn : n ≤ c.size := by omega
    refine ⟨⟨fun h => absurd h hne, fun hall => ?_⟩, fun _ => ⟨c, hcF, rfl, hcn, ?_, ?_⟩⟩
    · have := hall c hcF
      omega
    · -- the chunks before it are too small, those behind it are higher up
      intro d hd hdn
      rcases List.mem_append.1 hd with hd' | hd'
      · have := (size_lt_roundUp (hi.okF d hd) h0 hn).1 (hsmall d hd')
        omega
      · rcases List.mem_cons.1 hd' with rfl | hd'
        · exact Nat.le_refl _
        · have := (List.pairwise_cons.1 (List.pairwise_append.1 hi.sorted).2.1).1 d hd'
          unfold Chunk.fin at this; omega
    · exact r1.trans (ht.size_ge hc r2 (by omega) hle)

/-- A request that wraps is first fit when there is nothing to take. -/
theorem firstFit_wrap_iff (hi : HeapInv h F A) (hn : 2 ^ 64 - 4 < n) (hn' : n < 2 ^ 64) :
    FirstFit h F n ↔ F = [] := by
  have hsmall : ∀ d ∈ F, d.size < n := fun d hd => by
    have := (hi.okF d hd).size_lt
    omega
  constructor
  · rintro ⟨p, h', hk, hp, -⟩
    rcases kmalloc_wrap hi hn hn' with ⟨hF, -⟩ | ⟨c, G, g, -, h1, -⟩
    · exact hF
    · rw [h1, Option.some.injEq, Prod.mk.injEq] at hk
      have := hp.2 hsmall
      unfold NULL at this
      omega
  · rintro rfl
    rcases kmalloc_wrap hi hn hn' with ⟨-, h1⟩ | ⟨c, G, g, hF, -⟩
    · exact ⟨NULL, h, h1, ⟨fun _ => hsmall, fun _ => rfl⟩, fun hne => absurd rfl hne⟩
    · cases hF

/-- **When `kmalloc` is first fit.** In every state that heap operations lead to, a request
of `n` bytes is served as first fit promises exactly when it does not wrap or the free
list is empty. -/
theorem kmalloc_firstFit_iff (hs : Reach NewHeap heapStep Any s) : ∃ F : List Chunk,
    FreeList s.heap F ∧ ∀ n, 0 < n → n < 2 ^ 64 →
      (FirstFit s.heap F n ↔ n ≤ 2 ^ 64 - 4 ∨ s.heap.firstFree = NULL) := by
  obtain ⟨F, A, hr⟩ := heapReach_rep hs
  have hi := hr.inv
  have hnil : s.heap.firstFree = NULL ↔ F = [] := by
    rw [hi.first_eq]
    cases F with
    | nil => simp
    | cons c F => simpa using (hi.okF c List.mem_cons_self).ne_null
  refine ⟨F, hi.freeList, fun n h0 hn' => ?_⟩
  rcases Nat.lt_or_ge (2 ^ 64 - 4) n with hw | hw
  · rw [firstFit_wrap_iff hi hw hn', hnil, or_iff_right (by omega)]
  · have := firstFit_of_le hi h0 hw
    tauto

/-- A fresh heap, as a case of `kmalloc_firstFit_iff`: it serves 100 bytes as promised. -/
theorem kmalloc_firstFit_fresh : ∃ F : List Chunk, FreeList clearedHeap F ∧ FirstFit clearedHeap F 100 := by
  have hs : Reach NewHeap heapStep Any ⟨clearedHeap, []⟩ := .init ⟨_, rfl⟩
  obtain ⟨F, h1, h2⟩ := kmalloc_firstFit_iff hs
  exact ⟨F, h1, (h2 100 (by decide) (by decide)).2 (Or.inl (by decide))⟩

/-- A request of `2 ^ 64 - 1` bytes on a fresh heap is answered with a block of 16 bytes. -/
theorem kmalloc_not_firstFit : ∃ s : HeapSys, Reach NewHeap heapStep Any s ∧
    (kmalloc s.heap (2 ^ 64 - 1)).map (fun r => (r.1, get r.2.mem .size (r.1 - 24))) =
      some (heapStart + 24, 16) ∧
    ∃ F : List Chunk, FreeList s.heap F ∧ ¬ FirstFit s.heap F (2 ^ 64 - 1) := by
  have hi : HeapInv clearedHeap [⟨heapStart, 0x100000 - 24⟩] [] := (initHeap_rep _).inv
  refine ⟨⟨clearedHeap, []⟩, .init ⟨_, rfl⟩, by decide +kernel, _, hi.freeList, ?_⟩
  rw [firstFit_wrap_iff hi (by decide) (by decide)]
  simp

end Nettapus
