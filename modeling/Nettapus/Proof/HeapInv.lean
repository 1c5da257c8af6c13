import Nettapus.Proof.HeapOps

/-!
# The heap invariant

`HeapInv h F A`: the free list of `h` is `F`, in address order, and `A` are the live
chunks; every chunk is inside the heap and aligned, and no two chunks share a byte.

* `kmalloc_spec`: a request returns, and takes the first free chunk that fits, whole or
  split;
* `kfree_spec`: freeing a live chunk returns success, and the free chunks then cover
  their old bytes and those of the chunk.

Both write only inside the free chunks (and the header of the chunk that is freed).
-/

namespace Nettapus

open Bytes Links

/-- Two chunks share no byte. -/
def Chunk.Apart (b c : Chunk) : Prop := ∀ x, ¬ (b.Has x ∧ c.Has x)

/-- The byte at `x` is in one of the chunks of `F`. -/
def Covered (F : List Chunk) (x : ℕ) : Prop := ∃ c ∈ F, c.Has x

/-- The free chunks `F`, linked from `first_free`, and the live chunks `A`, whose links
are `NULL`. -/
structure HeapInv (h : Heap) (F A : List Chunk) : Prop where
  start_eq : h.start = heapStart
  stop_eq : h.stop = heapStop
  first_eq : h.firstFree = front (addrs F) NULL
  run : Run h.mem NULL F NULL
  sorted : Sorted F
  live : ∀ c ∈ A, Run h.mem NULL [c] NULL
  okF : ∀ c ∈ F, c.Ok
  okA : ∀ c ∈ A, c.Ok
  apartF : ∀ b ∈ F, ∀ c ∈ A, b.Apart c
  apartA : A.Pairwise Chunk.Apart

variable {m m' : Mem} {h : Heap} {F G A : List Chunk} {b c i j : Chunk}

theorem apart_iff : b.Apart c ↔ b.fin ≤ c.addr ∨ c.fin ≤ b.addr := by
  unfold Chunk.Apart Chunk.Has Chunk.fin
  constructor
  · intro hx
    by_contra hn
    exact hx (max b.addr c.addr) (by omega)
  · intro h x
    omega

theorem Chunk.Apart.symm (h : b.Apart c) : c.Apart b := fun x hx => h x hx.symm

theorem Chunk.Apart.far (h : b.Apart c) : Far b.addr c.addr := by
  rw [apart_iff] at h
  unfold Chunk.fin at h
  unfold Far; omega

theorem Sorted.apart {F G : List Chunk} (hs : Sorted (F ++ G)) (hb : b ∈ F) (hc : c ∈ G) :
    b.Apart c :=
  apart_iff.2 (Or.inl ((List.pairwise_append.1 hs).2.2 b hb c hc))

@[simp] theorem covered_append {x : ℕ} : Covered (F ++ G) x ↔ Covered F x ∨ Covered G x := by
  simp only [Covered, List.mem_append, or_and_right, exists_or]

@[simp] theorem covered_cons {x : ℕ} : Covered (c :: F) x ↔ c.Has x ∨ Covered F x := by
  simp only [Covered, List.mem_cons, exists_eq_or_imp]

@[simp] theorem covered_nil {x : ℕ} : ¬ Covered [] x := by simp [Covered]

/-- A chunk is apart from `c` when all its bytes are covered by chunks apart from `c`. -/
theorem apart_of_covered (hb : ∀ x, b.Has x → Covered F x) (hF : ∀ d ∈ F, d.Apart c) :
    b.Apart c := by
  rintro x ⟨hx, hcx⟩
  obtain ⟨d, hd, hdx⟩ := hb x hx
  exact hF d hd x ⟨hdx, hcx⟩

/-- Writes inside chunks apart from `c` leave the header of `c` alone. -/
theorem Agree.get_eq (ha : Agree F m m') (hF : ∀ d ∈ F, d.Apart c) (f : Field) :
    get m' f c.addr = get m f c.addr := by
  apply get_congr
  intro x h1 h2
  apply ha
  intro d hd hdx
  exact hF d hd x ⟨hdx, h1, by unfold Chunk.fin; omega⟩

theorem Agree.live (ha : Agree F m m') (hF : ∀ d ∈ F, d.Apart c) (h : Run m NULL [c] NULL) :
    Run m' NULL [c] NULL := by
  refine h.congr fun d hd f => ?_
  obtain rfl := List.mem_singleton.1 hd
  exact ha.get_eq hF f

/-- Sorted chunks are not more than fit. -/
theorem Sorted.length_le : ∀ {F : List Chunk} {lo hi : ℕ}, Sorted F →
    (∀ c ∈ F, lo ≤ c.addr ∧ c.fin ≤ hi) → lo ≤ hi → lo + 24 * F.length ≤ hi := by
  intro F
  induction F with
  | nil => intro lo hi _ _ h; simpa using h
  | cons c F ih =>
    intro lo hi hs hc _
    obtain ⟨h1, h2⟩ := hc c List.mem_cons_self
    have : c.fin + 24 * F.length ≤ hi := ih (List.pairwise_cons.1 hs).2
      (fun d hd => ⟨(List.pairwise_cons.1 hs).1 d hd, (hc d (List.mem_cons_of_mem _ hd)).2⟩) h2
    unfold Chunk.fin at this
    simp only [List.length_cons]
    omega

/-- The loops' bound is more than the number of free chunks. -/
theorem HeapInv.length_lt (hi : HeapInv h F A) : F.length < h.bound := by
  have := hi.sorted.length_le (fun c hc => ⟨(hi.okF c hc).lo, (hi.okF c hc).hi⟩)
    (by unfold heapStop; omega)
  unfold Heap.bound hdrSize
  rw [hi.start_eq, hi.stop_eq]
  unfold heapStop at *
  omega

/-! ## Requests -/

theorem roundUp_spec {n : ℕ} (h0 : 0 < n) (hn : n ≤ 2 ^ 64 - 4) :
    n ≤ roundUp n ∧ roundUp n % 4 = 0 ∧ roundUp n < n + 4 := by
  unfold roundUp
  split
  · rw [u64_of_lt (by omega)]; omega
  · omega

/-- Taking a whole free chunk. -/
theorem HeapInv.take (hi : HeapInv h (F ++ c :: G) A) :
    HeapInv { h with
      mem := (unlink h.mem c.addr).2
      firstFree := if c.addr = h.firstFree then get h.mem .next c.addr else h.firstFree }
      (F ++ G) (c :: A) ∧ Agree (F ++ c :: G) h.mem (unlink h.mem c.addr).2 := by
  obtain ⟨h1, h2, h3⟩ := unlink_run hi.run hi.sorted hi.okF
  have hmem : ∀ d, d ∈ F ++ G → d ∈ F ++ c :: G := by
    intro d hd
    rcases List.mem_append.1 hd with hd | hd <;> simp [hd]
  have hapart : ∀ d ∈ F ++ G, d.Apart c := by
    intro d hd
    have hs := hi.sorted
    rcases List.mem_append.1 hd with hd | hd
    · exact hs.apart hd List.mem_cons_self
    · exact (Sorted.apart (F := [c]) (List.pairwise_append.1 hs).2.1 List.mem_cons_self hd).symm
  refine ⟨⟨hi.start_eq, hi.stop_eq, ?_, h1, ?_, ?_, fun d hd => hi.okF d (hmem d hd), ?_, ?_, ?_⟩, h3⟩
  · -- `first_free` moves on exactly when the chunk was the first one
    dsimp only
    rw [hi.first_eq]
    have hrun := hi.run
    rw [run_append, run_cons] at hrun
    rw [hrun.2.1.1]
    cases F with
    | nil => simp
    | cons b F =>
      have hlt := hi.sorted
      have := (List.pairwise_cons.1 hlt).1 c (by simp)
      rw [if_neg (by simp only [List.cons_append, addrs_cons, front_cons]; unfold Chunk.fin at this; omega)]
      simp
  · exact hi.sorted.sublist (List.Sublist.append_left (List.sublist_cons_self c G) F)
  · intro d hd
    rcases List.mem_cons.1 hd with rfl | hd
    · exact h2
    · exact h3.live (fun b hb => hi.apartF b hb d hd) (hi.live d hd)
  · intro d hd
    rcases List.mem_cons.1 hd with rfl | hd
    · exact hi.okF d (by simp)
    · exact hi.okA d hd
  · intro b hb d hd
    rcases List.mem_cons.1 hd with rfl | hd
    · exact hapart b hb
    · exact hi.apartF b (hmem b hb) d hd
  · exact List.pairwise_cons.2 ⟨fun d hd => hi.apartF c (by simp) d hd, hi.apartA⟩

theorem left_covered {n : ℕ} (hc : c.Ok) (h4 : n % 4 = 0) (h0 : 0 < n) (h48 : n + 48 < c.size) :
    ∀ x, (c.left n).Has x → c.Has x := by
  obtain ⟨-, -, -, -, h5, -, h7⟩ := divide_arith hc h4 h0 h48
  intro x hx
  unfold Chunk.Has Chunk.left Chunk.fin at *
  dsimp only at hx
  omega

theorem right_covered {n : ℕ} (hc : c.Ok) (h4 : n % 4 = 0) (h0 : 0 < n) (h48 : n + 48 < c.size) :
    ∀ x, (c.right n).Has x → c.Has x := by
  obtain ⟨-, -, -, -, h5, -, h7⟩ := divide_arith hc h4 h0 h48
  intro x hx
  unfold Chunk.Has Chunk.right Chunk.fin at *
  dsimp only at hx
  omega

/-- Splitting keeps the list sorted. -/
theorem Sorted.split {n : ℕ} (hs : Sorted (F ++ c :: G)) (hc : c.Ok) (h4 : n % 4 = 0) (h0 : 0 < n)
    (h48 : n + 48 < c.size) : Sorted (F ++ c.left n :: c.right n :: G) := by
  obtain ⟨-, -, -, -, h5, -, h7⟩ := divide_arith hc h4 h0 h48
  obtain ⟨hF, hcG, hFc⟩ := List.pairwise_append.1 hs
  obtain ⟨hc1, hG⟩ := List.pairwise_cons.1 hcG
  have hfin : (c.right n).fin = c.fin := by unfold Chunk.right Chunk.fin at *; dsimp only; omega
  have hlr : (c.left n).fin ≤ (c.right n).addr := h5
  refine List.pairwise_append.2 ⟨hF, ?_, ?_⟩
  · refine List.pairwise_cons.2 ⟨?_, List.pairwise_cons.2 ⟨?_, hG⟩⟩
    · intro d hd
      rcases List.mem_cons.1 hd with rfl | hd
      · exact hlr
      · have := hc1 d hd
        have hra : (c.right n).addr ≤ (c.right n).fin := by unfold Chunk.fin; omega
        omega
    · intro d hd
      rw [hfin]
      exact hc1 d hd
  · intro b hb d hd
    have hbc := hFc b hb c List.mem_cons_self
    have hla : (c.left n).addr = c.addr := rfl
    have hlf : (c.left n).addr ≤ (c.left n).fin := by unfold Chunk.fin; omega
    rcases List.mem_cons.1 hd with rfl | hd
    · omega
    · rcases List.mem_cons.1 hd with rfl | hd
      · omega
      · exact hFc b hb d (List.mem_cons_of_mem _ hd)

/-- The two parts of a split are in the chunk. -/
theorem split_covered {n : ℕ} (hc : c.Ok) (h4 : n % 4 = 0) (h0 : 0 < n) (h48 : n + 48 < c.size) :
    ∀ b ∈ F ++ c.left n :: c.right n :: G, ∀ x, b.Has x → Covered (F ++ c :: G) x := by
  intro b hb x hx
  simp only [List.mem_append, List.mem_cons] at hb
  rcases hb with hb | rfl | rfl | hb
  · exact ⟨b, by simp [hb], hx⟩
  · exact ⟨c, by simp, left_covered hc h4 h0 h48 x hx⟩
  · exact ⟨c, by simp, right_covered hc h4 h0 h48 x hx⟩
  · exact ⟨b, by simp [hb], hx⟩

/-- **The heap after the split of a free chunk** is a heap with the two parts free. -/
theorem HeapInv.split {n : ℕ} (hi : HeapInv h (F ++ c :: G) A) (h4 : n % 4 = 0) (h0 : 0 < n)
    (h48 : n + 48 < c.size) :
    HeapInv { h with mem := (divideChunk h.mem n c.addr).2 } (F ++ c.left n :: c.right n :: G) A := by
  obtain ⟨-, h2, h3⟩ := divideChunk_run hi.run hi.sorted hi.okF h4 h0 h48
  have hc := hi.okF c (by simp)
  have hcov : ∀ b ∈ F ++ c.left n :: c.right n :: G, ∀ x, b.Has x → Covered (F ++ c :: G) x :=
    split_covered hc h4 h0 h48
  refine ⟨hi.start_eq, hi.stop_eq, ?_, h2, hi.sorted.split hc h4 h0 h48, ?_, ?_, hi.okA, ?_, hi.apartA⟩
  · rw [hi.first_eq]
    simp [Chunk.left]
  · exact fun d hd => h3.live (fun b hb => hi.apartF b hb d hd) (hi.live d hd)
  · intro b hb
    simp only [List.mem_append, List.mem_cons] at hb
    rcases hb with hb | rfl | rfl | hb
    · exact hi.okF b (by simp [hb])
    · exact hc.left h4 h0 h48
    · exact hc.right h4 h0 h48
    · exact hi.okF b (by simp [hb])
  · exact fun b hb d hd => apart_of_covered (hcov b hb) fun e he => hi.apartF e he d hd

/-- What a successful request did: the chunk `c` was taken from between `F` and `G`,
whole when it was not more than 48 bytes too large, split otherwise. -/
def Taken (n : ℕ) (F : List Chunk) (c : Chunk) (G A : List Chunk) (h' : Heap) : Prop :=
  (c.size ≤ n + 48 ∧ HeapInv h' (F ++ G) (c :: A)) ∨
    (n + 48 < c.size ∧ HeapInv h' (F ++ c.right n :: G) (c.left n :: A))

theorem kmallocLoop_spec {n : ℕ} (h4 : n % 4 = 0) (h0 : 0 < n) : ∀ (G : List Chunk) (F : List Chunk)
    (fuel : ℕ), HeapInv h (F ++ G) A → (∀ d ∈ F, d.size < n) → G.length < fuel →
    ∃ p h', kmallocLoop h n fuel (front (addrs G) NULL) = some (p, h') ∧
      ((p = NULL ∧ h' = h ∧ ∀ d ∈ F ++ G, d.size < n) ∨
        ∃ F₁ c G₁, F ++ G = F₁ ++ c :: G₁ ∧ p = c.addr + 24 ∧ n ≤ c.size ∧ (∀ d ∈ F₁, d.size < n) ∧
          Taken n F₁ c G₁ A h' ∧ Agree (F ++ G) h.mem h'.mem) := by
  intro G
  -- over the rest of the list: `F` is what the loop has passed
  induction G with
  | nil =>
    intro F fuel _ hF hfuel
    obtain ⟨fuel, rfl⟩ : ∃ k, fuel = k + 1 := ⟨fuel - 1, by omega⟩
    refine ⟨NULL, h, ?_, Or.inl ⟨rfl, rfl, by simpa using hF⟩⟩
    simp [kmallocLoop]
  | cons c G ih =>
    intro F fuel hi hF hfuel
    obtain ⟨fuel, rfl⟩ : ∃ k, fuel = k + 1 := ⟨fuel - 1, by omega⟩
    have hc := hi.okF c (by simp)
    have hrun := hi.run
    rw [run_append, run_cons] at hrun
    obtain ⟨-, ⟨hnext, -, hsize⟩, -⟩ := hrun
    have hp : u64 (c.addr + hdrSize) = c.addr + 24 := by
      have := hc.addr_lt
      unfold hdrSize
      exact u64_of_lt (by omega)
    simp only [addrs_cons, front_cons, kmallocLoop, if_neg hc.ne_null, hsize, hp]
    rcases Nat.lt_or_ge c.size n with hlt | hge
    · -- too small: the loop goes on with the rest of the list
      rw [if_pos hlt, hnext]
      have hi' : HeapInv h ((F ++ [c]) ++ G) A := by simpa using hi
      obtain ⟨p, h', h1, h2⟩ := ih (F ++ [c]) fuel hi' (by
        intro d hd
        rcases List.mem_append.1 hd with hd | hd
        · exact hF d hd
        · rw [List.mem_singleton.1 hd]; exact hlt) (by simpa using hfuel)
      refine ⟨p, h', h1, ?_⟩
      simpa using h2
    · rw [if_neg (by omega)]
      obtain ⟨ht, ha⟩ := hi.take
      by_cases heq : c.size = n
      · -- an exact fit
        rw [if_pos heq]
        exact ⟨_, _, rfl, Or.inr ⟨F, c, G, rfl, rfl, hge, hF, Or.inl ⟨by omega, ht⟩, ha⟩⟩
      rw [if_neg heq]
      by_cases h48 : n + 48 < c.size
      · -- split, then take the first part
        rw [if_pos (by omega)]
        obtain ⟨d1, -, d3⟩ := divideChunk_run hi.run hi.sorted hi.okF h4 h0 h48
        obtain ⟨ht', ha'⟩ := (hi.split h4 h0 h48).take
        refine ⟨_, _, rfl, Or.inr ⟨F, c, G, rfl, rfl, hge, hF, Or.inr ⟨h48, ?_⟩, ?_⟩⟩
        · have hn : get (divideChunk h.mem n c.addr).2 .next (c.left n).addr = (c.right n).addr := by
            have hr := (hi.split h4 h0 h48).run
            rw [run_append, run_cons] at hr
            exact hr.2.1.1
          rw [hn] at ht'
          rw [d1]
          exact ht'
        · exact d3.trans (ha'.mono (split_covered hc h4 h0 h48))
      · -- too little would be left for a chunk of its own
        rw [if_neg (by omega)]
        exact ⟨_, _, rfl, Or.inr ⟨F, c, G, rfl, rfl, hge, hF, Or.inl ⟨by omega, ht⟩, ha⟩⟩

/-- **`kmalloc` is first fit**: it returns, with `NULL` and an unchanged heap when no free
chunk is large enough, and else with the data of the first chunk that is. -/
theorem kmalloc_spec {n : ℕ} (hi : HeapInv h F A) (h0 : 0 < n) (hn : n ≤ 2 ^ 64 - 4) :
    ∃ p h', kmalloc h n = some (p, h') ∧
      ((p = NULL ∧ h' = h ∧ ∀ d ∈ F, d.size < roundUp n) ∨
        ∃ F₁ c G₁, F = F₁ ++ c :: G₁ ∧ p = c.addr + 24 ∧ roundUp n ≤ c.size ∧
          (∀ d ∈ F₁, d.size < roundUp n) ∧ Taken (roundUp n) F₁ c G₁ A h' ∧ Agree F h.mem h'.mem) := by
  obtain ⟨h1, h2, -⟩ := roundUp_spec h0 hn
  unfold kmalloc
  rw [if_neg (by omega), hi.first_eq]
  exact kmallocLoop_spec h2 (by omega) F [] h.bound hi (by simp) hi.length_lt

/-! ## Frees -/

/-- Merging two chunks that touch keeps the list sorted, in bounds and aligned, and
covers the same bytes. -/
theorem merged_spec (hs : Sorted (F ++ i :: j :: G)) (hok : ∀ d ∈ F ++ i :: j :: G, d.Ok)
    (hij : i.fin = j.addr) :
    Sorted (F ++ i.merged j :: G) ∧ (∀ d ∈ F ++ i.merged j :: G, d.Ok) ∧
      (i.merged j).fin = j.fin ∧
      ∀ x, Covered (F ++ i.merged j :: G) x ↔ Covered (F ++ i :: j :: G) x := by
  have hfin : (i.merged j).fin = j.fin := by unfold Chunk.merged Chunk.fin at *; dsimp only; omega
  obtain ⟨hF, hijG, hFi⟩ := List.pairwise_append.1 hs
  obtain ⟨hi1, hjG⟩ := List.pairwise_cons.1 hijG
  obtain ⟨hj1, hG⟩ := List.pairwise_cons.1 hjG
  refine ⟨?_, ?_, hfin, ?_⟩
  · refine List.pairwise_append.2 ⟨hF, List.pairwise_cons.2 ⟨fun d hd => hfin ▸ hj1 d hd, hG⟩, ?_⟩
    intro b hb d hd
    rcases List.mem_cons.1 hd with rfl | hd
    · exact hFi b hb i List.mem_cons_self
    · exact hFi b hb d (by simp [hd])
  · intro d hd
    simp only [List.mem_append, List.mem_cons] at hd
    rcases hd with hd | rfl | hd
    · exact hok d (by simp [hd])
    · have hi := hok i (by simp)
      have hj := hok j (by simp)
      have h1 := hi.size_mod
      have h2 := hj.size_mod
      refine ⟨hi.lo, hfin ▸ hj.hi, hi.addr_mod, ?_⟩
      unfold Chunk.merged; dsimp only; omega
    · exact hok d (by simp [hd])
  · intro x
    have hx : (i.merged j).Has x ↔ i.Has x ∨ j.Has x := by
      unfold Chunk.Has
      rw [hfin]
      unfold Chunk.merged Chunk.fin at *
      dsimp only
      omega
    simp only [covered_append, covered_cons, hx, or_assoc]

/-- The state of the free list that `kfree` builds. -/
structure Freed (m : Mem) (F : List Chunk) (c : Chunk) (m' : Mem) (F' : List Chunk) : Prop where
  run : Run m' NULL F' NULL
  sorted : Sorted F'
  ok : ∀ d ∈ F', d.Ok
  covers : ∀ x, Covered F' x ↔ Covered F x ∨ c.Has x
  agree : Agree (c :: F) m m'

/-- Inserting the chunk between two neighbours. -/
theorem freed_insert (h : Run m NULL (F ++ G) NULL) (hs : Sorted (F ++ c :: G))
    (hok : ∀ d ∈ F ++ G, d.Ok) (hc : c.Ok) (hsize : get m .size c.addr = c.size) :
    Freed m (F ++ G) c
      (set (linkPrev (set (linkNext m F c.addr) .prev c.addr (back (addrs F) NULL)) G c.addr)
        .next c.addr (front (addrs G) NULL)) (F ++ c :: G) := by
  have hok' : ∀ d ∈ F ++ c :: G, d.Ok := by
    intro d hd
    simp only [List.mem_append, List.mem_cons] at hd
    rcases hd with hd | rfl | hd
    · exact hok d (by simp [hd])
    · exact hc
    · exact hok d (by simp [hd])
  obtain ⟨h1, h2⟩ := insert_run h hs hok' hsize
  refine ⟨h1, hs, hok', fun x => ?_, h2.mono fun d hd x hx => ⟨d, ?_, hx⟩⟩
  · simp only [covered_append, covered_cons]; tauto
  · simp only [List.mem_append, List.mem_cons] at hd ⊢; tauto

/-- A chunk that is apart from the list goes to its place. -/
theorem Sorted.insert (hs : Sorted ((F ++ [i]) ++ G)) (hap : ∀ d ∈ (F ++ [i]) ++ G, d.Apart c)
    (hic : i.addr < c.addr) (hG : ∀ d ∈ G, c.addr < d.addr) : Sorted ((F ++ [i]) ++ c :: G) := by
  obtain ⟨p1, p2, p3⟩ := List.pairwise_append.1 hs
  refine List.pairwise_append.2 ⟨p1, List.pairwise_cons.2 ⟨fun d hd => ?_, p2⟩, fun b hb d hd => ?_⟩
  · have h1 := apart_iff.1 (hap d (List.mem_append_right _ hd))
    have h2 := hG d hd
    unfold Chunk.fin at *; omega
  · rcases List.mem_cons.1 hd with rfl | hd
    · have hbi : b.addr ≤ i.addr := by
        rcases List.mem_append.1 hb with hb | hb
        · have := (List.pairwise_append.1 p1).2.2 b hb i (by simp)
          unfold Chunk.fin at this; omega
        · rw [List.mem_singleton.1 hb]
      have hbc := apart_iff.1 (hap b (List.mem_append_left _ hb))
      unfold Chunk.fin at *; omega
    · exact p3 b hb d hd

/-- **The loop of `kfree`**: from a free chunk below the freed one, it ends with the
freed chunk in the list. Neighbours that touch are merged on the way. -/
theorem kfreeLoop_spec (hc : c.Ok) : ∀ (G : List Chunk) (F : List Chunk) (i : Chunk) (m : Mem)
    (fuel : ℕ), Run m NULL (F ++ i :: G) NULL → Sorted (F ++ i :: G) → (∀ d ∈ F ++ i :: G, d.Ok) →
    (∀ d ∈ F ++ i :: G, d.Apart c) → get m .size c.addr = c.size → i.addr < c.addr →
    G.length < fuel →
    ∃ m' F', kfreeLoop c.addr fuel m i.addr (front (addrs G) NULL) = some (GENERIC_SUCCESS, m') ∧
      Freed m (F ++ i :: G) c m' F' ∧ front (addrs F') NULL = front (addrs (F ++ i :: G)) NULL := by
  intro G
  -- over the rest of the list: each iteration shortens it, by a merge or by a step
  induction G with
  | nil =>
    intro F i m fuel hr hs hok hap hsize hic hfuel
    obtain ⟨fuel, rfl⟩ : ∃ k, fuel = k + 1 := ⟨fuel - 1, by omega⟩
    have hiok := hok i (by simp)
    -- the chunk goes to the end of the list
    have hs' : Sorted ((F ++ [i]) ++ [c]) :=
      Sorted.insert (G := []) (by simpa using hs) (by simpa using hap) hic (by simp)
    have hf := freed_insert (F := F ++ [i]) (G := []) (by simpa using hr) hs' (by simpa using hok) hc
      hsize
    rw [List.append_nil] at hf
    have hb : back (addrs (F ++ [i])) NULL = i.addr := by simp
    refine ⟨_, (F ++ [i]) ++ [c], ?_, hf, by simp⟩
    simp only [kfreeLoop, addrs_nil, front_nil, if_true, linkNext, linkPrev, hb, ne_eq,
      hiok.ne_null, not_true_eq_false, not_false_eq_true, if_false]
  | cons j G ih =>
    intro F i m fuel hr hs hok hap hsize hic hfuel
    obtain ⟨fuel, rfl⟩ : ∃ k, fuel = k + 1 := ⟨fuel - 1, by omega⟩
    have hiok := hok i (by simp)
    have hjok := hok j (by simp)
    have hrun := hr
    rw [run_append, run_cons, run_cons] at hrun
    obtain ⟨-, ⟨-, -, hisize⟩, ⟨hjnext, -, -⟩, -⟩ := hrun
    have hadj : u64 (i.addr + hdrSize + get m .size i.addr) = i.fin := by
      rw [hisize]
      exact u64_of_lt hiok.addr_lt
    have hic' := apart_iff.1 (hap i (by simp))
    have hjc' := apart_iff.1 (hap j (by simp))
    have hsij : i.fin ≤ j.addr := by
      have := (List.pairwise_append.1 hs).2.1
      exact (List.pairwise_cons.1 this).1 j List.mem_cons_self
    simp only [kfreeLoop, if_neg hiok.ne_null, addrs_cons, front_cons, if_neg hjok.ne_null, hadj]
    by_cases hij : i.fin = j.addr
    · -- merge, and do the iteration again
      rw [if_pos hij]
      obtain ⟨r1, r2⟩ := mergeChunk_run hr hs hok hij
      obtain ⟨s1, s2, s3, s4⟩ := merged_spec hs hok hij
      have hapart : ∀ d ∈ F ++ i.merged j :: G, d.Apart c := by
        intro d hd
        refine apart_of_covered (F := F ++ i :: j :: G) (fun x hx => (s4 x).1 ⟨d, hd, hx⟩) hap
      have hsize' : get (mergeChunk m i.addr j.addr).2 .size c.addr = c.size := by
        rw [r2.get_eq hap, hsize]
      obtain ⟨m', F', k1, k2, k3⟩ := ih F (i.merged j) (mergeChunk m i.addr j.addr).2 fuel r1 s1 s2
        hapart hsize' hic (by simpa using hfuel)
      refine ⟨m', F', ?_, ⟨k2.run, k2.sorted, k2.ok, fun x => (k2.covers x).trans (by rw [s4]), ?_⟩, ?_⟩
      · rw [hjnext]; exact k1
      · refine (r2.mono fun d hd x hx => ⟨d, List.mem_cons_of_mem _ hd, hx⟩).trans
          (k2.agree.mono fun d hd x hx => ?_)
        rcases List.mem_cons.1 hd with rfl | hd
        · exact ⟨d, List.mem_cons_self, hx⟩
        · obtain ⟨e, he, hex⟩ := (s4 x).1 ⟨d, hd, hx⟩
          exact ⟨e, List.mem_cons_of_mem _ he, hex⟩
      · rw [k3]
        cases F <;> simp [Chunk.merged]
    rw [if_neg hij]
    by_cases hcj : c.addr < j.addr
    · -- the chunk goes between `i` and `j`
      simp only [hic, hcj, and_self, if_true]
      have hG : ∀ d ∈ j :: G, c.addr < d.addr := by
        intro d hd
        rcases List.mem_cons.1 hd with rfl | hd
        · exact hcj
        · have hjG := (List.pairwise_cons.1 (List.pairwise_append.1 hs).2.1).2
          have := (List.pairwise_cons.1 hjG).1 d hd
          unfold Chunk.fin at this; omega
      have hs' : Sorted ((F ++ [i]) ++ c :: j :: G) :=
        Sorted.insert (by simpa using hs) (by simpa using hap) hic hG
      have hf := freed_insert (F := F ++ [i]) (G := j :: G) (by simpa using hr) hs'
        (by simpa using hok) hc hsize
      have hb : back (addrs (F ++ [i])) NULL = i.addr := by simp
      refine ⟨_, (F ++ [i]) ++ c :: j :: G, ?_, by simpa using hf, by simp⟩
      simp only [linkNext, linkPrev, hb, ne_eq, hiok.ne_null, hjok.ne_null, not_false_eq_true,
        if_true, addrs_cons, front_cons]
    · -- the chunk is beyond `j`
      simp only [hcj, and_false, if_false]
      obtain ⟨m', F', k1, k2, k3⟩ := ih (F ++ [i]) j m fuel (by simpa using hr) (by simpa using hs)
        (by simpa using hok) (by simpa using hap) hsize (by unfold Chunk.fin at *; omega)
        (by simpa using hfuel)
      refine ⟨m', F', ?_, by simpa using k2, by simpa using k3⟩
      rw [hjnext]; exact k1

/-- **`kfree` of a live chunk** succeeds, and makes the free chunks cover exactly the
chunk's bytes in addition. -/
theorem kfree_spec {A₁ A₂ : List Chunk} (hi : HeapInv h F (A₁ ++ c :: A₂)) :
    ∃ h' F', kfree h (c.addr + 24) = some (GENERIC_SUCCESS, h') ∧ HeapInv h' F' (A₁ ++ A₂) ∧
      (∀ x, Covered F' x ↔ Covered F x ∨ c.Has x) ∧ Agree (c :: F) h.mem h'.mem := by
  have hcA : c ∈ A₁ ++ c :: A₂ := by simp
  have hc := hi.okA c hcA
  have hap : ∀ d ∈ F, d.Apart c := fun d hd => hi.apartF d hd c hcA
  obtain ⟨hcnext, hcprev, hcsize⟩ := run_single.1 (hi.live c hcA)
  have hsub : ∀ d, d ∈ A₁ ++ A₂ → d ∈ A₁ ++ c :: A₂ := by
    intro d hd
    rcases List.mem_append.1 hd with hd | hd <;> simp [hd]
  -- the freed chunk is apart from the chunks that stay live
  have hcd : ∀ d ∈ A₁ ++ A₂, c.Apart d := by
    intro d hd
    obtain ⟨p1, p2, p3⟩ := List.pairwise_append.1 hi.apartA
    rcases List.mem_append.1 hd with hd | hd
    · exact (p3 d hd c List.mem_cons_self).symm
    · exact (List.pairwise_cons.1 p2).1 d hd
  -- whatever list `kfree` builds, the rest of the invariant follows
  have hfin : ∀ m' F' first, Freed h.mem F c m' F' → first = front (addrs F') NULL →
      HeapInv { h with mem := m', firstFree := first } F' (A₁ ++ A₂) := by
    intro m' F' first hf hfirst
    have hapF : ∀ d ∈ A₁ ++ A₂, ∀ b ∈ c :: F, b.Apart d := by
      intro d hd b hb
      rcases List.mem_cons.1 hb with rfl | hb
      · exact hcd d hd
      · exact hi.apartF b hb d (hsub d hd)
    refine ⟨hi.start_eq, hi.stop_eq, hfirst, hf.run, hf.sorted, ?_, hf.ok,
      fun d hd => hi.okA d (hsub d hd), ?_, ?_⟩
    · exact fun d hd => hf.agree.live (hapF d hd) (hi.live d (hsub d hd))
    · intro b hb d hd
      refine apart_of_covered (F := c :: F) (fun x hx => ?_) (hapF d hd)
      rcases (hf.covers x).1 ⟨b, hb, hx⟩ with h1 | h1
      · exact covered_cons.2 (Or.inr h1)
      · exact covered_cons.2 (Or.inl h1)
    · exact hi.apartA.sublist (List.Sublist.append_left (List.sublist_cons_self c A₂) A₁)
  have hptr : sub64 (c.addr + 24) hdrSize = c.addr := by
    have := hc.addr_lt
    unfold hdrSize
    rw [sub64_of_le (by omega) (by omega)]; omega
  unfold kfree
  rw [if_neg (by have := hc.ne_null; unfold NULL at *; omega)]
  simp only [hptr]
  cases F with
  | nil =>
    -- the list was empty: the links of a live chunk are already `NULL`
    have hfirst : h.firstFree = NULL := hi.first_eq
    rw [if_pos hfirst]
    have hf : Freed h.mem [] c h.mem [c] :=
      ⟨hi.live c hcA, by simp, by simpa using hc, fun x => by simp, Agree.refl _ _⟩
    exact ⟨_, [c], rfl, hfin h.mem [c] c.addr hf rfl, hf.covers, hf.agree⟩
  | cons i G =>
    have hiok := hi.okF i List.mem_cons_self
    have hfirst : h.firstFree = i.addr := hi.first_eq
    have hrun := hi.run
    rw [run_cons] at hrun
    rw [hfirst, if_neg hiok.ne_null]
    have hci := apart_iff.1 (hap i List.mem_cons_self)
    by_cases hlt : c.addr < i.addr
    · -- below the first free chunk: the list gets a new head, and no merge is tried
      rw [if_pos hlt]
      have hs' : Sorted (c :: i :: G) := by
        refine List.pairwise_cons.2 ⟨fun d hd => ?_, hi.sorted⟩
        rcases List.mem_cons.1 hd with rfl | hd
        · unfold Chunk.fin at *; omega
        · have := (List.pairwise_cons.1 hi.sorted).1 d hd
          unfold Chunk.fin at *; omega
      have hok' : ∀ d ∈ c :: i :: G, d.Ok := by
        intro d hd
        rcases List.mem_cons.1 hd with rfl | hd
        · exact hc
        · exact hi.okF d hd
      obtain ⟨r1, r2⟩ := prepend_run hi.run hs' hok' hcsize
      have hf : Freed h.mem (i :: G) c _ (c :: i :: G) :=
        ⟨r1, hs', hok', fun x => by rw [covered_cons, or_comm], r2⟩
      have he : linkPrev (set (set h.mem .prev c.addr NULL) .next c.addr (front (addrs (i :: G)) NULL))
          (i :: G) c.addr =
          set (set (set h.mem .prev c.addr NULL) .next c.addr i.addr) .prev i.addr c.addr := by
        simp [linkPrev, hiok.ne_null]
      rw [he] at hf
      exact ⟨_, c :: i :: G, rfl, hfin _ _ _ hf rfl, hf.covers, hf.agree⟩
    · rw [if_neg hlt, hrun.1.1]
      have hlen := hi.length_lt
      obtain ⟨m', F', k1, k2, k3⟩ := kfreeLoop_spec hc G [] i h.mem h.bound hi.run hi.sorted hi.okF
        hap hcsize (by unfold Chunk.fin at *; omega) (by simp at hlen; omega)
      rw [k1]
      exact ⟨_, F', rfl, hfin m' F' i.addr k2 (by rw [k3]; rfl), k2.covers, k2.agree⟩

end Nettapus
