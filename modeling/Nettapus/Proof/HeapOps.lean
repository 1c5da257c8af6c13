import Nettapus.Proof.HeapList

/-!
# `unlink`, `divideChunk`, `mergeChunk` and the insertions on the free list

One lemma for each operation of `heap.c` that relinks chunks: what it does to a run
from `NULL` to `NULL`, and that it writes nothing outside the chunks it is given.
-/

namespace Nettapus

open Bytes Links

/-- The end of the heap. -/
def heapStop : ℕ := heapStart + 256 * 0x1000

/-- A chunk inside the heap, with the alignment of the header and of the size. -/
structure Chunk.Ok (c : Chunk) : Prop where
  lo : heapStart ≤ c.addr
  hi : c.fin ≤ heapStop
  addr_mod : c.addr % 16 = 0
  size_mod : c.size % 4 = 0

variable {m : Mem} {F G : List Chunk} {c i j : Chunk}

theorem Chunk.Ok.ne_null (h : c.Ok) : c.addr ≠ NULL := by
  have := h.lo
  unfold heapStart at this
  unfold NULL; omega

theorem Chunk.Ok.addr_lt (h : c.Ok) : c.addr + 24 + c.size < 2 ^ 64 := by
  have := h.hi
  unfold Chunk.fin heapStop heapStart at this
  omega

theorem Chunk.Ok.size_lt (h : c.Ok) : c.size < 2 ^ 20 := by
  have h1 := h.lo
  have h2 := h.hi
  unfold Chunk.fin heapStop at h2
  omega

/-- The ends of a list of good chunks are 64-bit addresses. -/
theorem front_lt (h : ∀ c ∈ F, c.Ok) : front (addrs F) NULL < 2 ^ 64 := by
  cases F with
  | nil => decide
  | cons c F => have := (h c List.mem_cons_self).addr_lt; simp only [addrs_cons, front_cons]; omega

theorem back_lt (h : ∀ c ∈ F, c.Ok) : back (addrs F) NULL < 2 ^ 64 := by
  rcases List.eq_nil_or_concat' F with rfl | ⟨K, c, rfl⟩
  · decide
  · have := (h c (by simp)).addr_lt
    simp only [addrs_append, addrs_cons, addrs_nil, back_append, back_cons, back_nil]; omega

/-- The chunks around `c` in a sorted list. -/
theorem Sorted.around (hs : Sorted (F ++ c :: G)) : Sorted F ∧ Sorted (c :: G) ∧ (∀ d ∈ F, Far d.addr c.addr) ∧
    (∀ d ∈ F, ∀ e ∈ G, Far d.addr e.addr) ∧ ∀ d ∈ G, Far c.addr d.addr := by
  obtain ⟨hsF, hscG, -⟩ := List.pairwise_append.1 hs
  exact ⟨hsF, hscG, fun d hd => hs.far hd List.mem_cons_self,
    fun d hd e he => hs.far hd (List.mem_cons_of_mem _ he), fun d hd => Sorted.far_cons hscG hd⟩

/-- **`unlink`** takes a chunk out of the list and clears its links. -/
theorem unlink_run (h : Run m NULL (F ++ c :: G) NULL) (hs : Sorted (F ++ c :: G))
    (hok : ∀ d ∈ F ++ c :: G, d.Ok) :
    Run (unlink m c.addr).2 NULL (F ++ G) NULL ∧ Run (unlink m c.addr).2 NULL [c] NULL ∧
      Agree (F ++ c :: G) m (unlink m c.addr).2 := by
  have hFok : ∀ d ∈ F, d.Ok := fun d hd => hok d (by simp [hd])
  have hGok : ∀ d ∈ G, d.Ok := fun d hd => hok d (by simp [hd])
  have hcok := hok c (by simp)
  obtain ⟨hsF, hscG, hFc, hFG, hcG⟩ := hs.around
  rw [run_append, run_cons] at h
  obtain ⟨hF, ⟨hnext, hprev, hsize⟩, hG⟩ := h
  -- the four writes, in order
  set m1 := linkPrev m G (back (addrs F) NULL) with hm1
  have e1 : ∀ f, get m1 f c.addr = get m f c.addr :=
    fun f => linkPrev_far fun d hd => (hcG d hd).symm
  set m2 := linkNext m1 F (front (addrs G) NULL) with hm2
  have e2 : ∀ f, get m2 f c.addr = get m f c.addr :=
    fun f => (linkNext_far fun d hd => hFc d hd).trans (e1 f)
  have hu : (unlink m c.addr).2 = set (set m2 .prev c.addr NULL) .next c.addr NULL := by
    unfold unlink
    rw [if_neg hcok.ne_null]
    simp only [hnext, hprev]
    rw [show (if front (addrs G) NULL ≠ NULL then
      set m .prev (front (addrs G) NULL) (back (addrs F) NULL) else m) = m1 from rfl]
    simp only [e1, hnext, hprev]
    rfl
  rw [hu]
  have hF2 : Run m2 NULL F (front (addrs G) NULL) :=
    (hF.of_linkPrev_far fun d hd e he => (hFG e he d hd).symm).of_linkNext hsF
      (fun d hd => (hFok d hd).ne_null) (front_lt hGok)
  have hG2 : Run m2 (back (addrs F) NULL) G NULL :=
    (hG.of_linkPrev (List.pairwise_cons.1 hscG).2 (fun d hd => (hGok d hd).ne_null)
      (back_lt hFok)).of_linkNext_far hFG
  refine ⟨run_append.2 ⟨?_, ?_⟩, ?_, ?_⟩
  · exact (hF2.set_far fun d hd => (hFc d hd).symm).set_far fun d hd => (hFc d hd).symm
  · exact (hG2.set_far hcG).set_far hcG
  · rw [run_single]
    refine ⟨get_set_next (by decide), ?_, ?_⟩
    · rw [get_set_field (by decide), get_set_prev (by decide)]
    · rw [get_set_field (by decide), get_set_field (by decide), e2, hsize]
  · have ha : Agree (F ++ c :: G) m m2 :=
      ((Agree.refl _ m).of_linkPrev fun d hd => by simp [hd]).of_linkNext fun d hd => by simp [hd]
    exact (ha.header (by simp)).header (by simp)

/-! ## Splitting and merging -/

/-- The first part of a split chunk. -/
def Chunk.left (c : Chunk) (bytes : ℕ) : Chunk := ⟨c.addr, divideSize bytes⟩

/-- The second part of a split chunk: it ends where the chunk ended. -/
def Chunk.right (c : Chunk) (bytes : ℕ) : Chunk :=
  ⟨divideAddr (divideSize bytes) c.addr, c.fin - (divideAddr (divideSize bytes) c.addr + 24)⟩

/-- **The arithmetic of a split.** A request that is a multiple of four and leaves more
than 48 bytes of the chunk passes the test of `divideChunk`: a request below 16 bytes
is raised to 16, but then the residues modulo four leave at least 52 bytes. -/
theorem divide_arith {bytes : ℕ} (hc : c.Ok) (h4 : bytes % 4 = 0) (h0 : 0 < bytes)
    (h48 : bytes + 48 < c.size) :
    bytes ≤ divideSize bytes ∧ divideSize bytes % 4 = 0 ∧ divideSize bytes < 2 ^ 20 ∧
      u64 (divideSize bytes + 24 + 15) < c.size ∧
      c.addr + 24 + divideSize bytes ≤ divideAddr (divideSize bytes) c.addr ∧
      divideAddr (divideSize bytes) c.addr % 16 = 0 ∧
      divideAddr (divideSize bytes) c.addr + 24 < c.fin := by
  have h1 := hc.addr_lt
  have h2 := hc.size_lt
  have h3 := hc.size_mod
  have h5 := hc.addr_mod
  -- 39 bytes: a header, and what the alignment of the second one can cost
  have hd : bytes ≤ divideSize bytes ∧ divideSize bytes % 4 = 0 ∧
      divideSize bytes + 39 < c.size := by
    unfold divideSize
    dsimp only
    split_ifs <;> omega
  obtain ⟨hd1, hd2, hd3⟩ := hd
  have ha : c.addr + 24 + divideSize bytes ≤ divideAddr (divideSize bytes) c.addr ∧
      divideAddr (divideSize bytes) c.addr % 16 = 0 ∧
      divideAddr (divideSize bytes) c.addr ≤ c.addr + 24 + divideSize bytes + 15 := by
    unfold divideAddr u64 hdrSize
    dsimp only
    split_ifs <;> omega
  unfold Chunk.fin
  rw [u64_of_lt (by omega)]
  omega

theorem Chunk.Ok.left {bytes : ℕ} (hc : c.Ok) (h4 : bytes % 4 = 0) (h0 : 0 < bytes)
    (h48 : bytes + 48 < c.size) : (c.left bytes).Ok := by
  obtain ⟨-, h2, -, -, h5, -, h7⟩ := divide_arith hc h4 h0 h48
  have := hc.hi
  refine ⟨hc.lo, ?_, hc.addr_mod, h2⟩
  unfold Chunk.fin Chunk.left at *
  dsimp only
  omega

theorem Chunk.Ok.right {bytes : ℕ} (hc : c.Ok) (h4 : bytes % 4 = 0) (h0 : 0 < bytes)
    (h48 : bytes + 48 < c.size) : (c.right bytes).Ok := by
  obtain ⟨-, h2, -, -, h5, h6, h7⟩ := divide_arith hc h4 h0 h48
  have h8 := hc.hi
  have h9 := hc.lo
  have h10 := hc.addr_mod
  have h11 := hc.size_mod
  unfold Chunk.right
  refine ⟨?_, ?_, h6, ?_⟩ <;> unfold Chunk.fin at * <;> dsimp only <;> omega

/-- **`divideChunk`** splits a free chunk in two free chunks, the second one ending
where the chunk ended; its result is not `NULL`. -/
theorem divideChunk_run {bytes : ℕ} (h : Run m NULL (F ++ c :: G) NULL)
    (hs : Sorted (F ++ c :: G)) (hok : ∀ d ∈ F ++ c :: G, d.Ok) (h4 : bytes % 4 = 0)
    (h0 : 0 < bytes) (h48 : bytes + 48 < c.size) :
    (divideChunk m bytes c.addr).1 = (c.right bytes).addr ∧
      Run (divideChunk m bytes c.addr).2 NULL (F ++ c.left bytes :: c.right bytes :: G) NULL ∧
      Agree (F ++ c :: G) m (divideChunk m bytes c.addr).2 := by
  have hGok : ∀ d ∈ G, d.Ok := fun d hd => hok d (by simp [hd])
  have hcok := hok c (by simp)
  obtain ⟨-, -, a3, a4, a5, -, a7⟩ := divide_arith hcok h4 h0 h48
  have hlt := hcok.addr_lt
  have hslt := hcok.size_lt
  set sz := divideSize bytes with hsz
  set c2 := divideAddr sz c.addr with hc2
  have hR : c.right bytes = ⟨c2, c.fin - (c2 + 24)⟩ := rfl
  have hL : c.left bytes = ⟨c.addr, sz⟩ := rfl
  have hsF := (List.pairwise_append.1 hs).1
  have hscG : Sorted (c :: G) := (List.pairwise_append.1 hs).2.1
  have hFc2 : ∀ d ∈ F, Far c2 d.addr := by
    intro d hd
    have := (List.pairwise_append.1 hs).2.2 d hd c List.mem_cons_self
    unfold Chunk.fin at this; unfold Far; omega
  have hGc2 : ∀ d ∈ G, Far c2 d.addr := by
    intro d hd
    have := (List.pairwise_cons.1 hscG).1 d hd
    unfold Far; omega
  have hcc2 : Far c.addr c2 := by unfold Far; omega
  have hFc : ∀ d ∈ F, Far c.addr d.addr := fun d hd => (hs.far hd List.mem_cons_self).symm
  have hcG : ∀ d ∈ G, Far c.addr d.addr := fun d hd => hscG.far_cons hd
  have hFG : ∀ d ∈ F, ∀ e ∈ G, Far d.addr e.addr :=
    fun d hd e he => hs.far hd (List.mem_cons_of_mem _ he)
  rw [run_append, run_cons] at h
  obtain ⟨hF, ⟨hnext, hprev, hsize⟩, hG⟩ := h
  -- the six writes, in order
  set m1 := set m .size c2 (c.fin - (c2 + 24)) with hm1
  set m2 := linkPrev m1 G c2 with hm2
  set m4 := set (set m2 .next c2 (front (addrs G) NULL)) .prev c2 c.addr with hm4
  have e1 : ∀ f, get m1 f c.addr = get m f c.addr := fun f => get_set_far hcc2.symm
  have e2 : ∀ f, get m2 f c.addr = get m f c.addr :=
    fun f => (linkPrev_far fun d hd => (hcG d hd).symm).trans (e1 f)
  have e4 : ∀ f, get m4 f c.addr = get m f c.addr :=
    fun f => (get_set_far hcc2.symm).trans ((get_set_far hcc2.symm).trans (e2 f))
  have hdiv : divideChunk m bytes c.addr = (c2, set (set m4 .size c.addr sz) .next c.addr c2) := by
    have hdata : sub64 c.size (sub64 c2 c.addr) = c.fin - (c2 + 24) := by
      unfold Chunk.fin at a7 ⊢
      rw [sub64_of_le (a := c2) (by omega) (by omega), sub64_of_le (by omega) (by omega)]
      omega
    unfold divideChunk
    rw [if_neg hcok.ne_null]
    simp only [hsize, ← hsz, ← hc2, hdrSize, hdata, ← hm1]
    rw [if_neg (by omega)]
    simp only [e1, hnext]
    rw [show (if front (addrs G) NULL ≠ NULL then set m1 .prev (front (addrs G) NULL) c2
      else m1) = m2 from rfl]
    simp only [e2, hnext]
    rfl
  rw [hdiv]
  refine ⟨rfl, ?_, ?_⟩
  · rw [run_append, run_cons, run_cons, hL, hR]
    simp only [addrs_cons, front_cons]
    have hF4 : Run m4 NULL F c.addr :=
      (((hF.set_far hFc2).of_linkPrev_far fun d hd e he => (hFG e he d hd).symm).set_far
        hFc2).set_far hFc2
    have hG4 : Run m4 c2 G NULL :=
      (((hG.set_far hGc2).of_linkPrev (List.pairwise_cons.1 hscG).2
        (fun d hd => (hGok d hd).ne_null) (by unfold Chunk.fin at a7; omega)).set_far
        hGc2).set_far hGc2
    have hc2size : get m2 .size c2 = c.fin - (c2 + 24) := by
      rw [hm2, linkPrev_far fun d hd => (hGc2 d hd).symm, hm1]
      exact get_set_size (by unfold Chunk.fin; omega)
    refine ⟨(hF4.set_far hFc).set_far hFc, ⟨?_, ?_, ?_⟩, ⟨?_, ?_, ?_⟩, (hG4.set_far hcG).set_far hcG⟩
    · exact get_set_next (by unfold Chunk.fin at a7; omega)
    · rw [get_set_field (by decide), get_set_field (by decide), e4, hprev]
    · rw [get_set_field (by decide), get_set_size (by omega)]
    · rw [get_set_far hcc2, get_set_far hcc2, get_set_field (by decide), get_set_next (front_lt hGok)]
    · rw [get_set_far hcc2, get_set_far hcc2, get_set_prev (by omega)]
    · rw [get_set_far hcc2, get_set_far hcc2, get_set_field (by decide), get_set_field (by decide),
        hc2size]
  · have hin1 : c.addr ≤ c2 := by omega
    have hin2 : c2 + 24 ≤ c.fin := by omega
    have hc : c ∈ F ++ c :: G := by simp
    have h2 : Agree (F ++ c :: G) m m2 :=
      ((Agree.refl _ m).write hc hin1 hin2).of_linkPrev fun d hd => by simp [hd]
    exact (((h2.write hc hin1 hin2).write hc hin1 hin2).header hc).header hc

/-- The chunk two neighbours are merged into. -/
def Chunk.merged (i j : Chunk) : Chunk := ⟨i.addr, i.size + j.size + 24⟩

/-- **`mergeChunk`** replaces two free chunks that touch by one. -/
theorem mergeChunk_run (h : Run m NULL (F ++ i :: j :: G) NULL) (hs : Sorted (F ++ i :: j :: G))
    (hok : ∀ d ∈ F ++ i :: j :: G, d.Ok) (hij : i.fin = j.addr) :
    Run (mergeChunk m i.addr j.addr).2 NULL (F ++ i.merged j :: G) NULL ∧
      Agree (F ++ i :: j :: G) m (mergeChunk m i.addr j.addr).2 := by
  have hGok : ∀ d ∈ G, d.Ok := fun d hd => hok d (by simp [hd])
  have hiok := hok i (by simp)
  have hjok := hok j (by simp)
  have hij' : i.addr + i.size + 24 = j.addr := by unfold Chunk.fin at hij; omega
  have hjlt := hjok.addr_lt
  have hsize_lt : i.size + j.size + 24 < 2 ^ 32 := by
    have := hiok.size_lt
    have := hjok.size_lt
    omega
  have hsijG : Sorted (i :: j :: G) := (List.pairwise_append.1 hs).2.1
  have hsjG : Sorted (j :: G) := (List.pairwise_cons.1 hsijG).2
  have hFi : ∀ d ∈ F, Far i.addr d.addr := fun d hd => (hs.far hd (by simp)).symm
  have hFj : ∀ d ∈ F, Far j.addr d.addr := fun d hd => (hs.far hd (by simp)).symm
  have hFG : ∀ d ∈ F, ∀ e ∈ G, Far d.addr e.addr := fun d hd e he => hs.far hd (by simp [he])
  have hfij : Far i.addr j.addr := hsijG.far_cons List.mem_cons_self
  have hiG : ∀ d ∈ G, Far i.addr d.addr := fun d hd => hsijG.far_cons (List.mem_cons_of_mem _ hd)
  have hjG : ∀ d ∈ G, Far j.addr d.addr := fun d hd => hsjG.far_cons hd
  rw [run_append, run_cons, run_cons] at h
  obtain ⟨hF, ⟨-, hiprev, hisize⟩, ⟨hjnext, -, hjsize⟩, hG⟩ := h
  -- the three writes before `j` is cleared, in order
  set m1 := set m .next i.addr (front (addrs G) NULL) with hm1
  set m2 := linkPrev m1 G i.addr with hm2
  set m3 := set m2 .size i.addr (i.size + j.size + 24) with hm3
  have e1 : ∀ f, get m1 f j.addr = get m f j.addr := fun f => get_set_far hfij
  have e2 : ∀ f, get m2 f j.addr = get m f j.addr :=
    fun f => (linkPrev_far fun d hd => (hjG d hd).symm).trans (e1 f)
  have e2i : ∀ f, get m2 f i.addr = get m1 f i.addr :=
    fun f => linkPrev_far fun d hd => (hiG d hd).symm
  have hm : (mergeChunk m i.addr j.addr).2 = fill m3 j.addr 0 24 := by
    unfold mergeChunk
    rw [if_neg (by simp [hiok.ne_null, hjok.ne_null])]
    simp only [hisize, hjnext, hdrSize]
    rw [if_neg (by rw [hij', u64_of_lt (by omega)]; simp)]
    simp only [← hm1, e1, hjnext]
    rw [show (if front (addrs G) NULL ≠ NULL then set m1 .prev (front (addrs G) NULL) i.addr
      else m1) = m2 from rfl]
    rw [e2i, e2, hjsize, hm1, get_set_field (by decide), hisize]
  rw [hm]
  -- the cleared header is outside every chunk that stays
  have hfill : ∀ {a : ℕ} (f : Field), Far j.addr a → get (fill m3 j.addr 0 24) f a = get m3 f a := by
    intro a f hfar
    apply get_congr
    intro x h1 h2
    rw [fill_apply, if_neg (by unfold Far at hfar; omega)]
  constructor
  · have hF3 : Run m3 NULL F i.addr :=
      ((hF.set_far hFi).of_linkPrev_far fun d hd e he => (hFG e he d hd).symm).set_far hFi
    have hG3 : Run m3 i.addr G NULL :=
      ((hG.set_far hiG).of_linkPrev (List.pairwise_cons.1 hsjG).2
        (fun d hd => (hGok d hd).ne_null) (by omega)).set_far hiG
    rw [run_append, run_cons]
    refine ⟨hF3.congr fun d hd f => hfill f (hFj d hd), ⟨?_, ?_, ?_⟩,
      hG3.congr fun d hd f => hfill f (hjG d hd)⟩
    · rw [show (i.merged j).addr = i.addr from rfl, hfill _ hfij.symm, get_set_field (by decide),
        e2i, get_set_next (front_lt hGok)]
    · rw [show (i.merged j).addr = i.addr from rfl, hfill _ hfij.symm, get_set_field (by decide),
        e2i, get_set_field (by decide), hiprev]
    · rw [show (i.merged j).addr = i.addr from rfl, hfill _ hfij.symm, get_set_size hsize_lt]
      rfl
  · have hi : i ∈ F ++ i :: j :: G := by simp
    have h3 : Agree (F ++ i :: j :: G) m m3 :=
      (((Agree.refl _ m).header hi).of_linkPrev fun d hd => by simp [hd]).header hi
    intro x hx
    have hjx := hx j (by simp)
    rw [fill_apply, if_neg (by unfold Chunk.Has Chunk.fin at hjx; omega), h3 x hx]

/-! ## Insertions -/

/-- **Inserting a chunk between two runs**, with the writes in the order of `kfree`'s
loop. -/
theorem insert_run (h : Run m NULL (F ++ G) NULL) (hs : Sorted (F ++ c :: G))
    (hok : ∀ d ∈ F ++ c :: G, d.Ok) (hsize : get m .size c.addr = c.size) :
    Run (set (linkPrev (set (linkNext m F c.addr) .prev c.addr (back (addrs F) NULL)) G c.addr)
        .next c.addr (front (addrs G) NULL)) NULL (F ++ c :: G) NULL ∧
      Agree (F ++ c :: G) m
        (set (linkPrev (set (linkNext m F c.addr) .prev c.addr (back (addrs F) NULL)) G c.addr)
          .next c.addr (front (addrs G) NULL)) := by
  have hFok : ∀ d ∈ F, d.Ok := fun d hd => hok d (by simp [hd])
  have hGok : ∀ d ∈ G, d.Ok := fun d hd => hok d (by simp [hd])
  have hclt := (hok c (by simp)).addr_lt
  obtain ⟨hsF, hscG, hFc, hFG, hcG⟩ := hs.around
  have hFc' : ∀ d ∈ F, Far c.addr d.addr := fun d hd => (hFc d hd).symm
  rw [run_append] at h
  obtain ⟨hF, hG⟩ := h
  set m1 := linkNext m F c.addr with hm1
  set m2 := set m1 .prev c.addr (back (addrs F) NULL) with hm2
  set m3 := linkPrev m2 G c.addr with hm3
  have e3 : ∀ f, get m3 f c.addr = get m2 f c.addr :=
    fun f => linkPrev_far fun d hd => (hcG d hd).symm
  have hF3 : Run m3 NULL F c.addr :=
    ((hF.of_linkNext hsF (fun d hd => (hFok d hd).ne_null) (by omega)).set_far
      hFc').of_linkPrev_far fun d hd e he => (hFG e he d hd).symm
  have hG3 : Run m3 c.addr G NULL :=
    ((hG.of_linkNext_far hFG).set_far hcG).of_linkPrev (List.pairwise_cons.1 hscG).2
      (fun d hd => (hGok d hd).ne_null) (by omega)
  constructor
  · rw [run_append, run_cons]
    refine ⟨hF3.set_far hFc', ⟨get_set_next (front_lt hGok), ?_, ?_⟩, hG3.set_far hcG⟩
    · rw [get_set_field (by decide), e3, get_set_prev (back_lt hFok)]
    · rw [get_set_field (by decide), e3, get_set_field (by decide), hm1, linkNext_far hFc, hsize]
  · have hc : c ∈ F ++ c :: G := by simp
    exact ((((Agree.refl _ m).of_linkNext fun d hd => by simp [hd]).header hc).of_linkPrev
      fun d hd => by simp [hd]).header hc

/-- **Inserting a chunk in front**, with the writes in the order of `kfree`. -/
theorem prepend_run (h : Run m NULL G NULL) (hs : Sorted (c :: G)) (hok : ∀ d ∈ c :: G, d.Ok)
    (hsize : get m .size c.addr = c.size) :
    Run (linkPrev (set (set m .prev c.addr NULL) .next c.addr (front (addrs G) NULL)) G c.addr)
        NULL (c :: G) NULL ∧
      Agree (c :: G) m
        (linkPrev (set (set m .prev c.addr NULL) .next c.addr (front (addrs G) NULL)) G c.addr) := by
  have hGok : ∀ d ∈ G, d.Ok := fun d hd => hok d (by simp [hd])
  have hclt := (hok c (by simp)).addr_lt
  have hcG : ∀ d ∈ G, Far c.addr d.addr := fun d hd => hs.far_cons hd
  set m2 := set (set m .prev c.addr NULL) .next c.addr (front (addrs G) NULL) with hm2
  have e3 : ∀ f, get (linkPrev m2 G c.addr) f c.addr = get m2 f c.addr :=
    fun f => linkPrev_far fun d hd => (hcG d hd).symm
  constructor
  · rw [run_cons, e3, e3, e3]
    refine ⟨⟨get_set_next (front_lt hGok), ?_, ?_⟩, ?_⟩
    · rw [get_set_field (by decide), get_set_prev (by decide)]
    · rw [get_set_field (by decide), get_set_field (by decide), hsize]
    · exact ((h.set_far hcG).set_far hcG).of_linkPrev (List.pairwise_cons.1 hs).2
        (fun d hd => (hGok d hd).ne_null) (by omega)
  · have hc : c ∈ c :: G := by simp
    exact (((Agree.refl _ m).header hc).header hc).of_linkPrev fun d hd => by simp [hd]

end Nettapus
