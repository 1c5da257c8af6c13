import Nettapus.Proof.HeapInv
import Mathlib.Data.List.Pairwise

/-!
# Runs of the heap

`HeapReach s`: the heap and the set of live pointers that any sequence of `kmalloc`,
`kfree` and writes by the owners of blocks leads to, from the state `init_heap`
builds. A `kfree` is of a pointer that an earlier `kmalloc` returned and that was not
freed since (or of `NULL`).

`heap_invariant`: in every state reached, the free list is well formed, all chunks are
in bounds, aligned and disjoint, and the next operation keeps its promise.
-/

namespace Nettapus

open Bytes Links

/-- The heap, and the pointers returned by `kmalloc` that were not freed yet. -/
structure HeapSys where
  heap : Heap
  live : List ℕ

/-- The chunk whose data starts at `p`. -/
def chunkOf (m : Mem) (p : ℕ) : Chunk := ⟨p - 24, get m .size (p - 24)⟩

/-- The data address of a chunk. -/
def Chunk.data (c : Chunk) : ℕ := c.addr + 24

/-- The live chunks. -/
def HeapSys.chunks (s : HeapSys) : List Chunk := s.live.map (chunkOf s.heap.mem)

/-- The states reached by sequences of heap operations. -/
inductive HeapReach : HeapSys → Prop
  | init (h : Heap) : HeapReach ⟨(initHeap 0 h).2, []⟩
  | malloc {s : HeapSys} {n p : ℕ} {h' : Heap} (hs : HeapReach s) (hn : n ≤ 2 ^ 64 - 4)
      (hk : kmalloc s.heap n = some (p, h')) :
      HeapReach ⟨h', if p = NULL then s.live else p :: s.live⟩
  | free {s : HeapSys} {p r : ℕ} {h' : Heap} (hs : HeapReach s) (hp : p = NULL ∨ p ∈ s.live)
      (hk : kfree s.heap p = some (r, h')) : HeapReach ⟨h', s.live.erase p⟩
  | write {s : HeapSys} {p x : ℕ} {v : UInt8} (hs : HeapReach s) (hp : p ∈ s.live) (h1 : p ≤ x)
      (h2 : x < p + (chunkOf s.heap.mem p).size) :
      HeapReach ⟨{ s.heap with mem := Function.update s.heap.mem x v }, s.live⟩

/-- The list from `first_free` through `next` is `F`: it ends in `NULL`, `prev` mirrors
`next`, and addresses increase. -/
structure FreeList (h : Heap) (F : List Chunk) : Prop where
  first_eq : h.firstFree = front (addrs F) NULL
  null_notMem : NULL ∉ addrs F
  next : Linked (get h.mem .next) (addrs F) NULL
  prev : Linked (get h.mem .prev) (addrs F).reverse NULL
  size : ∀ c ∈ F, get h.mem .size c.addr = c.size
  increasing : (addrs F).Pairwise (· < ·)

variable {s : HeapSys} {h : Heap} {F A : List Chunk} {c : Chunk}

theorem HeapInv.freeList (hi : HeapInv h F A) : FreeList h F := by
  refine ⟨hi.first_eq, ?_, hi.run.next, hi.run.prev, hi.run.size, ?_⟩
  · intro h0
    obtain ⟨c, hc, hc0⟩ := mem_addrs.1 h0
    exact (hi.okF c hc).ne_null hc0
  · unfold addrs
    rw [List.pairwise_map]
    exact hi.sorted.imp fun hbc => by unfold Chunk.fin at hbc; omega

theorem HeapInv.apart (hi : HeapInv h F A) : (F ++ A).Pairwise Chunk.Apart :=
  List.pairwise_append.2
    ⟨hi.sorted.imp fun hbc => apart_iff.2 (Or.inl hbc), hi.apartA, hi.apartF⟩

/-- The state `s` has the free chunks `F` and the live chunks `A`. -/
structure HeapRep (s : HeapSys) (F A : List Chunk) : Prop where
  inv : HeapInv s.heap F A
  live : s.live = A.map Chunk.data

theorem HeapRep.chunkOf_eq (hr : HeapRep s F A) (hc : c ∈ A) : chunkOf s.heap.mem c.data = c := by
  have hsize := (run_single.1 (hr.inv.live c hc)).2.2
  unfold chunkOf Chunk.data
  rw [Nat.add_sub_cancel, hsize]

theorem HeapRep.chunks_eq (hr : HeapRep s F A) : s.chunks = A := by
  unfold HeapSys.chunks
  rw [hr.live, List.map_map]
  conv_rhs => rw [← List.map_id A]
  apply List.map_congr_left
  intro c hc
  exact hr.chunkOf_eq hc

/-- A live pointer is the data of a live chunk, and no other chunk has this data. -/
theorem HeapRep.live_split (hr : HeapRep s F A) {p : ℕ} (hp : p ∈ s.live) :
    ∃ A₁ c A₂, A = A₁ ++ c :: A₂ ∧ p = c.data ∧ s.live.erase p = (A₁ ++ A₂).map Chunk.data := by
  rw [hr.live] at hp
  obtain ⟨c, hc, rfl⟩ := List.mem_map.1 hp
  obtain ⟨A₁, A₂, hA⟩ := List.append_of_mem hc
  refine ⟨A₁, c, A₂, hA, rfl, ?_⟩
  have hapart := hr.inv.apartA
  rw [hA] at hapart
  have hnot : c.data ∉ A₁.map Chunk.data := by
    intro hmem
    obtain ⟨b, hb, hbc⟩ := List.mem_map.1 hmem
    have hfar := ((List.pairwise_append.1 hapart).2.2 b hb c List.mem_cons_self).far
    unfold Chunk.data at hbc
    unfold Far at hfar; omega
  rw [hr.live, hA, List.map_append, List.map_cons, List.erase_append_right _ hnot,
    List.erase_cons_head, List.map_append]

/-- Two live chunks are apart. -/
theorem HeapRep.apart_of_ne {b : Chunk} (hr : HeapRep s F A) (hb : b ∈ A) (hc : c ∈ A) (hbc : b ≠ c) :
    b.Apart c :=
  have : Std.Symm Chunk.Apart := ⟨fun _ _ h => h.symm⟩
  hr.inv.apartA.forall hb hc hbc

theorem HeapRep.null_notMem (hr : HeapRep s F A) : NULL ∉ s.live := by
  rw [hr.live]
  intro h0
  obtain ⟨c, -, hc⟩ := List.mem_map.1 h0
  unfold Chunk.data NULL at hc; omega

/-! ## Steps keep the representation -/

theorem initHeap_rep (h : Heap) :
    HeapRep ⟨(initHeap 0 h).2, []⟩ [⟨heapStart, 0x100000 - 24⟩] [] := by
  have hc : (⟨heapStart, 0x100000 - 24⟩ : Chunk).Ok :=
    ⟨Nat.le_refl _, by decide, by decide, by decide⟩
  refine ⟨⟨rfl, rfl, rfl, ?_, by simp, by simp, by simpa using hc, by simp, by simp, by simp⟩, rfl⟩
  rw [run_single]
  refine ⟨get_set_next (by decide), ?_, ?_⟩
  · show get (set (set (set h.mem _ _ _) _ _ _) _ _ _) _ _ = _
    rw [get_set_field (by decide), get_set_prev (by decide)]
  · show get (set (set (set h.mem _ _ _) _ _ _) _ _ _) _ _ = _
    rw [get_set_field (by decide), get_set_field (by decide), get_set_size (by decide)]
    decide

theorem kmalloc_rep {n p : ℕ} {h' : Heap} (hr : HeapRep s F A) (hn : n ≤ 2 ^ 64 - 4)
    (hk : kmalloc s.heap n = some (p, h')) :
    ∃ F' A', HeapRep ⟨h', if p = NULL then s.live else p :: s.live⟩ F' A' := by
  rcases Nat.eq_zero_or_pos n with rfl | h0
  · simp only [kmalloc, if_true, Option.some.injEq, Prod.mk.injEq] at hk
    obtain ⟨rfl, rfl⟩ := hk
    exact ⟨F, A, by simpa using hr⟩
  obtain ⟨q, g, h1, h2⟩ := kmalloc_spec hr.inv h0 hn
  rw [h1, Option.some.injEq, Prod.mk.injEq] at hk
  obtain ⟨rfl, rfl⟩ := hk
  rcases h2 with ⟨rfl, rfl, -⟩ | ⟨F₁, c, G₁, hF, rfl, -, -, ht, -⟩
  · exact ⟨F, A, by simpa using hr⟩
  · have hne : c.addr + 24 ≠ NULL := by unfold NULL; omega
    rw [if_neg hne]
    rcases ht with ⟨-, hi⟩ | ⟨-, hi⟩
    · exact ⟨_, _, hi, by rw [hr.live]; rfl⟩
    · exact ⟨_, _, hi, by rw [hr.live]; rfl⟩

theorem kfree_rep {p r : ℕ} {h' : Heap} (hr : HeapRep s F A) (hp : p = NULL ∨ p ∈ s.live)
    (hk : kfree s.heap p = some (r, h')) : ∃ F' A', HeapRep ⟨h', s.live.erase p⟩ F' A' := by
  rcases hp with rfl | hp
  · simp only [kfree, if_true, Option.some.injEq, Prod.mk.injEq] at hk
    obtain ⟨-, rfl⟩ := hk
    rw [List.erase_of_not_mem hr.null_notMem]
    exact ⟨F, A, hr⟩
  · obtain ⟨A₁, c, A₂, hA, rfl, he⟩ := hr.live_split hp
    have hi := hr.inv
    rw [hA] at hi
    obtain ⟨g, F', h1, h2, -, -⟩ := kfree_spec hi
    unfold Chunk.data at hk
    rw [h1, Option.some.injEq, Prod.mk.injEq] at hk
    obtain ⟨-, rfl⟩ := hk
    exact ⟨F', A₁ ++ A₂, h2, he⟩

/-- A write to the data of a live block touches no header. -/
theorem write_rep {p x : ℕ} {v : UInt8} (hr : HeapRep s F A) (hp : p ∈ s.live) (h1 : p ≤ x)
    (h2 : x < p + (chunkOf s.heap.mem p).size) :
    HeapRep ⟨{ s.heap with mem := Function.update s.heap.mem x v }, s.live⟩ F A := by
  obtain ⟨A₁, c, A₂, hA, rfl, -⟩ := hr.live_split hp
  have hcA : c ∈ A := by rw [hA]; simp
  rw [hr.chunkOf_eq hcA] at h2
  have hcx : c.Has x := by unfold Chunk.Has Chunk.fin; unfold Chunk.data at h1 h2; omega
  -- the byte is behind the header of `c` and outside the other chunks
  have hget : ∀ d : Chunk, (d = c ∨ d.Apart c) → ∀ f,
      get (Function.update s.heap.mem x v) f d.addr = get s.heap.mem f d.addr := by
    intro d hd f
    apply get_congr
    intro y hy1 hy2
    apply Function.update_of_ne
    rintro rfl
    rcases hd with rfl | hd
    · unfold Chunk.data at h1; omega
    · exact hd y ⟨⟨hy1, by unfold Chunk.fin; omega⟩, hcx⟩
  have hi := hr.inv
  have hAc : ∀ d ∈ A, d = c ∨ d.Apart c := fun d hd =>
    or_iff_not_imp_left.2 fun hdc => hr.apart_of_ne hd hcA hdc
  refine ⟨⟨hi.start_eq, hi.stop_eq, hi.first_eq, ?_, hi.sorted, ?_, hi.okF, hi.okA, hi.apartF,
    hi.apartA⟩, hr.live⟩
  · exact hi.run.congr fun d hd f => hget d (Or.inr (hi.apartF d hd c hcA)) f
  · intro d hd
    refine (hi.live d hd).congr fun e he f => ?_
    obtain rfl := List.mem_singleton.1 he
    exact hget e (hAc e hd) f

/-- **Every state reached has the representation.** -/
theorem HeapReach.rep (hs : HeapReach s) : ∃ F A, HeapRep s F A := by
  induction hs with
  | init h => exact ⟨_, _, initHeap_rep h⟩
  | malloc _ hn hk ih =>
    obtain ⟨F, A, hr⟩ := ih
    exact kmalloc_rep hr hn hk
  | free _ hp hk ih =>
    obtain ⟨F, A, hr⟩ := ih
    exact kfree_rep hr hp hk
  | write _ hp h1 h2 ih =>
    obtain ⟨F, A, hr⟩ := ih
    exact ⟨F, A, write_rep hr hp h1 h2⟩

/-! ## What the next operation does -/

/-- A request keeps every free chunk but the one it hands out, keeps the rest of a
chunk that it splits, and leaves the live chunks alone. -/
theorem kmalloc_effect {n : ℕ} (hi : HeapInv h F A) (hn : n ≤ 2 ^ 64 - 4) :
    ∃ p h' F', kmalloc h n = some (p, h') ∧ FreeList h' F' ∧
      (∀ d ∈ F, d.data ≠ p → d ∈ F') ∧
      (∀ d ∈ F, d.data = p → roundUp n + 48 < d.size → d.right (roundUp n) ∈ F') ∧
      ∀ c ∈ A, ∀ x, c.Has x → h'.mem x = h.mem x := by
  rcases Nat.eq_zero_or_pos n with rfl | h0
  · refine ⟨NULL, h, F, by simp [kmalloc], hi.freeList, fun d hd _ => hd, ?_, fun _ _ _ _ => rfl⟩
    intro d _ hd
    unfold Chunk.data NULL at hd; omega
  obtain ⟨p, h', h1, h2⟩ := kmalloc_spec hi h0 hn
  rcases h2 with ⟨rfl, rfl, -⟩ | ⟨F₁, c, G₁, rfl, rfl, -, -, ht, ha⟩
  · refine ⟨NULL, h', F, h1, hi.freeList, fun d hd _ => hd, ?_, fun _ _ _ _ => rfl⟩
    intro d _ hd
    unfold Chunk.data NULL at hd; omega
  have hlive : ∀ d ∈ A, ∀ x, d.Has x → h'.mem x = h.mem x :=
    fun d hd x hx => ha x fun b hb hbx => hi.apartF b hb d hd x ⟨hbx, hx⟩
  -- the chunk handed out is the only one with this data address
  have huniq : ∀ d ∈ F₁ ++ c :: G₁, d.data = c.addr + 24 → d = c := by
    intro d hd hdc
    have hs := hi.sorted
    simp only [List.mem_append, List.mem_cons] at hd
    unfold Chunk.data at hdc
    rcases hd with hd | rfl | hd
    · have := hs.far hd List.mem_cons_self
      unfold Far at this; omega
    · rfl
    · have := Sorted.far_cons (List.pairwise_append.1 hs).2.1 hd
      unfold Far at this; omega
  have hrest : ∀ d ∈ F₁ ++ c :: G₁, d.data ≠ c.addr + 24 → d ∈ F₁ ∨ d ∈ G₁ := by
    intro d hd hne
    simp only [List.mem_append, List.mem_cons] at hd
    rcases hd with hd | rfl | hd
    · exact Or.inl hd
    · exact absurd rfl hne
    · exact Or.inr hd
  rcases ht with ⟨hsz, hi'⟩ | ⟨hsz, hi'⟩
  · refine ⟨_, h', F₁ ++ G₁, h1, hi'.freeList, ?_, ?_, hlive⟩
    · intro d hd hne
      rcases hrest d hd hne with h | h <;> simp [h]
    · intro d hd hdc h48
      rw [huniq d hd hdc] at h48; omega
  · refine ⟨_, h', F₁ ++ c.right (roundUp n) :: G₁, h1, hi'.freeList, ?_, ?_, hlive⟩
    · intro d hd hne
      rcases hrest d hd hne with h | h <;> simp [h]
    · intro d hd hdc _
      rw [huniq d hd hdc]; simp

/-- **The heap invariant.** In every state that heap operations lead to, with `F` the free
chunks: the free list is finite, increasing, mirrored by `prev`, and ends in `NULL`; all
chunks lie in the heap, are disjoint and aligned; a split never fails and no free chunk
gets lost by a request; `kfree` of a live block succeeds and adds exactly its bytes to
the free ones; and no operation changes a byte of another live block. -/
theorem heap_invariant (hs : HeapReach s) : ∃ F : List Chunk,
    FreeList s.heap F ∧
    (∀ c ∈ F ++ s.chunks, s.heap.start ≤ c.addr ∧ c.fin ≤ s.heap.stop) ∧
    (F ++ s.chunks).Pairwise Chunk.Apart ∧
    (∀ c ∈ F ++ s.chunks, c.addr % 16 = 0 ∧ c.size % 4 = 0) ∧
    (∀ c ∈ F, ∀ n, 0 < n → n ≤ 2 ^ 64 - 4 → roundUp n + 48 < c.size →
      (divideChunk s.heap.mem (roundUp n) c.addr).1 ≠ NULL) ∧
    (∀ n ≤ 2 ^ 64 - 4, ∃ p h' F', kmalloc s.heap n = some (p, h') ∧ FreeList h' F' ∧
      (∀ d ∈ F, d.data ≠ p → d ∈ F') ∧
      (∀ d ∈ F, d.data = p → roundUp n + 48 < d.size → d.right (roundUp n) ∈ F') ∧
      ∀ c ∈ s.chunks, ∀ x, c.Has x → h'.mem x = s.heap.mem x) ∧
    (∀ p ∈ s.live, ∃ h' F', kfree s.heap p = some (GENERIC_SUCCESS, h') ∧ FreeList h' F' ∧
      (∀ x, Covered F' x ↔ Covered F x ∨ (chunkOf s.heap.mem p).Has x) ∧
      ∀ q ∈ s.live, q ≠ p → ∀ x, (chunkOf s.heap.mem q).Has x → h'.mem x = s.heap.mem x) := by
  obtain ⟨F, A, hr⟩ := hs.rep
  have hi := hr.inv
  have hok : ∀ c ∈ F ++ A, c.Ok := by
    intro c hc
    rcases List.mem_append.1 hc with hc | hc
    · exact hi.okF c hc
    · exact hi.okA c hc
  refine ⟨F, hi.freeList, ?_, ?_, ?_, ?_, ?_, ?_⟩
  · intro c hc
    rw [hr.chunks_eq] at hc
    rw [hi.start_eq, hi.stop_eq]
    exact ⟨(hok c hc).lo, (hok c hc).hi⟩
  · rw [hr.chunks_eq]; exact hi.apart
  · intro c hc
    rw [hr.chunks_eq] at hc
    exact ⟨(hok c hc).addr_mod, (hok c hc).size_mod⟩
  · intro c hc n h0 hn h48
    obtain ⟨F₁, G₁, rfl⟩ := List.append_of_mem hc
    obtain ⟨r1, r2, -⟩ := roundUp_spec h0 hn
    rw [(divideChunk_run hi.run hi.sorted hi.okF r2 (by omega) h48).1]
    exact ((hi.okF c hc).right r2 (by omega) h48).ne_null
  · intro n hn
    rw [hr.chunks_eq]
    exact kmalloc_effect hi hn
  · intro p hp
    obtain ⟨A₁, c, A₂, hA, rfl, -⟩ := hr.live_split hp
    have hcA : c ∈ A := by rw [hA]; simp
    rw [hr.chunkOf_eq hcA]
    rw [hA] at hi
    obtain ⟨h', F', h1, h2, h3, h4⟩ := kfree_spec hi
    refine ⟨h', F', h1, h2.freeList, h3, ?_⟩
    intro q hq hqp x hx
    rw [hr.live] at hq
    obtain ⟨d, hd, rfl⟩ := List.mem_map.1 hq
    rw [hr.chunkOf_eq hd] at hx
    have hdc : d.Apart c := hr.apart_of_ne hd hcA fun he => hqp (he ▸ rfl)
    -- `kfree` writes into the chunk it frees and into free chunks only
    refine h4 x fun b hb hbx => ?_
    rcases List.mem_cons.1 hb with rfl | hb
    · exact hdc x ⟨hx, hbx⟩
    · exact hr.inv.apartF b hb d hd x ⟨hbx, hx⟩

/-- The heap that `init_heap` builds over a cleared memory. -/
def clearedHeap : Heap := (initHeap 0 ⟨fun _ => 0, NULL, 0, 0⟩).2

/-- One request on a fresh heap, as a case of `heap_invariant`: the block is live, and can
be freed. -/
theorem heap_invariant_kmalloc : ∃ s : HeapSys, HeapReach s ∧ s.live = [heapStart + 24] ∧
    ∃ h', kfree s.heap (heapStart + 24) = some (GENERIC_SUCCESS, h') := by
  have hk : (kmalloc clearedHeap 100).map (·.1) = some (heapStart + 24) := by decide +kernel
  obtain ⟨⟨p, h⟩, hm, rfl⟩ := Option.map_eq_some_iff.1 hk
  have hs : HeapReach ⟨h, [heapStart + 24]⟩ := (HeapReach.init _).malloc (by decide) hm
  obtain ⟨F, -, -, -, -, -, -, hfree⟩ := heap_invariant hs
  obtain ⟨h', F', h1, -⟩ := hfree (heapStart + 24) List.mem_cons_self
  exact ⟨_, hs, rfl, h', h1⟩

end Nettapus
