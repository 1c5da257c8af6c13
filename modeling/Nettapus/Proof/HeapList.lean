import Nettapus.Code.Heap
import Nettapus.Lib.Links

/-!
# The free list in memory

`Run m pr F nx`: in memory `m` the chunks of `F` are doubly linked in this order, with
`pr` before the first and `nx` after the last, and carry the sizes `F` gives them.
Runs split and join at any place (`run_append`), so each pointer write of `heap.c`
changes one end of one run:

* `Run.of_linkPrev`, `Run.of_linkNext`: the guarded writes `if (x) x->prev = v` and
  `if (x) x->next = v` at the two ends of a run;
* `Run.set_far`, `Run.of_linkPrev_far`, `Run.of_linkNext_far`: writes to other headers leave
  a run alone.

`Agree F m m'`: the two memories differ only inside the chunks of `F`.
-/

namespace Nettapus

open Bytes Links

/-- A chunk: its header's address and its size, which excludes the header. -/
structure Chunk where
  addr : ℕ
  size : ℕ
  deriving DecidableEq

/-- The end of a chunk. -/
def Chunk.fin (c : Chunk) : ℕ := c.addr + 24 + c.size

/-- The address `x` is in the chunk, header included. -/
def Chunk.Has (c : Chunk) (x : ℕ) : Prop := c.addr ≤ x ∧ x < c.fin

/-- The headers of a list of chunks. -/
def addrs (F : List Chunk) : List ℕ := F.map Chunk.addr

/-- Two headers do not overlap. -/
def Far (a b : ℕ) : Prop := a + 24 ≤ b ∨ b + 24 ≤ a

/-- The chunks follow each other in memory. -/
abbrev Sorted (F : List Chunk) : Prop := F.Pairwise fun b c => b.fin ≤ c.addr

@[simp] theorem addrs_nil : addrs [] = [] := rfl

@[simp] theorem addrs_cons (c : Chunk) (F : List Chunk) : addrs (c :: F) = c.addr :: addrs F := rfl

@[simp] theorem addrs_append (F G : List Chunk) : addrs (F ++ G) = addrs F ++ addrs G :=
  List.map_append

theorem mem_addrs {a : ℕ} {F : List Chunk} : a ∈ addrs F ↔ ∃ c ∈ F, c.addr = a := List.mem_map

theorem Far.symm {a b : ℕ} (h : Far a b) : Far b a := Or.symm h

/-! ## Header fields -/

variable {m m' : Mem} {f g : Field} {a b v : ℕ}

theorem get_congr (h : ∀ x, a ≤ x → x < a + 24 → m' x = m x) : get m' f a = get m f a := by
  unfold get
  apply load_congr
  intro x h1 h2
  apply h x <;> cases f <;> simp only [Field.off, Field.width] at h1 h2 ⊢ <;> omega

theorem get_set_self (m : Mem) (f : Field) (a v : ℕ) :
    get (set m f a v) f a = v % 256 ^ f.width := load_store

theorem get_set_prev (hv : v < 2 ^ 64) : get (set m .prev a v) .prev a = v := by
  rw [get_set_self]; simp only [Field.width]; omega

theorem get_set_next (hv : v < 2 ^ 64) : get (set m .next a v) .next a = v := by
  rw [get_set_self]; simp only [Field.width]; omega

theorem get_set_size (hv : v < 2 ^ 32) : get (set m .size a v) .size a = v := by
  rw [get_set_self]; simp only [Field.width]; omega

theorem get_set_field (h : f ≠ g) : get (set m f a v) g a = get m g a := by
  unfold get set
  apply load_store_of_disjoint
  cases f <;> cases g <;> simp_all only [Field.off, Field.width, ne_eq, not_true_eq_false,
    reduceCtorEq, not_false_eq_true] <;> omega

theorem set_apply (x : ℕ) (h : x < a ∨ a + 24 ≤ x) : set m f a v x = m x := by
  unfold set
  apply store_apply_of_disjoint
  cases f <;> simp only [Field.off, Field.width] <;> omega

theorem get_set_far (h : Far a b) : get (set m f a v) g b = get m g b :=
  get_congr fun x h1 h2 => set_apply x (by unfold Far at h; omega)

/-! ## Runs -/

/-- The chunks of `F` are doubly linked, between `pr` and `nx`. -/
structure Run (m : Mem) (pr : ℕ) (F : List Chunk) (nx : ℕ) : Prop where
  next : Linked (get m .next) (addrs F) nx
  prev : Linked (get m .prev) (addrs F).reverse pr
  size : ∀ c ∈ F, get m .size c.addr = c.size

variable {F G : List Chunk} {c : Chunk} {pr nx : ℕ}

theorem run_nil : Run m pr [] nx := ⟨trivial, trivial, by simp⟩

theorem run_single : Run m pr [c] nx ↔
    get m .next c.addr = nx ∧ get m .prev c.addr = pr ∧ get m .size c.addr = c.size := by
  constructor
  · intro h
    exact ⟨h.next.1, h.prev.1, h.size c List.mem_cons_self⟩
  · rintro ⟨h1, h2, h3⟩
    exact ⟨⟨h1, trivial⟩, ⟨h2, trivial⟩, by simpa using h3⟩

/-- **Runs split and join.** -/
theorem run_append : Run m pr (F ++ G) nx ↔
    Run m pr F (front (addrs G) nx) ∧ Run m (back (addrs F) pr) G nx := by
  constructor
  · rintro ⟨h1, h2, h3⟩
    rw [addrs_append, linked_append] at h1
    rw [addrs_append, List.reverse_append, linked_append, front_reverse] at h2
    exact ⟨⟨h1.1, h2.2, fun c hc => h3 c (List.mem_append_left _ hc)⟩,
      ⟨h1.2, h2.1, fun c hc => h3 c (List.mem_append_right _ hc)⟩⟩
  · rintro ⟨h1, h2⟩
    refine ⟨?_, ?_, ?_⟩
    · rw [addrs_append, linked_append]
      exact ⟨h1.next, h2.next⟩
    · rw [addrs_append, List.reverse_append, linked_append, front_reverse]
      exact ⟨h2.prev, h1.prev⟩
    · intro c hc
      rcases List.mem_append.1 hc with h | h
      · exact h1.size c h
      · exact h2.size c h

theorem run_cons : Run m pr (c :: F) nx ↔ (get m .next c.addr = front (addrs F) nx ∧
    get m .prev c.addr = pr ∧ get m .size c.addr = c.size) ∧ Run m c.addr F nx := by
  rw [show c :: F = [c] ++ F from rfl, run_append, run_single]
  rfl

/-- A run depends only on the headers of its chunks. -/
theorem Run.congr (h : Run m pr F nx) (hg : ∀ c ∈ F, ∀ f, get m' f c.addr = get m f c.addr) :
    Run m' pr F nx := by
  refine ⟨h.next.congr ?_, h.prev.congr ?_, fun c hc => (hg c hc _).trans (h.size c hc)⟩
  · intro a ha
    obtain ⟨c, hc, rfl⟩ := mem_addrs.1 ha
    exact hg c hc _
  · intro a ha
    obtain ⟨c, hc, rfl⟩ := mem_addrs.1 (List.mem_reverse.1 ha)
    exact hg c hc _

/-- **A write to another header leaves a run alone.** -/
theorem Run.set_far (h : Run m pr F nx) (ha : ∀ c ∈ F, Far a c.addr) : Run (set m f a v) pr F nx :=
  h.congr fun c hc _ => get_set_far (ha c hc)

theorem Sorted.far (hs : Sorted (F ++ G)) {b c : Chunk} (hb : b ∈ F) (hc : c ∈ G) :
    Far b.addr c.addr := by
  have := (List.pairwise_append.1 hs).2.2 b hb c hc
  unfold Chunk.fin at this
  unfold Far; omega

theorem Sorted.far_cons (hs : Sorted (c :: F)) {b : Chunk} (hb : b ∈ F) : Far c.addr b.addr :=
  Sorted.far (F := [c]) hs List.mem_cons_self hb

/-- The guarded write `if (x) x->prev = v` at the first chunk of `F`. -/
def linkPrev (m : Mem) (F : List Chunk) (v : ℕ) : Mem :=
  if front (addrs F) NULL ≠ NULL then set m .prev (front (addrs F) NULL) v else m

/-- The guarded write `if (x) x->next = v` at the last chunk of `F`. -/
def linkNext (m : Mem) (F : List Chunk) (v : ℕ) : Mem :=
  if back (addrs F) NULL ≠ NULL then set m .next (back (addrs F) NULL) v else m

theorem Run.of_linkPrev (h : Run m pr F nx) (hs : Sorted F) (h0 : ∀ c ∈ F, c.addr ≠ NULL)
    (hv : v < 2 ^ 64) : Run (linkPrev m F v) v F nx := by
  cases F with
  | nil => exact run_nil
  | cons c F =>
    unfold linkPrev
    rw [addrs_cons, front_cons, if_pos (h0 c List.mem_cons_self)]
    rw [run_cons] at h ⊢
    rw [get_set_prev hv, get_set_field (by decide), get_set_field (by decide)]
    exact ⟨⟨h.1.1, rfl, h.1.2.2⟩, h.2.set_far fun b hb => hs.far_cons hb⟩

theorem Run.of_linkNext (h : Run m pr F nx) (hs : Sorted F) (h0 : ∀ c ∈ F, c.addr ≠ NULL)
    (hv : v < 2 ^ 64) : Run (linkNext m F v) pr F v := by
  rcases List.eq_nil_or_concat' F with rfl | ⟨K, c, rfl⟩
  · exact run_nil
  · unfold linkNext
    have hb : back (addrs (K ++ [c])) NULL = c.addr := by simp
    rw [hb, if_pos (h0 c (by simp))]
    rw [run_append, run_single] at h ⊢
    rw [get_set_next hv, get_set_field (by decide), get_set_field (by decide)]
    exact ⟨h.1.set_far fun b hb => (hs.far hb List.mem_cons_self).symm, rfl, h.2.2⟩

theorem linkPrev_far (h : ∀ c ∈ F, Far c.addr a) : get (linkPrev m F v) g a = get m g a := by
  cases F with
  | nil => rfl
  | cons c F =>
    unfold linkPrev
    split
    · exact get_set_far (h c List.mem_cons_self)
    · rfl

theorem linkNext_far (h : ∀ c ∈ F, Far c.addr a) : get (linkNext m F v) g a = get m g a := by
  unfold linkNext
  split
  · rcases List.eq_nil_or_concat' F with rfl | ⟨K, c, rfl⟩
    · rename_i h0; exact absurd rfl h0
    · have hb : back (addrs (K ++ [c])) NULL = c.addr := by simp
      rw [hb]
      exact get_set_far (h c (by simp))
  · rfl

theorem Run.of_linkPrev_far (h : Run m pr G nx) (hF : ∀ c ∈ F, ∀ d ∈ G, Far c.addr d.addr) :
    Run (linkPrev m F v) pr G nx :=
  h.congr fun d hd _ => linkPrev_far fun c hc => hF c hc d hd

theorem Run.of_linkNext_far (h : Run m pr G nx) (hF : ∀ c ∈ F, ∀ d ∈ G, Far c.addr d.addr) :
    Run (linkNext m F v) pr G nx :=
  h.congr fun d hd _ => linkNext_far fun c hc => hF c hc d hd

/-! ## What the writes leave alone -/

/-- The two memories differ only inside the chunks of `F`. -/
def Agree (F : List Chunk) (m m' : Mem) : Prop := ∀ x, (∀ c ∈ F, ¬ c.Has x) → m' x = m x

theorem Agree.refl (F : List Chunk) (m : Mem) : Agree F m m := fun _ _ => rfl

theorem Agree.trans {m'' : Mem} (h : Agree F m m') (h' : Agree F m' m'') : Agree F m m'' :=
  fun x hx => (h' x hx).trans (h x hx)

/-- A header inside a chunk of `F` may be written. -/
theorem Agree.write (h : Agree F m m') (hc : c ∈ F) (h1 : c.addr ≤ a) (h2 : a + 24 ≤ c.fin) :
    Agree F m (set m' f a v) := by
  intro x hx
  have := hx c hc
  rw [set_apply x (by unfold Chunk.Has at this; omega), h x hx]

theorem Agree.header (h : Agree F m m') (hc : c ∈ F) : Agree F m (set m' f c.addr v) :=
  h.write hc le_rfl (by unfold Chunk.fin; omega)

theorem Agree.of_linkPrev {H : List Chunk} (h : Agree H m m') (hF : ∀ c ∈ F, c ∈ H) :
    Agree H m (linkPrev m' F v) := by
  unfold linkPrev
  split
  · cases F with
    | nil => rename_i h0; exact absurd rfl h0
    | cons c F => exact h.header (hF c List.mem_cons_self)
  · exact h

theorem Agree.of_linkNext {H : List Chunk} (h : Agree H m m') (hF : ∀ c ∈ F, c ∈ H) :
    Agree H m (linkNext m' F v) := by
  unfold linkNext
  split
  · rcases List.eq_nil_or_concat' F with rfl | ⟨K, c, rfl⟩
    · rename_i h0; exact absurd rfl h0
    · have hb : back (addrs (K ++ [c])) NULL = c.addr := by simp
      rw [hb]
      exact h.header (hF c (by simp))
  · exact h

theorem Agree.mono (h : Agree F m m') (hF : ∀ c ∈ F, ∀ x, c.Has x → ∃ d ∈ G, d.Has x) :
    Agree G m m' := by
  intro x hx
  refine h x fun c hc hcx => ?_
  obtain ⟨d, hd, hdx⟩ := hF c hc x hcx
  exact hx d hd hdx

end Nettapus
