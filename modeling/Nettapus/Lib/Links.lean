import Mathlib.Algebra.GroupWithZero.Nat
import Mathlib.Data.List.Basic
import Mathlib.Logic.Function.Basic
import Mathlib.Order.Nat
import Mathlib.Tactic.Common

/-!
# Lists threaded through a link field

`Linked nxt L e` says that the link of every node of `L` is the node after it, and
that the link of the last one is `e`. A singly linked list is one `Linked` fact, a
doubly linked one is two of them, the second over the reversed list. Pointer
surgery is then three rules:

* `linked_append`: a list is linked iff its parts are, each ending where the next
  one starts;
* `Linked.congr`: only the links of the nodes matter;
* `Linked.redirect`: rewriting the link of the last node redirects the list.

`Fifo nxt null first last L` is a queue with two end pointers: `L` is linked from
`first` to `last`. `Fifo.push`, `Fifo.cons` and `Fifo.pop` are its operations.
-/

namespace Links

variable {α : Type*}

/-- The first node of a list, or `e`. -/
def front (L : List α) (e : α) : α :=
  match L with
  | [] => e
  | a :: _ => a

/-- The last node of a list, or `e`. -/
def back : List α → α → α
  | [], e => e
  | a :: L, _ => back L a

/-- The links of the nodes of `L`: each to the next one, the last one to `e`. -/
def Linked (nxt : α → α) : List α → α → Prop
  | [], _ => True
  | a :: L, e => nxt a = front L e ∧ Linked nxt L e

variable {nxt nxt' : α → α} {L M : List α} {a b e e' : α}

@[simp] theorem front_nil (e : α) : front [] e = e := rfl

@[simp] theorem front_cons (a : α) (L : List α) (e : α) : front (a :: L) e = a := rfl

@[simp] theorem back_nil (e : α) : back [] e = e := rfl

@[simp] theorem back_cons (a : α) (L : List α) (e : α) : back (a :: L) e = back L a := rfl

@[simp] theorem front_append (L M : List α) (e : α) : front (L ++ M) e = front L (front M e) := by
  cases L <;> rfl

@[simp] theorem back_append (L M : List α) (e : α) : back (L ++ M) e = back M (back L e) := by
  induction L generalizing e with
  | nil => rfl
  | cons a L ih => simp only [List.cons_append, back_cons, ih]

@[simp] theorem front_reverse (L : List α) (e : α) : front L.reverse e = back L e := by
  induction L generalizing e with
  | nil => rfl
  | cons a L ih => rw [List.reverse_cons, front_append, back_cons, ih]; rfl

@[simp] theorem linked_nil : Linked nxt [] e := trivial

@[simp] theorem linked_cons : Linked nxt (a :: L) e ↔ nxt a = front L e ∧ Linked nxt L e := Iff.rfl

theorem front_mem (e : α) (h : L ≠ []) : front L e ∈ L := by
  cases L with
  | nil => exact absurd rfl h
  | cons a L => exact List.mem_cons_self

theorem back_mem (e : α) (h : L ≠ []) : back L e ∈ L := by
  rw [← front_reverse, ← List.mem_reverse]
  exact front_mem e (by simpa using h)

/-- The front of a non-empty list does not depend on the default. -/
theorem front_of_ne_nil (e e' : α) (h : L ≠ []) : front L e = front L e' := by
  cases L with
  | nil => exact absurd rfl h
  | cons a L => rfl

theorem back_of_ne_nil (e e' : α) (h : L ≠ []) : back L e = back L e' := by
  rw [← front_reverse, ← front_reverse, front_of_ne_nil e e' (by simpa using h)]

/-- **A list is linked iff its parts are.** -/
theorem linked_append : Linked nxt (L ++ M) e ↔ Linked nxt L (front M e) ∧ Linked nxt M e := by
  induction L with
  | nil => simp
  | cons a L ih => simp only [List.cons_append, linked_cons, front_append, ih, and_assoc]

/-- A list of links is known by its first element and its end. -/
theorem Linked.unique {M : List α} (hL : Linked nxt L e) (hM : Linked nxt M e) (heL : e ∉ L) (heM : e ∉ M)
    (h : front L e = front M e) : L = M := by
  induction L generalizing M with
  | nil =>
    cases M with
    | nil => rfl
    | cons b M => exact absurd (show e ∈ b :: M from (show e = b from h) ▸ List.mem_cons_self) heM
  | cons a L ih =>
    cases M with
    | nil => exact absurd (show e ∈ a :: L from (show a = e from h) ▸ List.mem_cons_self) heL
    | cons b M =>
      obtain rfl : a = b := h
      rw [ih hL.2 hM.2 (fun h => heL (List.mem_cons_of_mem _ h)) (fun h => heM (List.mem_cons_of_mem _ h))
        (hL.1.symm.trans hM.1)]

/-- **Only the links of the nodes matter.** -/
theorem Linked.congr (h : Linked nxt L e) (hn : ∀ a ∈ L, nxt' a = nxt a) : Linked nxt' L e := by
  induction L with
  | nil => trivial
  | cons a L ih =>
    exact ⟨(hn a List.mem_cons_self).trans h.1, ih h.2 fun x hx => hn x (List.mem_cons_of_mem _ hx)⟩

/-- **Rewriting the link of the last node redirects the list.** -/
theorem Linked.redirect (h : Linked nxt (L ++ [b]) e) (hb : nxt' b = e')
    (hn : ∀ a ∈ L, nxt' a = nxt a) : Linked nxt' (L ++ [b]) e' := by
  rw [linked_append] at h ⊢
  exact ⟨h.1.congr hn, hb, trivial⟩

/-! ## Queues with two end pointers -/

/-- The nodes from `first` to `last`, in order, are `L`; both pointers are `null`
when there are none. The link of the last node is `e`. -/
structure Fifo (nxt : α → α) (null first last : α) (L : List α) (e : α) : Prop where
  first_eq : first = front L null
  last_eq : last = back L null
  linked : Linked nxt L e
  nodup : L.Nodup
  null_notMem : null ∉ L

namespace Fifo

variable {null first last : α}

theorem nil (nxt : α → α) (null e : α) : Fifo nxt null null null [] e :=
  ⟨rfl, rfl, trivial, List.nodup_nil, by simp⟩

/-- The first pointer is null exactly when the queue is empty. -/
theorem first_eq_null_iff (h : Fifo nxt null first last L e) : first = null ↔ L = [] := by
  rw [h.first_eq]
  constructor
  · intro h1
    by_contra hne
    exact h.null_notMem (h1 ▸ front_mem null hne)
  · rintro rfl; rfl

theorem last_eq_null_iff (h : Fifo nxt null first last L e) : last = null ↔ L = [] := by
  rw [h.last_eq]
  constructor
  · intro h1
    by_contra hne
    exact h.null_notMem (h1 ▸ back_mem null hne)
  · rintro rfl; rfl

theorem last_mem (h : Fifo nxt null first last L e) (hne : L ≠ []) : last ∈ L :=
  h.last_eq ▸ back_mem null hne

/-- The first node and the links determine the queue. -/
theorem unique {last' : α} {M : List α} (h : Fifo nxt null first last L null) (h' : Fifo nxt null first last' M null) :
    L = M :=
  h.linked.unique h'.linked h.null_notMem h'.null_notMem (h.first_eq.symm.trans h'.first_eq)

/-- A queue only depends on the links of its nodes. -/
theorem congr (h : Fifo nxt null first last L e) (hn : ∀ a ∈ L, nxt' a = nxt a) :
    Fifo nxt' null first last L e :=
  ⟨h.first_eq, h.last_eq, h.linked.congr hn, h.nodup, h.null_notMem⟩

/-- Rewriting the link of the last node changes the end of the queue only. -/
theorem redirect (h : Fifo nxt null first last L e) (hn : ∀ a ∈ L, a ≠ last → nxt' a = nxt a)
    (he : L ≠ [] → nxt' last = e') : Fifo nxt' null first last L e' := by
  refine ⟨h.first_eq, h.last_eq, ?_, h.nodup, h.null_notMem⟩
  rcases List.eq_nil_or_concat' L with rfl | ⟨K, b, rfl⟩
  · trivial
  · have hl : last = b := by rw [h.last_eq]; simp
    subst hl
    refine h.linked.redirect (he (by simp)) fun a ha => hn a (by simp [ha]) ?_
    rintro rfl
    have hnd := h.nodup
    simp only [List.nodup_append, List.mem_singleton] at hnd
    exact hnd.2.2 a ha a rfl rfl

/-- **Appending at the end.** The old last node is linked to the new one, or the
new node is the only one. -/
theorem push (h : Fifo nxt null first last L e) (ha : a ∉ L) (ha0 : a ≠ null)
    (hn : ∀ x ∈ L, x ≠ last → nxt' x = nxt x) (hl : L ≠ [] → nxt' last = a) (hae : nxt' a = e') :
    Fifo nxt' null (front L a) a (L ++ [a]) e' := by
  refine ⟨by simp, by simp, ?_, ?_, ?_⟩
  · rw [linked_append]
    exact ⟨(h.redirect hn hl).linked, hae, trivial⟩
  · rw [List.nodup_append]
    refine ⟨h.nodup, by simp, fun x hx y hy => ?_⟩
    rw [List.mem_singleton] at hy
    rintro rfl
    exact ha (hy ▸ hx)
  · simp only [List.mem_append, List.mem_singleton, not_or]
    exact ⟨h.null_notMem, fun h0 => ha0 h0.symm⟩

/-- **Putting a node in front.** -/
theorem cons (h : Fifo nxt null first last L e) (ha : a ∉ L) (ha0 : a ≠ null)
    (hn : ∀ x ∈ L, nxt' x = nxt x) (hl : nxt' a = front L e) :
    Fifo nxt' null a (back L a) (a :: L) e := by
  refine ⟨rfl, rfl, ⟨hl, h.linked.congr hn⟩, List.nodup_cons.2 ⟨ha, h.nodup⟩, ?_⟩
  simp only [List.mem_cons, not_or]
  exact ⟨fun h0 => ha0 h0.symm, h.null_notMem⟩

/-- The end pointers agree exactly when the queue has one node. -/
theorem first_eq_last_iff (h : Fifo nxt null first last (a :: L) e) : first = last ↔ L = [] := by
  have hnd := (List.nodup_cons.1 h.nodup).1
  rw [h.first_eq, h.last_eq, front_cons, back_cons]
  constructor
  · intro h1
    by_contra hne
    have hb := back_mem a hne
    rw [← h1] at hb
    exact hnd hb
  · rintro rfl; rfl

/-- **Taking the first node.** -/
theorem pop (h : Fifo nxt null first last (a :: L) e) (hn : ∀ x ∈ L, nxt' x = nxt x) :
    Fifo nxt' null (front L null) (back L null) L e := by
  have h0 := h.null_notMem
  simp only [List.mem_cons, not_or] at h0
  exact ⟨rfl, rfl, h.linked.2.congr hn, (List.nodup_cons.1 h.nodup).2, h0.2⟩

end Fifo

end Links
