import Mathlib.Algebra.GroupWithZero.Nat
import Mathlib.Data.List.Induction
import Mathlib.Order.Nat
import Mathlib.Tactic.Common

/-!
# Trees of linked nodes

Nodes with numbered children, as radix trees have them: `walk` follows a path from a
node. `IsForest` says that the paths from some roots, up to a depth, lead to different
nodes, but for the paths through shared children of the roots.

* `Link`, `IsForest.walk_link`, `IsForest.link`: a fresh node below a node of the forest.
* `Adopt`, `IsForest.walk_adopt`, `IsForest.adopt`: a fresh root that shares its only
  child with another root.
-/

namespace Forest

variable {α ι : Type*} {c c' : α → ι → Option α} {R : α → Prop} {s : ι → Prop} {d : ℕ}
variable {r r₀ t n m : α} {i : ι} {p q p₀ : List ι}

/-- The node at the end of a path. -/
def walk (c : α → ι → Option α) (t : α) : List ι → Option α
  | [] => some t
  | i :: p => (c t i).bind fun t' => walk c t' p

@[simp] theorem walk_nil : walk c t [] = some t := rfl

theorem walk_cons : walk c t (i :: p) = (c t i).bind fun t' => walk c t' p := rfl

theorem walk_singleton : walk c t [i] = c t i := by
  rw [walk_cons]
  cases c t i <;> rfl

theorem walk_append : walk c t (p ++ q) = (walk c t p).bind fun t' => walk c t' q := by
  induction p generalizing t with
  | nil => rfl
  | cons i p ih =>
    rw [List.cons_append, walk_cons, walk_cons]
    cases c t i with
    | none => rfl
    | some t' => exact ih

theorem walk_snoc : walk c t (p ++ [i]) = (walk c t p).bind fun t' => c t' i := by
  rw [walk_append]
  congr 1
  funext t'
  exact walk_singleton

theorem walk_snoc_eq_some : walk c t (p ++ [i]) = some n ↔ ∃ t', walk c t p = some t' ∧ c t' i = some n := by
  rw [walk_snoc, Option.bind_eq_some_iff]

/-- The path begins with a shared child. -/
def Shared (s : ι → Prop) : List ι → Prop
  | [] => False
  | i :: _ => s i

theorem Shared.append (h : Shared s p) : Shared s (p ++ q) := by
  cases p with
  | nil => exact h.elim
  | cons i p => exact h

/-- A node of the forest. -/
def Node (c : α → ι → Option α) (R : α → Prop) (d : ℕ) (n : α) : Prop :=
  ∃ r p, R r ∧ p.length ≤ d ∧ walk c r p = some n

/-- **A forest**: a node is at one path of one root, or shared. -/
def IsForest (c : α → ι → Option α) (R : α → Prop) (s : ι → Prop) (d : ℕ) : Prop :=
  ∀ ⦃r r' p q n⦄, R r → R r' → p.length ≤ d → q.length ≤ d →
    walk c r p = some n → walk c r' q = some n → p = q ∧ (r = r' ∨ Shared s p)

/-- Without shared children a node determines its path. -/
theorem IsForest.path_eq (h : IsForest c R s d) {r' : α} (hr : R r) (hr' : R r') (hp : p.length ≤ d)
    (hq : q.length ≤ d) (h1 : walk c r p = some n) (h2 : walk c r' q = some n) : p = q :=
  (h hr hr' hp hq h1 h2).1

/-! ## A fresh child -/

/-- `n` becomes the child `i` of `t`, and nothing but the children of `n` changes besides. -/
structure Link (c c' : α → ι → Option α) (t : α) (i : ι) (n : α) : Prop where
  old : c t i = none
  new : c' t i = some n
  same : ∀ a j, a ≠ n → (a ≠ t ∨ j ≠ i) → c' a j = c a j

/-- **The paths after a link**: the old ones, and the path to the new node. -/
theorem IsForest.walk_link (h : IsForest c R s d) (hl : Link c c' t i n) (hr₀ : R r₀)
    (ht : walk c r₀ p₀ = some t) (hp₀ : p₀.length < d) (hn : ¬ Node c R d n)
    (hz : p₀.length + 1 < d → ∀ j, c' n j = none) (hr : R r) :
    ∀ q : List ι, q.length ≤ d → ∀ m,
      (walk c' r q = some m ↔ walk c r q = some m ∨ (m = n ∧ q = p₀ ++ [i] ∧ walk c r p₀ = some t)) := by
  intro q
  -- from the root down: the last edge of the path is the new one, or an old one
  induction q using List.reverseRecOn with
  | nil =>
    intro _ m
    simp
  | append_singleton q j ih =>
    intro hq m
    rw [List.length_append, List.length_singleton] at hq
    have hq' : q.length ≤ d := by omega
    have ih := ih hq'
    have htn : t ≠ n := fun e => hn ⟨r₀, p₀, hr₀, hp₀.le, e ▸ ht⟩
    rw [walk_snoc_eq_some, walk_snoc_eq_some]
    constructor
    · rintro ⟨a, ha, hm⟩
      rcases (ih a).1 ha with ha | ⟨rfl, hqe, -⟩
      · have han : a ≠ n := fun e => hn ⟨r, q, hr, hq', e ▸ ha⟩
        by_cases he : a = t ∧ j = i
        · obtain ⟨rfl, rfl⟩ := he
          have hqp := h.path_eq hr hr₀ hq' hp₀.le ha ht
          rw [hl.new] at hm
          exact Or.inr ⟨(Option.some.inj hm).symm, by rw [hqp], by rw [← hqp]; exact ha⟩
        · rw [hl.same a j han (by tauto)] at hm
          exact Or.inl ⟨a, ha, hm⟩
      · have hlen : q.length = p₀.length + 1 := by rw [hqe]; simp
        rw [hz (by omega) j] at hm
        cases hm
    · rintro (⟨a, ha, hm⟩ | ⟨rfl, hqe, hw⟩)
      · have han : a ≠ n := fun e => hn ⟨r, q, hr, hq', e ▸ ha⟩
        have he : a ≠ t ∨ j ≠ i := by
          by_contra hc
          push Not at hc
          rw [hc.1, hc.2, hl.old] at hm
          cases hm
        exact ⟨a, (ih a).2 (Or.inl ha), by rw [hl.same a j han he]; exact hm⟩
      · obtain ⟨rfl, hj⟩ := List.append_inj' hqe rfl
        obtain rfl := (List.cons.inj hj).1
        exact ⟨t, (ih t).2 (Or.inl hw), hl.new⟩

/-- **A link keeps the forest.** -/
theorem IsForest.link (h : IsForest c R s d) (hl : Link c c' t i n) (hr₀ : R r₀)
    (ht : walk c r₀ p₀ = some t) (hp₀ : p₀.length < d) (hn : ¬ Node c R d n)
    (hz : p₀.length + 1 < d → ∀ j, c' n j = none) : IsForest c' R s d := by
  intro r r' p q m hr hr' hp hq h1 h2
  rcases (h.walk_link hl hr₀ ht hp₀ hn hz hr p hp m).1 h1 with o1 | ⟨rfl, rfl, o1⟩
  · rcases (h.walk_link hl hr₀ ht hp₀ hn hz hr' q hq m).1 h2 with o2 | ⟨rfl, -, -⟩
    · exact h hr hr' hp hq o1 o2
    · exact absurd ⟨r, p, hr, hp, o1⟩ hn
  · rcases (h.walk_link hl hr₀ ht hp₀ hn hz hr' q hq m).1 h2 with o2 | ⟨-, rfl, o2⟩
    · exact absurd ⟨r', q, hr', hq, o2⟩ hn
    · exact ⟨rfl, (h hr hr' hp₀.le hp₀.le o1 o2).2.imp id Shared.append⟩

/-- A link adds one node. -/
theorem IsForest.node_link (h : IsForest c R s d) (hl : Link c c' t i n) (hr₀ : R r₀)
    (ht : walk c r₀ p₀ = some t) (hp₀ : p₀.length < d) (hn : ¬ Node c R d n)
    (hz : p₀.length + 1 < d → ∀ j, c' n j = none) (hm : Node c' R d m) : Node c R d m ∨ m = n := by
  obtain ⟨r, p, hr, hp, hw⟩ := hm
  rcases (h.walk_link hl hr₀ ht hp₀ hn hz hr p hp m).1 hw with hw | ⟨rfl, -, -⟩
  · exact Or.inl ⟨r, p, hr, hp, hw⟩
  · exact Or.inr rfl

/-! ## A fresh root -/

/-- `r` becomes a root whose only child is the child `i` of `r₀`. -/
structure Adopt (c c' : α → ι → Option α) (r₀ : α) (i : ι) (r : α) : Prop where
  new : c' r i = c r₀ i
  none : ∀ j, j ≠ i → c' r j = none
  same : ∀ a j, a ≠ r → c' a j = c a j

/-- Outside the new root nothing changes. -/
theorem Adopt.walk_eq (ha : Adopt c c' r₀ i r) (hn : ¬ Node c R d r) {r' : α} (hr' : R r') :
    ∀ p : List ι, p.length ≤ d → walk c' r' p = walk c r' p := by
  intro p
  induction p using List.reverseRecOn with
  | nil => intro _; rfl
  | append_singleton p j ih =>
    intro hp
    rw [List.length_append, List.length_singleton] at hp
    rw [walk_snoc, walk_snoc, ih (by omega)]
    cases hw : walk c r' p with
    | none => rfl
    | some a => exact ha.same a j fun e => hn ⟨r', p, hr', by omega, e ▸ hw⟩

/-- **The paths of the new root**: itself, and the shared ones. -/
theorem IsForest.walk_adopt (ha : Adopt c c' r₀ i r) (hn : ¬ Node c R d r) (hr₀ : R r₀)
    (hp : p.length ≤ d) (hw : walk c' r p = some m) :
    (p = [] ∧ m = r) ∨ ∃ q, p = i :: q ∧ walk c r₀ p = some m := by
  cases p with
  | nil => exact Or.inl ⟨rfl, (Option.some.inj hw).symm⟩
  | cons j p =>
    right
    rw [walk_cons] at hw
    by_cases hj : j = i
    · obtain rfl := hj
      refine ⟨p, rfl, ?_⟩
      rw [← ha.walk_eq hn hr₀ _ hp, walk_cons]
      by_cases hrr : r₀ = r
      · exact absurd ⟨r₀, [], hr₀, Nat.zero_le _, by rw [hrr]; rfl⟩ hn
      · rw [ha.same r₀ j hrr, ← ha.new]
        exact hw
    · rw [ha.none j hj] at hw
      cases hw

/-- **An adoption keeps the forest.** -/
theorem IsForest.adopt (h : IsForest c R s d) (ha : Adopt c c' r₀ i r) (hn : ¬ Node c R d r)
    (hr₀ : R r₀) (hi : s i) : IsForest c' (fun a => R a ∨ a = r) s d := by
  -- a path of the new root is its own, or one of `r₀` through the shared child
  have hnew : ∀ p m, p.length ≤ d → walk c' r p = some m →
      (p = [] ∧ m = r) ∨ (Shared s p ∧ walk c r₀ p = some m) := by
    intro p m hp hw
    rcases walk_adopt ha hn hr₀ hp hw with h | ⟨q, rfl, hw⟩
    · exact Or.inl h
    · exact Or.inr ⟨hi, hw⟩
  have hne : ∀ {r' p}, R r' → p.length ≤ d → walk c r' p ≠ some r := fun hr' hp hw => hn ⟨_, _, hr', hp, hw⟩
  rintro r₁ r₂ p q m (h1 | rfl) (h2 | rfl) hp hq hw1 hw2
  · rw [ha.walk_eq hn h1 p hp] at hw1
    rw [ha.walk_eq hn h2 q hq] at hw2
    exact h h1 h2 hp hq hw1 hw2
  · rw [ha.walk_eq hn h1 p hp] at hw1
    rcases hnew q m hq hw2 with ⟨-, rfl⟩ | ⟨hs, hw2⟩
    · exact absurd hw1 (hne h1 hp)
    · obtain rfl := h.path_eq h1 hr₀ hp hq hw1 hw2
      exact ⟨rfl, Or.inr hs⟩
  · rw [ha.walk_eq hn h2 q hq] at hw2
    rcases hnew p m hp hw1 with ⟨-, rfl⟩ | ⟨hs, hw1⟩
    · exact absurd hw2 (hne h2 hq)
    · exact ⟨h.path_eq hr₀ h2 hp hq hw1 hw2, Or.inr hs⟩
  · rcases hnew p m hp hw1 with ⟨rfl, rfl⟩ | ⟨-, hw1'⟩
    · rcases hnew q _ hq hw2 with ⟨rfl, -⟩ | ⟨-, hw2⟩
      · exact ⟨rfl, Or.inl rfl⟩
      · exact absurd hw2 (hne hr₀ hq)
    · rcases hnew q m hq hw2 with ⟨-, rfl⟩ | ⟨-, hw2⟩
      · exact absurd hw1' (hne hr₀ hp)
      · exact ⟨h.path_eq hr₀ hr₀ hp hq hw1' hw2, Or.inl rfl⟩

/-- Nodes after an adoption. -/
theorem Adopt.node (ha : Adopt c c' r₀ i r) (hn : ¬ Node c R d r) (hr₀ : R r₀)
    (hm : Node c' (fun a => R a ∨ a = r) d m) : Node c R d m ∨ m = r := by
  obtain ⟨r', p, hr' | rfl, hp, hw⟩ := hm
  · rw [ha.walk_eq hn hr' p hp] at hw
    exact Or.inl ⟨r', p, hr', hp, hw⟩
  · rcases IsForest.walk_adopt ha hn hr₀ hp hw with ⟨-, h⟩ | ⟨q, -, hw⟩
    · exact Or.inr h
    · exact Or.inl ⟨r₀, p, hr₀, hp, hw⟩

end Forest
