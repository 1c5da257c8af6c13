import Mathlib.Algebra.GroupWithZero.Nat
import Mathlib.Data.Fintype.Card
import Mathlib.Data.Fintype.EquivFin
import Mathlib.Data.List.Nodup
import Mathlib.Tactic.Common

/-!
# Walks without memory

At every node there is a list of items, and from some of them it goes on to a further node. `trace` is the walk that takes
all the items in order and goes on wherever it can; it does not remember where it was, so it may come to a node more than
once, or never end, and it has a fuel for its depth. It says of every item by what route it came there.

* `trace_isSome_iff`: it ends with some fuel exactly when no way down is infinite, and over finitely many nodes this means
  that no node that it comes to leads back to itself (`acc_iff`).
* `mem_trace`, `trace_nodup`: it comes to every item once by each route.
-/

namespace Walks

variable {α β : Type*} {next : β → List (α × Option β)} {b c d : β} {a : α} {r r' : List α} {l : List (List α × α)} {n m : ℕ}

/-- The items that are taken to get from a node to another. -/
inductive Route (next : β → List (α × Option β)) : β → List α → β → Prop
  | nil (b : β) : Route next b [] b
  | cons {b c d : β} {a : α} {r : List α} (h : (a, some c) ∈ next b) (hr : Route next c r d) : Route next b (a :: r) d

/-- A node that one item leads to. -/
def Child (next : β → List (α × Option β)) (c b : β) : Prop := ∃ a, (a, some c) ∈ next b

/-- The walk over some items, with the walk from a node. -/
def traceItems (walk : β → Option (List (List α × α))) : List (α × Option β) → Option (List (List α × α))
  | [] => some []
  | (a, o) :: items => do
    let below ← o.elim (some []) walk
    let rest ← traceItems walk items
    some (([], a) :: below.map (fun x => (a :: x.1, x.2)) ++ rest)

def trace (next : β → List (α × Option β)) : ℕ → β → Option (List (List α × α))
  | 0, _ => none
  | n + 1, b => traceItems (trace next n) (next b)

section Items

variable {walk walk' : β → Option (List (List α × α))} {o : Option β} {items : List (α × Option β)} {l : List (List α × α)}

theorem traceItems_cons_eq_some : traceItems walk ((a, o) :: items) = some l ↔ ∃ below rest,
    o.elim (some []) walk = some below ∧ traceItems walk items = some rest ∧
      l = ([], a) :: below.map (fun x => (a :: x.1, x.2)) ++ rest := by
  simp only [traceItems, Option.bind_eq_bind, Option.bind_eq_some_iff, Option.some.injEq, eq_comm (a := l)]
  constructor
  · rintro ⟨below, hbelow, rest, hrest, heq⟩
    exact ⟨below, rest, hbelow, hrest, heq⟩
  · rintro ⟨below, rest, hbelow, hrest, heq⟩
    exact ⟨below, hbelow, rest, hrest, heq⟩

/-- The items are walked if all the nodes below them are. -/
theorem traceItems_eq_some (h : ∀ a c, (a, some c) ∈ items → ∃ l, walk c = some l) : ∃ l, traceItems walk items = some l := by
  induction items with
  | nil => exact ⟨[], rfl⟩
  | cons item items ih =>
    obtain ⟨a, o⟩ := item
    obtain ⟨rest, hrest⟩ := ih fun a c hc => h a c (List.mem_cons_of_mem _ hc)
    cases o with
    | none => exact ⟨_, traceItems_cons_eq_some.2 ⟨[], rest, rfl, hrest, rfl⟩⟩
    | some c =>
      obtain ⟨below, hbelow⟩ := h a c List.mem_cons_self
      exact ⟨_, traceItems_cons_eq_some.2 ⟨below, rest, hbelow, hrest, rfl⟩⟩

theorem traceItems_below (h : traceItems walk items = some l) {c : β} (hc : (a, some c) ∈ items) :
    ∃ below, walk c = some below := by
  induction items generalizing l with
  | nil => simp at hc
  | cons item items ih =>
    obtain ⟨below, rest, hbelow, hrest, -⟩ := traceItems_cons_eq_some.1 h
    rcases List.mem_cons.1 hc with rfl | hc
    · exact ⟨below, hbelow⟩
    · exact ih hrest hc

theorem traceItems_mono (hw : ∀ a c l, (a, some c) ∈ items → walk c = some l → walk' c = some l)
    (h : traceItems walk items = some l) : traceItems walk' items = some l := by
  induction items generalizing l with
  | nil => exact h
  | cons item items ih =>
    obtain ⟨a, o⟩ := item
    obtain ⟨below, rest, hbelow, hrest, rfl⟩ := traceItems_cons_eq_some.1 h
    refine traceItems_cons_eq_some.2 ⟨below, rest, ?_, ih (fun a c l hc => hw a c l (List.mem_cons_of_mem _ hc)) hrest, rfl⟩
    cases o with
    | none => exact hbelow
    | some c => exact hw a c below List.mem_cons_self hbelow

/-- What comes of an item: itself, and what is below it. -/
theorem mem_traceItems (h : traceItems walk items = some l) : (r, a) ∈ l ↔ (r = [] ∧ ∃ o, (a, o) ∈ items) ∨
    ∃ a' c r' below, r = a' :: r' ∧ (a', some c) ∈ items ∧ walk c = some below ∧ (r', a) ∈ below := by
  induction items generalizing l with
  | nil =>
    obtain rfl : [] = l := Option.some.inj h
    simp
  | cons item items ih =>
    obtain ⟨a₀, o⟩ := item
    obtain ⟨below, rest, hbelow, hrest, rfl⟩ := traceItems_cons_eq_some.1 h
    have hhead : (∃ x ∈ below, (a₀ :: x.1, x.2) = (r, a)) ↔
        ∃ c r' below, r = a₀ :: r' ∧ o = some c ∧ walk c = some below ∧ (r', a) ∈ below := by
      cases o with
      | none =>
        obtain rfl : [] = below := Option.some.inj hbelow
        simp
      | some c =>
        have hwalk : walk c = some below := hbelow
        constructor
        · rintro ⟨⟨r', a⟩, hx, heq⟩
          obtain ⟨rfl, rfl⟩ := Prod.mk.inj heq
          exact ⟨c, r', below, rfl, rfl, hwalk, hx⟩
        · rintro ⟨c, r', below', rfl, hc, hbelow', hx⟩
          obtain rfl := Option.some.inj hc
          obtain rfl : below = below' := Option.some.inj (hwalk.symm.trans hbelow')
          exact ⟨(r', a), hx, rfl⟩
    rw [List.cons_append, List.mem_cons, List.mem_append, List.mem_map, hhead, ih hrest]
    constructor
    · rintro (heq | ⟨c, r', below, rfl, rfl, hw, hx⟩ | ⟨rfl, o, ho⟩ | ⟨a', c, r', below, rfl, hc, hw, hx⟩)
      · obtain ⟨rfl, rfl⟩ := Prod.mk.inj heq
        exact .inl ⟨rfl, o, List.mem_cons_self⟩
      · exact .inr ⟨a₀, c, r', below, rfl, List.mem_cons_self, hw, hx⟩
      · exact .inl ⟨rfl, o, List.mem_cons_of_mem _ ho⟩
      · exact .inr ⟨a', c, r', below, rfl, List.mem_cons_of_mem _ hc, hw, hx⟩
    · rintro (⟨rfl, o, ho⟩ | ⟨a', c, r', below, rfl, hc, hw, hx⟩)
      · rcases List.mem_cons.1 ho with heq | ho
        · exact .inl (by rw [(Prod.mk.inj heq).1])
        · exact .inr (.inr (.inl ⟨rfl, o, ho⟩))
      · rcases List.mem_cons.1 hc with heq | hc
        · obtain ⟨rfl, rfl⟩ := Prod.mk.inj heq
          exact .inr (.inl ⟨c, r', below, rfl, rfl, hw, hx⟩)
        · exact .inr (.inr (.inr ⟨a', c, r', below, rfl, hc, hw, hx⟩))

/-- Items with different labels have nothing in common. -/
theorem traceItems_nodup (h : traceItems walk items = some l) (hnodup : (items.map Prod.fst).Nodup)
    (hw : ∀ a c below, (a, some c) ∈ items → walk c = some below → below.Nodup) : l.Nodup := by
  induction items generalizing l with
  | nil =>
    obtain rfl : [] = l := Option.some.inj h
    exact List.nodup_nil
  | cons item items ih =>
    obtain ⟨a₀, o⟩ := item
    obtain ⟨below, rest, hbelow, hrest, rfl⟩ := traceItems_cons_eq_some.1 h
    obtain ⟨ha₀, hitems⟩ := List.nodup_cons.1 hnodup
    have hnew : ∀ o, (a₀, o) ∉ items := fun o ho => ha₀ (List.mem_map.2 ⟨_, ho, rfl⟩)
    have hbelow' : below.Nodup := by
      cases o with
      | none =>
        obtain rfl : [] = below := Option.some.inj hbelow
        exact List.nodup_nil
      | some c => exact hw a₀ c below List.mem_cons_self hbelow
    have hinj : Function.Injective fun x : List α × α => (a₀ :: x.1, x.2) := by
      rintro ⟨r, a⟩ ⟨r', a'⟩ heq
      simpa using heq
    rw [List.cons_append]
    refine List.nodup_cons.2 ⟨fun hmem => ?_, (hbelow'.map hinj).append
      (ih hrest hitems fun a c below hc => hw a c below (List.mem_cons_of_mem _ hc)) ?_⟩
    · rcases List.mem_append.1 hmem with hmem | hmem
      · obtain ⟨x, -, heq⟩ := List.mem_map.1 hmem
        simp at heq
      · rcases (mem_traceItems hrest).1 hmem with ⟨-, o, ho⟩ | ⟨_, _, _, _, heq, -⟩
        · exact hnew o ho
        · simp at heq
    · rintro ⟨r, a⟩ hx hy
      obtain ⟨x, -, heq⟩ := List.mem_map.1 hx
      obtain ⟨rfl, rfl⟩ := Prod.mk.inj heq
      rcases (mem_traceItems hrest).1 hy with ⟨heq, -⟩ | ⟨a', c, r', -, heq, hc, -⟩
      · simp at heq
      · obtain ⟨rfl, -⟩ := List.cons.inj heq
        exact hnew _ hc

end Items

/-! ## When it ends -/

theorem trace_succ (h : trace next n b = some l) : trace next (n + 1) b = some l := by
  induction n generalizing b l with
  | zero => simp [trace] at h
  | succ n ih => exact traceItems_mono (fun a c l _ hc => ih hc) h

theorem trace_mono (h : trace next n b = some l) (hnm : n ≤ m) : trace next m b = some l := by
  induction hnm with
  | refl => exact h
  | step _ ih => exact trace_succ ih

/-- What needs some fuel for each of finitely many things needs some for all of them. -/
theorem exists_fuel {γ : Type*} {P : ℕ → γ → Prop} (hmono : ∀ n m x, P n x → n ≤ m → P m x) (items : List γ)
    (h : ∀ x ∈ items, ∃ n, P n x) : ∃ N, ∀ x ∈ items, P N x := by
  induction items with
  | nil => exact ⟨0, by simp⟩
  | cons x items ih =>
    obtain ⟨n, hn⟩ := h x List.mem_cons_self
    obtain ⟨N, hN⟩ := ih fun y hy => h y (List.mem_cons_of_mem _ hy)
    refine ⟨max n N, fun y hy => ?_⟩
    rcases List.mem_cons.1 hy with rfl | hy
    · exact hmono _ _ _ hn (le_max_left _ _)
    · exact hmono _ _ _ (hN y hy) (le_max_right _ _)

/-- **The end**: with enough fuel the walk ends exactly when no way down goes on for ever. -/
theorem trace_isSome_iff : (∃ n l, trace next n b = some l) ↔ Acc (Child next) b := by
  constructor
  · rintro ⟨n, l, h⟩
    induction n generalizing b l with
    | zero => simp [trace] at h
    | succ n ih =>
      refine ⟨_, fun c ⟨a, hc⟩ => ?_⟩
      obtain ⟨below, hbelow⟩ := traceItems_below h hc
      exact ih below hbelow
  · intro h
    induction h with
    | intro b _ ih =>
      obtain ⟨N, hN⟩ := exists_fuel (P := fun n (x : α × Option β) => ∀ c, x.2 = some c → ∃ l, trace next n c = some l)
        (fun n m x hx hnm c hc => (hx c hc).imp fun l hl => trace_mono hl hnm) (next b) fun x hx => by
          obtain ⟨a, o⟩ := x
          cases o with
          | none => exact ⟨0, by simp⟩
          | some c => exact (ih c ⟨a, hx⟩).imp fun n hn c' hc' => (Option.some.inj hc') ▸ hn
      obtain ⟨l, hl⟩ := traceItems_eq_some fun a c hc => hN _ hc c rfl
      exact ⟨N + 1, l, hl⟩

theorem Route.acc (h : Route next b r c) (hb : Acc (Child next) b) : Acc (Child next) c := by
  induction h with
  | nil => exact hb
  | cons hc _ ih => exact ih (hb.inv ⟨_, hc⟩)

theorem Route.append (h : Route next b r c) (h' : Route next c r' d) : Route next b (r ++ r') d := by
  induction h with
  | nil => exact h'
  | cons hc _ ih => exact .cons hc (ih h')

/-- A route that takes an item at all goes down. -/
theorem transGen_iff : Relation.TransGen (Child next) c b ↔ ∃ r, r ≠ [] ∧ Route next b r c := by
  constructor
  · intro h
    induction h with
    | single h =>
      obtain ⟨a, ha⟩ := h
      exact ⟨[a], by simp, .cons ha (.nil _)⟩
    | tail _ h ih =>
      obtain ⟨a, ha⟩ := h
      obtain ⟨r, -, hr⟩ := ih
      exact ⟨a :: r, by simp, .cons ha hr⟩
  · rintro ⟨r, hne, hr⟩
    induction hr with
    | nil => exact absurd rfl hne
    | @cons b c d a r hc hr ih =>
      by_cases hnil : r = []
      · subst hnil
        cases hr
        exact .single ⟨a, hc⟩
      · exact (ih hnil).tail ⟨a, hc⟩

theorem acc_irrefl {R : β → β → Prop} (h : Acc R b) : ¬ R b b := by
  induction h with
  | intro b _ ih => exact fun hb => ih b hb hb

/-- **Finitely many nodes**: the ways down end exactly when no node on them leads back to itself. -/
theorem acc_iff [Finite β] : Acc (Child next) b ↔ ∀ c r r', Route next b r c → Route next c r' c → r' = [] := by
  constructor
  · intro h c r r' hr hr'
    by_contra hne
    exact acc_irrefl (hr.acc h).transGen (transGen_iff.2 ⟨r', hne, hr'⟩)
  · intro h
    let Below := { c // ∃ r, Route next b r c }
    have hfinite : Finite Below := Subtype.finite
    let R : Below → Below → Prop := fun x y => Relation.TransGen (Child next) x.1 y.1
    have htrans : IsTrans Below R := ⟨fun _ _ _ => Relation.TransGen.trans⟩
    have hirrefl : Std.Irrefl R := by
      refine ⟨fun x hx => ?_⟩
      obtain ⟨r', hne, hr'⟩ := transGen_iff.1 hx
      obtain ⟨r, hr⟩ := x.2
      exact hne (h x.1 r r' hr hr')
    have hacc : ∀ x : Below, Acc (Child next) x.1 := by
      intro x
      have hx : Acc R x := (Finite.wellFounded_of_trans_of_irrefl R).apply x
      induction hx with
      | intro x _ ih =>
        refine ⟨_, fun c ⟨a, hc⟩ => ?_⟩
        obtain ⟨r, hr⟩ := x.2
        exact ih ⟨c, r ++ [a], hr.append (.cons hc (.nil c))⟩ (.single ⟨a, hc⟩)
    exact hacc ⟨b, [], .nil b⟩

/-! ## Where it comes to -/

theorem mem_trace (h : trace next n b = some l) : (r, a) ∈ l ↔ ∃ c o, Route next b r c ∧ (a, o) ∈ next c := by
  induction n generalizing b r l with
  | zero => simp [trace] at h
  | succ n ih =>
    rw [mem_traceItems h]
    constructor
    · rintro (⟨rfl, o, ho⟩ | ⟨a', c, r', below, rfl, hc, hw, hx⟩)
      · exact ⟨b, o, .nil b, ho⟩
      · obtain ⟨d, o, hr, ho⟩ := (ih hw).1 hx
        exact ⟨d, o, .cons hc hr, ho⟩
    · rintro ⟨d, o, hr, ho⟩
      cases hr with
      | nil => exact .inl ⟨rfl, o, ho⟩
      | @cons _ c _ a' r' hc hr =>
        obtain ⟨below, hbelow⟩ := traceItems_below h hc
        exact .inr ⟨a', c, r', below, rfl, hc, hbelow, (ih hbelow).2 ⟨d, o, hr, ho⟩⟩

theorem trace_nodup (hnodup : ∀ b, ((next b).map Prod.fst).Nodup) (h : trace next n b = some l) : l.Nodup := by
  induction n generalizing b l with
  | zero => simp [trace] at h
  | succ n ih => exact traceItems_nodup h (hnodup b) fun a c below _ hw => ih hw

/-! ## From several nodes -/

/-- The walks from some nodes, one after the other. -/
def traceAll (next : β → List (α × Option β)) (n : ℕ) : List β → Option (List (β × List α × α))
  | [] => some []
  | b :: roots =>
    (trace next n b).bind fun l => (traceAll next n roots).map fun rest => l.map (fun x => (b, x)) ++ rest

section Roots

variable {roots : List β} {t : List (β × List α × α)}

theorem traceAll_cons_eq_some : traceAll next n (b :: roots) = some t ↔ ∃ l rest,
    trace next n b = some l ∧ traceAll next n roots = some rest ∧ t = l.map (fun x => (b, x)) ++ rest := by
  simp only [traceAll, Option.bind_eq_some_iff, Option.map_eq_some_iff, eq_comm (a := t)]
  constructor
  · rintro ⟨l, hl, rest, hrest, heq⟩
    exact ⟨l, rest, hl, hrest, heq⟩
  · rintro ⟨l, rest, hl, hrest, heq⟩
    exact ⟨l, hl, rest, hrest, heq⟩

theorem mem_traceAll (h : traceAll next n roots = some t) :
    (b, r, a) ∈ t ↔ b ∈ roots ∧ ∃ c o, Route next b r c ∧ (a, o) ∈ next c := by
  induction roots generalizing t with
  | nil =>
    obtain rfl : [] = t := Option.some.inj h
    simp
  | cons b₀ roots ih =>
    obtain ⟨l, rest, hl, hrest, rfl⟩ := traceAll_cons_eq_some.1 h
    rw [List.mem_append, ih hrest, List.mem_cons, or_and_right]
    refine or_congr_left ?_
    constructor
    · intro hmem
      obtain ⟨⟨r, a⟩, hx, heq⟩ := List.mem_map.1 hmem
      obtain ⟨rfl, rfl, rfl⟩ : b₀ = b ∧ _ = _ ∧ _ = _ := by simpa using heq
      exact ⟨rfl, (mem_trace hl).1 hx⟩
    · rintro ⟨rfl, hr⟩
      exact List.mem_map.2 ⟨_, (mem_trace hl).2 hr, rfl⟩

theorem traceAll_nodup (hnodup : ∀ b, ((next b).map Prod.fst).Nodup) (hroots : roots.Nodup)
    (h : traceAll next n roots = some t) : t.Nodup := by
  induction roots generalizing t with
  | nil =>
    obtain rfl : [] = t := Option.some.inj h
    exact List.nodup_nil
  | cons b roots ih =>
    obtain ⟨l, rest, hl, hrest, rfl⟩ := traceAll_cons_eq_some.1 h
    obtain ⟨hb, hroots⟩ := List.nodup_cons.1 hroots
    refine ((trace_nodup hnodup hl).map (Prod.mk_right_injective b)).append (ih hroots hrest) ?_
    rintro ⟨b', r, a⟩ hx hy
    obtain ⟨x, -, heq⟩ := List.mem_map.1 hx
    obtain rfl : b = b' := (Prod.mk.inj heq).1
    exact hb ((mem_traceAll hrest).1 hy).1

/-- With enough fuel the walks end if no way down from one of the nodes goes on for ever. -/
theorem traceAll_isSome_iff : (∃ n t, traceAll next n roots = some t) ↔ ∀ b ∈ roots, Acc (Child next) b := by
  constructor
  · rintro ⟨n, t, h⟩
    induction roots generalizing t with
    | nil => simp
    | cons b roots ih =>
      obtain ⟨l, rest, hl, hrest, -⟩ := traceAll_cons_eq_some.1 h
      exact List.forall_mem_cons.2 ⟨trace_isSome_iff.1 ⟨n, l, hl⟩, ih rest hrest⟩
  · intro h
    obtain ⟨N, hN⟩ := exists_fuel (P := fun n b => ∃ l, trace next n b = some l)
      (fun n m b hb hnm => hb.imp fun l hl => trace_mono hl hnm) roots fun b hb => trace_isSome_iff.2 (h b hb)
    refine ⟨N, ?_⟩
    clear h
    induction roots with
    | nil => exact ⟨[], rfl⟩
    | cons b roots ih =>
      obtain ⟨⟨l, hl⟩, hroots⟩ := List.forall_mem_cons.1 hN
      obtain ⟨rest, hrest⟩ := ih hroots
      exact ⟨_, traceAll_cons_eq_some.2 ⟨l, rest, hl, hrest, rfl⟩⟩

end Roots

end Walks
