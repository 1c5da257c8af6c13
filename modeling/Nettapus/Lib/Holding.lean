import Mathlib.Tactic.Common

/-!
# Resources with one holder

Resources are in use or free, and holders hold some of those that are in use. `Exclusive` says that nobody holds
what is free, and no two hold the same.

* `Exclusive.grow`: holders get resources that were free.
* `Exclusive.release`: some holders give up what they hold, and nothing else is freed.
* `Untouched`: for a holder nothing has changed, neither what it holds nor what is in it. A write into what another
  holds leaves it untouched (`Exclusive.untouched_update`).
-/

namespace Holding

variable {κ ρ β : Type*} {held held' held'' : κ → ρ → Prop} {used used' : ρ → Prop} {c c' c'' : ρ → β} {k k₀ : κ} {x y : ρ}

/-- **Exclusive**: what is held is in use, and has one holder. -/
structure Exclusive (held : κ → ρ → Prop) (used : ρ → Prop) : Prop where
  used : ∀ k x, held k x → used x
  unique : ∀ k k' x, held k x → held k' x → k = k'

/-- **Holders get what was free.** -/
theorem Exclusive.grow (h : Exclusive held used) (hu : ∀ x, used x → used' x)
    (hold : ∀ k x, held' k x → held k x ∨ (¬ used x ∧ used' x))
    (hnew : ∀ k k' x, ¬ used x → held' k x → held' k' x → k = k') : Exclusive held' used' := by
  have hheld : ∀ {k x}, used x → held' k x → held k x := by
    intro k x hx hk
    rcases hold k x hk with hk | ⟨hx', -⟩
    · exact hk
    · exact absurd hx hx'
  refine ⟨fun k x hk => ?_, fun k k' x hk hk' => ?_⟩
  · rcases hold k x hk with hk | ⟨-, hx⟩
    · exact hu x (h.used k x hk)
    · exact hx
  · by_cases hx : used x
    · exact h.unique k k' x (hheld hx hk) (hheld hx hk')
    · exact hnew k k' x hx hk hk'

/-- **The holders of `S` give up what they hold**, and only what they held is freed. -/
theorem Exclusive.release {S : κ → Prop} (h : Exclusive held used) (hold : ∀ k x, held' k x → held k x ∧ ¬ S k)
    (hu : ∀ x, used x → used' x ∨ ∃ k, S k ∧ held k x) : Exclusive held' used' := by
  refine ⟨fun k x hk => ?_, fun k k' x hk hk' => h.unique k k' x (hold k x hk).1 (hold k' x hk').1⟩
  obtain ⟨hk, hS⟩ := hold k x hk
  rcases hu x (h.used k x hk) with hx | ⟨k', hS', hk'⟩
  · exact hx
  · rw [h.unique k k' x hk hk'] at hS
    exact absurd hS' hS

/-- For the holder `k` nothing has changed. -/
structure Untouched (held held' : κ → ρ → Prop) (c c' : ρ → β) (k : κ) : Prop where
  same : ∀ x, held' k x ↔ held k x
  content : ∀ x, held k x → c' x = c x

theorem Untouched.refl (held : κ → ρ → Prop) (c : ρ → β) (k : κ) : Untouched held held c c k :=
  ⟨fun _ => Iff.rfl, fun _ _ => rfl⟩

theorem Untouched.trans (h : Untouched held held' c c' k) (h' : Untouched held' held'' c' c'' k) :
    Untouched held held'' c c'' k :=
  ⟨fun x => (h'.same x).trans (h.same x), fun x hx => (h'.content x ((h.same x).2 hx)).trans (h.content x hx)⟩

/-- **A write into what another holds.** -/
theorem Exclusive.untouched_update [DecidableEq ρ] (h : Exclusive held used) (hy : held k₀ y) (hk : k ≠ k₀)
    (hheld : ∀ x, held' k x ↔ held k x) (b : β) : Untouched held held' c (Function.update c y b) k := by
  refine ⟨hheld, fun x hx => Function.update_of_ne ?_ b c⟩
  rintro rfl
  exact hk (h.unique k k₀ x hx hy)

end Holding
