import Mathlib.Algebra.GroupWithZero.Nat
import Mathlib.Tactic.Common
import Mathlib.Order.Nat

/-!
# The first run

A run is a number of places in a row that all meet a predicate. A scan that counts the places of the run before it
(`Counted`), and starts again at a place that does not meet the predicate, stops at the end of the first run of the
length that it looks for (`Counted.firstRun`).
-/

namespace FirstRun

/-- The `n` places from `w` on. -/
def Run (P : ℕ → Prop) (w n : ℕ) : Prop := ∀ k < n, P (w + k)

/-- The first run of `n` places from `b` on is at `w`. -/
structure First (P : ℕ → Prop) (b n w : ℕ) : Prop where
  le : b ≤ w
  run : Run P w n
  least : ∀ w', b ≤ w' → w' < w → ¬ Run P w' n

variable {P : ℕ → Prop} {b n i c w w' : ℕ}

theorem First.unique (h : First P b n w) (h' : First P b n w') : w = w' := by
  rcases Nat.lt_trichotomy w w' with hlt | heq | hlt
  · exact absurd h.run (h'.least w h.le hlt)
  · exact heq
  · exact absurd h'.run (h.least w' h'.le hlt)

/-- A scan from `b` for `n` places is at `i`, and has counted `c` of them. -/
structure Counted (P : ℕ → Prop) (b n i c : ℕ) : Prop where
  lt : c < n
  le : b + c ≤ i
  run : Run P (i - c) c
  /-- The run does not begin before. -/
  stop : i - c = b ∨ ¬ P (i - c - 1)
  none : ∀ w, b ≤ w → w + n ≤ i → ¬ Run P w n

theorem Counted.start (hn : 0 < n) : Counted P b n b 0 :=
  ⟨hn, Nat.le_refl b, fun k hk => absurd hk (Nat.not_lt_zero k), Or.inl rfl, fun w h1 h2 => by omega⟩

/-- One more place of the run. -/
theorem Counted.run_succ (h : Counted P b n i c) (hi : P i) : Run P (i - c) (c + 1) := by
  intro k hk
  have hle := h.le
  rcases Nat.lt_succ_iff_lt_or_eq.1 hk with hk | rfl
  · exact h.run k hk
  · rwa [show i - k + k = i by omega]

/-- The run is not long enough yet. -/
theorem Counted.hit (h : Counted P b n i c) (hi : P i) (hc : c + 1 < n) : Counted P b n (i + 1) (c + 1) := by
  have hle := h.le
  have hs : i + 1 - (c + 1) = i - c := by omega
  refine ⟨hc, by omega, by rw [hs]; exact h.run_succ hi, by rw [hs]; exact h.stop, fun w h1 h2 hr => ?_⟩
  rcases Nat.lt_or_ge i (w + n) with hin | hout
  · -- such a run ends here, so it begins before the one that is counted
    rcases h.stop with hb | hb
    · omega
    · refine hb ?_
      have := hr (i - c - 1 - w) (by omega)
      rwa [show w + (i - c - 1 - w) = i - c - 1 by omega] at this
  · exact h.none w h1 hout hr

/-- **The run is found.** -/
theorem Counted.firstRun (h : Counted P b n i c) (hi : P i) (hc : c + 1 = n) : First P b n (i - c) := by
  have hle := h.le
  exact ⟨by omega, hc ▸ h.run_succ hi, fun w h1 h2 => h.none w h1 (by omega)⟩

end FirstRun
