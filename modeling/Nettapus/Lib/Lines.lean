import Mathlib.Algebra.GroupWithZero.Nat
import Mathlib.Tactic.Common

/-!
# Lines that are read into a buffer

`lines p l` are the pieces of `l` between the elements that end a line. `read p n l` takes the first of them from `l`
into a buffer with room for `n + 1` elements, and says how it came to an end. `read_cases` is the rule that a loop over
the lines uses.
-/

namespace Lines

variable {α : Type*} {p : α → Bool} {c : α} {l line : List α} {rest : List (List α)}

/-- The lines of a text. What is behind the last end is a line too. -/
def lines (p : α → Bool) (l : List α) : List (List α) := l.splitOnP p

theorem lines_nil (p : α → Bool) : lines p [] = [[]] := List.splitOnP_nil

theorem lines_end (h : p c = true) (l : List α) : lines p (c :: l) = [] :: lines p l := by
  unfold lines
  rw [List.splitOnP_cons_eq_if_modifyHead, if_pos h]

theorem lines_cons (h : p c = false) (hl : lines p l = line :: rest) : lines p (c :: l) = (c :: line) :: rest := by
  unfold lines at hl ⊢
  rw [List.splitOnP_cons_eq_if_modifyHead, if_neg (by simp [h]), hl, List.modifyHead_cons]

/-- There is always a line. -/
theorem exists_lines (p : α → Bool) (l : List α) : ∃ line rest, lines p l = line :: rest :=
  List.exists_cons_of_ne_nil (List.splitOnP_ne_nil p l)

/-- How the reading of a line comes to an end: it has one, the text has one, or the buffer is full. -/
inductive Stop
  | line
  | last
  | full
  deriving DecidableEq

/-- What ended the line, the elements in the buffer, and the text that is left. -/
def read (p : α → Bool) : ℕ → List α → Stop × List α × List α
  | _, [] => (.last, [], [])
  | n, c :: l =>
    if p c then (.line, [], l)
    else
      match n with
      | 0 => (.full, [c], l)
      | n + 1 => ((read p n l).1, c :: (read p n l).2.1, (read p n l).2.2)

theorem read_end (h : p c = true) (n : ℕ) (l : List α) : read p n (c :: l) = (.line, [], l) := by
  rw [read.eq_def]
  simp [h]

theorem read_cons (h : p c = false) (n : ℕ) (l : List α) :
    read p (n + 1) (c :: l) = ((read p n l).1, c :: (read p n l).2.1, (read p n l).2.2) := by
  rw [read, if_neg (by simp [h])]

/-- **The first line of a text**: it fits into the buffer and is the last one or is followed by others, or it does not
fit. -/
theorem read_cases (n : ℕ) (h : lines p l = line :: rest) :
    (line.length ≤ n ∧ rest = [] ∧ read p n l = (.last, line, [])) ∨
    (line.length ≤ n ∧ ∃ l', lines p l' = rest ∧ read p n l = (.line, line, l')) ∨
    (n < line.length ∧ ∃ l', read p n l = (.full, line.take (n + 1), l')) := by
  induction l generalizing n line with
  | nil =>
    obtain ⟨rfl, rfl⟩ := List.cons.inj ((lines_nil p).symm.trans h)
    exact Or.inl ⟨Nat.zero_le n, rfl, by rw [read]⟩
  | cons c l ih =>
    by_cases hc : p c = true
    · obtain ⟨rfl, hrest⟩ := List.cons.inj ((lines_end hc l).symm.trans h)
      exact Or.inr (Or.inl ⟨Nat.zero_le n, l, hrest, read_end hc n l⟩)
    · have hc : p c = false := Bool.eq_false_iff.2 hc
      obtain ⟨line', rest', hl⟩ := exists_lines p l
      obtain ⟨rfl, rfl⟩ := List.cons.inj ((lines_cons hc hl).symm.trans h)
      cases n with
      | zero =>
        refine Or.inr (Or.inr ⟨Nat.succ_pos _, l, ?_⟩)
        rw [read.eq_def]
        simp [hc]
      | succ n =>
        rw [read_cons hc, List.length_cons, List.take_succ_cons]
        rcases ih n hl with ⟨hle, hr, hread⟩ | ⟨hle, l', hl', hread⟩ | ⟨hlt, l', hread⟩
        · exact Or.inl ⟨Nat.succ_le_succ hle, hr, by rw [hread]⟩
        · exact Or.inr (Or.inl ⟨Nat.succ_le_succ hle, l', hl', by rw [hread]⟩)
        · exact Or.inr (Or.inr ⟨Nat.succ_lt_succ hlt, l', by rw [hread]⟩)

end Lines
