import Mathlib.Algebra.GroupWithZero.Nat
import Mathlib.Data.List.TakeWhile
import Mathlib.Tactic.Common

/-!
# The segments of a list

`segments sep l` are the longest pieces of `l` without the separator that are not empty, in order. Two rules
take them from the front of a list: `segments_cons_self` drops a separator, and `segments_of_ne` takes the first
piece. `segments_append` splits a list at a separator, so that runs of separators make no difference.
-/

namespace Segments

variable {α : Type*} [DecidableEq α] {sep c : α} {l l' : List α}

/-- The pieces between the separators that are not empty. -/
def segments (sep : α) (l : List α) : List (List α) := (l.splitOn sep).filter (· ≠ [])

@[simp] theorem segments_nil (sep : α) : segments sep [] = [] := by simp [segments]

/-- **A list is split at a separator.** -/
theorem segments_append (l l' : List α) : segments sep (l ++ sep :: l') = segments sep l ++ segments sep l' := by
  unfold segments
  rw [List.splitOn_append_cons_self, List.filter_append]

@[simp] theorem segments_cons_self (l : List α) : segments sep (sep :: l) = segments sep l :=
  segments_append [] l

theorem segments_replicate_append (n : ℕ) (l : List α) : segments sep (List.replicate n sep ++ l) = segments sep l := by
  induction n with
  | zero => rfl
  | succ n ih => rw [List.replicate_succ, List.cons_append, segments_cons_self, ih]

/-- A run of separators is as good as one. -/
theorem segments_run (n : ℕ) (l l' : List α) :
    segments sep (l ++ List.replicate (n + 1) sep ++ l') = segments sep l ++ segments sep l' := by
  rw [List.replicate_succ, List.append_assoc, List.cons_append, segments_append, segments_replicate_append]

/-- A piece that is the whole list. -/
theorem segments_of_notMem (hne : l ≠ []) (h : sep ∉ l) : segments sep l = [l] := by
  unfold segments
  rw [List.splitOn_eq_singleton h, List.filter_cons_of_pos (by simpa using hne), List.filter_nil]

/-- **The first piece.** -/
theorem segments_of_ne (hc : c ≠ sep) (l : List α) :
    segments sep (c :: l) = (c :: l).takeWhile (· ≠ sep) :: segments sep ((c :: l).dropWhile (· ≠ sep)) := by
  have hne : (c :: l).takeWhile (· ≠ sep) ≠ [] := by simp [hc]
  have hnot : sep ∉ (c :: l).takeWhile (· ≠ sep) := fun h => by simpa using List.mem_takeWhile_imp h
  have hsplit := List.takeWhile_append_dropWhile (p := (· ≠ sep)) (l := c :: l)
  cases hd : (c :: l).dropWhile (· ≠ sep) with
  | nil =>
    rw [hd, List.append_nil] at hsplit
    rw [segments_nil, hsplit]
    exact segments_of_notMem (by simp) (hsplit ▸ hnot)
  | cons a r =>
    have ha : a = sep := by
      have h := List.head_dropWhile_not (· ≠ sep) (l := c :: l) (by rw [hd]; simp)
      simp only [hd, List.head_cons] at h
      simpa using h
    calc segments sep (c :: l) = segments sep ((c :: l).takeWhile (· ≠ sep) ++ a :: r) := by rw [← hd, hsplit]
      _ = [(c :: l).takeWhile (· ≠ sep)] ++ segments sep r := by
        rw [ha, segments_append, segments_of_notMem hne hnot]
      _ = (c :: l).takeWhile (· ≠ sep) :: segments sep (a :: r) := by rw [ha, segments_cons_self, List.singleton_append]

theorem segments_dropWhile (l : List α) : segments sep (l.dropWhile (· = sep)) = segments sep l := by
  induction l with
  | nil => rfl
  | cons c l ih =>
    by_cases hc : c = sep
    · rw [List.dropWhile_cons_of_pos (by simpa using hc), ih, hc, segments_cons_self]
    · rw [List.dropWhile_cons_of_neg (by simpa using hc)]

end Segments
