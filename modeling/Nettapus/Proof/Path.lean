import Nettapus.Code.PathBlocks
import Nettapus.Lib.Segments

/-!
# The steps of a path

The segments of a path, which are not empty and have no `/`, are what `fs_parse_path` is to find.

* `getStep_segments`: a step that ends at a separator is the first segment.
* `length_segments_le`: `get_step_count` counts at least the segments, whatever is before the path.
* `path_splits`: so `fs_parse_path` finds the segments, if they are not too long.
* `path_bounded_iff`: a segment with more than 255 bytes makes `get_step` write behind its buffer.
-/

namespace Nettapus

open Segments

variable {path path' str rest : List UInt8} {sep prev : UInt8} {max n : ℕ}

/-! ## One step -/

/-- A step is the beginning of the first segment. -/
theorem getStep_some (hs : getStep path sep max = some (str, rest)) : ∃ l : List UInt8,
    segments sep path = l.takeWhile (· ≠ sep) :: segments sep (l.dropWhile (· ≠ sep)) ∧
      str = (l.takeWhile (· ≠ sep)).take max ∧ rest = l.drop str.length := by
  unfold getStep at hs
  rw [← segments_dropWhile path]
  cases hd : path.dropWhile (· = sep) with
  | nil =>
    rw [hd] at hs
    cases hs
  | cons c cur =>
    rw [hd] at hs
    obtain ⟨rfl, rfl⟩ := Prod.mk.inj (Option.some.inj hs)
    have hc : c ≠ sep := by
      have h := List.head_dropWhile_not (· = sep) (l := path) (by rw [hd]; simp)
      simp only [hd, List.head_cons] at h
      simpa using h
    exact ⟨c :: cur, segments_of_ne hc cur, rfl, rfl⟩

/-- A step that is not cut off is a segment. -/
theorem getStep_segments (hs : getStep path sep max = some (str, rest)) (hlen : str.length < max) :
    segments sep path = str :: segments sep rest := by
  obtain ⟨l, hseg, rfl, rfl⟩ := getStep_some hs
  have hwhole : (l.takeWhile (· ≠ sep)).length < max := by
    rw [List.length_take] at hlen
    omega
  have hdrop : l.drop (l.takeWhile (· ≠ sep)).length = l.dropWhile (· ≠ sep) := by
    have h : (l.takeWhile (· ≠ sep) ++ l.dropWhile (· ≠ sep)).drop (l.takeWhile (· ≠ sep)).length =
        l.dropWhile (· ≠ sep) := List.drop_left
    rwa [List.takeWhile_append_dropWhile] at h
  rw [hseg, List.take_of_length_le hwhole.le, hdrop]

/-- A step of `max` bytes is the beginning of a segment. -/
theorem getStep_cut (hs : getStep path sep max = some (str, rest)) (hlen : max ≤ str.length) :
    ∃ c ∈ segments sep path, max ≤ c.length := by
  obtain ⟨l, hseg, rfl, -⟩ := getStep_some hs
  rw [List.length_take] at hlen
  rw [hseg]
  exact ⟨_, List.mem_cons_self, by omega⟩

/-- Without a step there is no segment. -/
theorem getStep_none (hs : getStep path sep max = none) : segments sep path = [] := by
  unfold getStep at hs
  rw [← segments_dropWhile path]
  cases hd : path.dropWhile (· = sep) with
  | nil => exact segments_nil sep
  | cons c cur =>
    rw [hd] at hs
    cases hs

/-! ## The count -/

/-- The separators that are counted: one for each segment after the first, and one for the first if it comes after a
separator that is in the path. -/
theorem segments_le_countSteps (sep : UInt8) (path : List UInt8) : ∀ prev,
    (segments sep path).length ≤ countSteps sep prev path + 1 ∧
      (prev ≠ sep → (segments sep (path.dropWhile (· ≠ sep))).length ≤ countSteps sep prev path) := by
  induction path with
  | nil => exact fun prev => ⟨by simp, fun _ => by simp⟩
  | cons c path ih =>
    intro prev
    obtain ⟨ih₁, ih₂⟩ := ih c
    unfold countSteps
    by_cases hc : c = sep
    · subst hc
      constructor
      · rw [segments_cons_self]
        omega
      · intro hprev
        rw [List.dropWhile_cons_of_neg (by simp), segments_cons_self]
        by_cases hnil : path = []
        · rw [hnil, segments_nil]
          exact Nat.zero_le _
        · rw [if_pos ⟨rfl, hprev, hnil⟩]
          omega
    · have hdrop : (c :: path).dropWhile (· ≠ sep) = path.dropWhile (· ≠ sep) :=
        List.dropWhile_cons_of_pos (by simpa using hc)
      have hrest := ih₂ hc
      rw [if_neg fun h => hc h.1, Nat.zero_add]
      constructor
      · rw [segments_of_ne hc, hdrop, List.length_cons]
        omega
      · intro _
        rw [hdrop]
        exact hrest

/-- **There is room for the segments**, whatever is before the path. -/
theorem length_segments_le (prev : UInt8) (path : List UInt8) (sep : UInt8) :
    (segments sep path).length ≤ getStepCount prev path sep := by
  have h := (segments_le_countSteps sep path prev).1
  unfold getStepCount
  omega

/-! ## All steps -/

/-- **The loop of `fs_parse_path`** finds the segments, if there is a place for each and for the `NULL`. -/
theorem parseSteps_spec : ∀ {n : ℕ} {path : List UInt8}, (∀ c ∈ segments slash path, c.length ≤ 0xFF) →
    (segments slash path).length < n → parseSteps n path = some (segments slash path) := by
  intro n
  induction n with
  | zero => exact fun _ hn => absurd hn (Nat.not_lt_zero _)
  | succ n ih =>
    intro path hlen hn
    unfold parseSteps
    cases hs : getStep path slash 0x100 with
    | none =>
      rw [getStep_none hs]
    | some r =>
      obtain ⟨str, rest⟩ := r
      have hstr : str.length < 0x100 := by
        by_contra hle
        obtain ⟨c, hc, hcl⟩ := getStep_cut hs (not_lt.1 hle)
        have := hlen c hc
        omega
      have hseg := getStep_segments hs hstr
      rw [hseg] at hlen hn ⊢
      rw [List.length_cons] at hn
      dsimp only
      rw [ih (fun c hc => hlen c (List.mem_cons_of_mem _ hc)) (by omega)]
      rfl

theorem fsParsePath_eq (prev : UInt8) (h : ∀ c ∈ segments slash path, c.length ≤ 0xFF) :
    fsParsePath prev path = some (segments slash path) :=
  parseSteps_spec h (Nat.lt_succ_of_le (length_segments_le prev path slash))

/-- **A path is split at its separators.** The array has the segments of the path and the `NULL` behind them, at no place
after `get_step_count`. Paths with the same segments give the same array: separators in front, at the end
and next to each other make no difference. -/
theorem path_splits (prev : UInt8) (path : List UInt8) (h : ∀ c ∈ segments slash path, c.length ≤ 0xFF) :
    fsParsePath prev path = some (segments slash path) ∧
    (segments slash path).length ≤ getStepCount prev path slash ∧
    (∀ prev' path', segments slash path' = segments slash path → fsParsePath prev' path' = fsParsePath prev path) ∧
    (∀ prev' i j, fsParsePath prev' (List.replicate i slash ++ path ++ List.replicate j slash) = fsParsePath prev path) ∧
    ∀ prev' n a b, path = a ++ slash :: b →
      fsParsePath prev' (a ++ List.replicate (n + 1) slash ++ b) = fsParsePath prev path := by
  have hsame : ∀ prev' path', segments slash path' = segments slash path →
      fsParsePath prev' path' = fsParsePath prev path := by
    intro prev' path' heq
    rw [fsParsePath_eq prev h, fsParsePath_eq prev' (heq ▸ h), heq]
  refine ⟨fsParsePath_eq prev h, length_segments_le prev path slash, hsame, fun prev' i j => hsame _ _ ?_,
    fun prev' n a b hab => hsame _ _ ?_⟩
  · rw [List.append_assoc, segments_replicate_append]
    cases j with
    | zero => rw [List.replicate_zero, List.append_nil]
    | succ j =>
      rw [← List.append_nil (List.replicate (j + 1) slash), ← List.append_assoc, segments_run, segments_nil,
        List.append_nil]
  · rw [hab, segments_run, segments_append]

/-- `//usr///bin/`, after a `/`. -/
theorem path_splits_usr : fsParsePath 47 ([47, 47, 117, 115, 114, 47, 47, 47, 98, 105, 110, 47] : List UInt8) =
      some [[117, 115, 114], [98, 105, 110]] ∧
    2 ≤ getStepCount 47 ([47, 47, 117, 115, 114, 47, 47, 47, 98, 105, 110, 47] : List UInt8) slash := by
  have hseg : segments slash ([47, 47, 117, 115, 114, 47, 47, 47, 98, 105, 110, 47] : List UInt8) =
      [[117, 115, 114], [98, 105, 110]] := by decide
  obtain ⟨h1, h2, -⟩ := path_splits 47 [47, 47, 117, 115, 114, 47, 47, 47, 98, 105, 110, 47]
    (by rw [hseg]; decide)
  rw [hseg] at h1 h2
  exact ⟨h1, h2⟩

/-! ## Writes to the buffers -/

theorem getStepWrites_length (hs : getStep path slash max = some (str, rest)) :
    (getStepWrites path slash max).length = str.length + 1 := by
  unfold getStepWrites
  rw [hs, List.length_append, List.length_singleton]

theorem mem_stepCalls (n : ℕ) (path : List UInt8) : path ∈ stepCalls (n + 1) path := by
  unfold stepCalls
  exact List.mem_cons_self

/-- The buffers are large enough just if all segments are short. -/
theorem stepCalls_inside_iff : ∀ {n : ℕ} {path : List UInt8}, (segments slash path).length < n →
    ((∀ cur ∈ stepCalls n path, (getStepWrites cur slash 0x100).length ≤ 0x100) ↔
      ∀ c ∈ segments slash path, c.length ≤ 0xFF) := by
  intro n
  induction n with
  | zero => exact fun hn => absurd hn (Nat.not_lt_zero _)
  | succ n ih =>
    intro path hn
    unfold stepCalls
    rw [List.forall_mem_cons]
    cases hs : getStep path slash 0x100 with
    | none =>
      have hnone : getStepWrites path slash 0x100 = [] := by
        unfold getStepWrites
        rw [hs]
      rw [getStep_none hs, hnone]
      simp
    | some r =>
      obtain ⟨str, rest⟩ := r
      rw [getStepWrites_length hs]
      dsimp only
      by_cases hstr : str.length < 0x100
      · have hseg := getStep_segments hs hstr
        rw [hseg, List.length_cons] at hn
        rw [hseg, List.forall_mem_cons, ih (by omega)]
        exact and_congr_left fun _ => by omega
      · obtain ⟨c, hc, hcl⟩ := getStep_cut hs (not_lt.1 hstr)
        refine iff_of_false (fun h => hstr h.1) fun h => ?_
        have := h c hc
        omega

/-- **What is asked of `fs_parse_path`**: every call of `get_step` writes into its buffer only, and the array has a `NULL`
within its places. -/
def PathBounded (prev : UInt8) (path : List UInt8) : Prop :=
  (∀ cur ∈ stepCalls (getStepCount prev path slash + 1) path, (getStepWrites cur slash 0x100).length ≤ 0x100) ∧
    (fsParsePath prev path).isSome

/-- **When `fs_parse_path` stays inside its buffers**: no segment has more than 255 bytes. -/
theorem path_bounded_iff (prev : UInt8) (path : List UInt8) :
    PathBounded prev path ↔ ∀ c ∈ segments slash path, c.length ≤ 0xFF := by
  have hcalls := stepCalls_inside_iff (Nat.lt_succ_of_le (length_segments_le prev path slash))
  constructor
  · exact fun h => hcalls.1 h.1
  · intro h
    refine ⟨hcalls.2 h, ?_⟩
    rw [fsParsePath_eq prev h]
    rfl

/-- **A name of 256 bytes is written behind the buffer**, and one of 512 bytes leaves no place for the `NULL`. -/
theorem path_long : ¬ PathBounded 0 (List.replicate 256 97) ∧ fsParsePath 0 (List.replicate 512 97) = none := by
  constructor
  · intro h
    have hcall := h.1 _ (mem_stepCalls _ _)
    exact absurd hcall (by decide +kernel)
  · decide +kernel

end Nettapus
