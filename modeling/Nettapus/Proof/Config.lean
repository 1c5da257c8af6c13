import Nettapus.Proof.ConfigReload
import Mathlib.Data.Nat.Digits.Defs

/-!
# What a configuration file says

`config_parse_iff`: after `reload_config` the variables are those of the lines of the file iff the task had no other
descriptors, or the lines behind the first one without `=` define no new name.

`reload_repeatable_iff`: the variables cannot be freed, unless there are none; so a configuration with a variable is
loaded once.
-/

namespace Nettapus

/-! ## What a file says -/

/-- The value of a decimal number. -/
def decimal (digits : List UInt8) : ℕ := Nat.ofDigits 10 (digits.reverse.map fun c => c.toNat - 0x30)

def IsDigit (c : UInt8) : Prop := 0x30 ≤ c ∧ c ≤ 0x39

instance : DecidablePred IsDigit := fun c => inferInstanceAs (Decidable (0x30 ≤ c ∧ c ≤ 0x39))

theorem decimal_lt {digits : List UInt8} (h : ∀ c ∈ digits, IsDigit c) : decimal digits < 10 ^ digits.length := by
  have hlen : digits.length = (digits.reverse.map fun c => c.toNat - 0x30).length := by simp
  rw [hlen]
  refine Nat.ofDigits_lt_base_pow_length (by decide) fun x hx => ?_
  obtain ⟨c, hc, rfl⟩ := List.mem_map.1 hx
  have h9 : c.toNat ≤ 57 := UInt8.le_iff_toNat_le.1 (h c (List.mem_reverse.1 hc)).2
  omega

/-- **`atol`** of a decimal number. -/
theorem atol_eq {digits : List UInt8} (h : ∀ c ∈ digits, IsDigit c) : atol digits = decimal digits := by
  have hfold : ∀ l : List UInt8, (∀ c ∈ l, IsDigit c) → l.foldl (fun (val : ℤ) c => val * 10 +
      ((if c < 0x80 then (c.toNat : ℤ) else c.toNat - 256) - 0x30)) 0 = decimal l := by
    intro l
    induction l using List.reverseRecOn with
    | nil => intro _; rfl
    | append_singleton l c ih =>
      intro hl
      have hc := hl c (by simp)
      have h0 : 48 ≤ c.toNat := UInt8.le_iff_toNat_le.1 hc.1
      have h9 : c.toNat ≤ 57 := UInt8.le_iff_toNat_le.1 hc.2
      have hlt : c < 0x80 := UInt8.lt_iff_toNat_lt.2 (lt_of_le_of_lt h9 (by decide))
      rw [List.foldl_append, ih fun c hc => hl c (List.mem_append_left _ hc)]
      unfold decimal
      rw [List.foldl_cons, List.foldl_nil, if_pos hlt, List.reverse_append, List.reverse_singleton, List.singleton_append,
        List.map_cons, Nat.ofDigits_cons]
      push_cast
      omega
  unfold atol
  split
  · rename_i l
    exact absurd (h 0x2d List.mem_cons_self).1 (by decide)
  · exact hfold _ h

theorem toSize_atol {digits : List UInt8} (h : ∀ c ∈ digits, IsDigit c) (hlen : digits.length ≤ 19) :
    toSize (atol digits) = decimal digits := by
  have hlt : decimal digits < 10 ^ 19 := lt_of_lt_of_le (decimal_lt h) (Nat.pow_le_pow_right (by decide) hlen)
  rw [atol_eq h]
  unfold toSize
  omega

/-- Values at the end of a list of pairs are not found iff their names come before. -/
theorem lookup_append_iff {V W : List ConfigPair} :
    (∀ name, V.lookup name = (V ++ W).lookup name) ↔ ∀ w ∈ W, ∃ v ∈ V, v.1 = w.1 := by
  simp only [List.lookup_append]
  constructor
  · intro h w hw
    by_contra hno
    have hV : V.lookup w.1 = none := List.lookup_eq_none_iff.2 fun v hv => by
      simpa using fun he => hno ⟨v, hv, he.symm⟩
    have hW : (W.lookup w.1).isSome := List.lookup_isSome_iff.2 ⟨w, hw, by simp⟩
    have := h w.1
    rw [hV, Option.none_or] at this
    rw [← this] at hW
    cases hW
  · intro h name
    cases hV : V.lookup name with
    | some value => rfl
    | none =>
      rw [Option.none_or]
      by_contra hne
      obtain ⟨w, hw, he⟩ := List.lookup_isSome_iff.1 (Option.isSome_iff_ne_none.2 (Ne.symm hne))
      obtain ⟨v, hv, hvw⟩ := h w hw
      have := List.lookup_eq_none_iff.1 hV v hv
      rw [hvw] at this
      simp [bne, he] at this

/-- **`config_get_variable` finds what the lines say**: the text behind the first `=` of the first line with the name. -/
def ConfigMem.Shows (m : ConfigMem) (lines : List (List UInt8)) : Prop :=
  ∀ name, ∃ fuel, m.configGetVariable fuel (some name) = some ((configVars lines).lookup name)

open ConfigEnv

/-- **When the variables are those of the file.** The task had no other descriptors, or each name that is defined behind
the first line without `=` is also defined before it. -/
theorem config_parse_iff {env : ConfigEnv} {file : FileDescriptor} {node : FileVnode} {content digits : List UInt8}
    {lines : List (List UInt8)} {s s' : ConfigState} {k f fuel : ℕ} (hF : ConfigFile env file node content)
    (hfind : Finds env file s.root k) (hlines : Lines.lines lineEnd content = digits :: lines)
    (hdigits : ∀ c ∈ digits, IsDigit c) (hlen : digits.length ≤ 19) (hpos : 1 ≤ decimal digits)
    (hshort : ∀ line ∈ lines, line.length < decimal digits)
    (h : env.reloadConfig fuel f s = some (GENERIC_SUCCESS, s')) :
    s'.mem.Shows lines ↔ s.fds = [] ∨ ∀ v ∈ configVars (lines.dropWhile (0x3d ∈ ·)),
      ∃ v' ∈ configVars (lines.takeWhile (0x3d ∈ ·)), v'.1 = v.1 := by
  have hname : f ≠ NULL := by
    rintro rfl
    rw [reloadConfig, if_pos rfl] at h
    exact absurd (Prod.mk.inj (Option.some.inj h)).1 (by decide)
  obtain ⟨⟨vars, hvars, hload⟩, hline⟩ := reloadConfig_loaded hF hfind hname h
  -- the first line was read as a number
  obtain ⟨rest, hrest, hread⟩ : ∃ rest, Lines.lines lineEnd rest = lines ∧
      Lines.read lineEnd 19 content = (.line, digits, rest) := by
    rcases Lines.read_cases 19 hlines with ⟨-, -, hr⟩ | ⟨-, hr⟩ | ⟨hlt, -⟩
    · have := hline rfl
      rw [hr] at this
      cases this
    · exact hr
    · exact absurd hlt (not_lt.2 hlen)
  unfold reloadVars at hvars
  dsimp only at hvars
  rw [hread, if_neg (not_not_intro rfl), toSize_atol hdigits hlen, if_neg (Nat.ne_zero_of_lt hpos), hrest,
    loopVars_eq fun line hl => Nat.le_sub_one_of_lt (hshort line hl)] at hvars
  obtain rfl := Option.some.inj hvars
  obtain ⟨L, hL⟩ := hload.holds
  have hshows : s'.mem.Shows lines ↔ ∀ name, (configVars (if s.fds.isEmpty then lines
      else lines.takeWhile (0x3d ∈ ·))).lookup name = (configVars lines).lookup name :=
    forall_congr' fun name => hL.get_iff.trans eq_comm
  rw [hshows]
  by_cases hfds : s.fds = []
  · rw [hfds]
    exact iff_of_true (fun _ => rfl) (Or.inl rfl)
  · rw [if_neg (fun he => hfds (List.isEmpty_iff.1 he)), or_iff_right hfds, ← lookup_append_iff]
    unfold configVars
    rw [← List.filterMap_append, List.takeWhile_append_dropWhile]

/-- One file system, with this file. -/
def oneFile (content : List UInt8) : ConfigEnv :=
  ⟨growing, [⟨true, some (elfFile content)⟩], sampleDisk content 0, filesOnly, []⟩

/-- No variables; the task has the descriptors `fds`. -/
def noVars (fds : List FileDescriptor) : ConfigState := ⟨⟨fun _ => ⟨[], [], NULL⟩, ∅, NULL, NULL⟩, fds, 0⟩

theorem oneFile_file {content : List UInt8} (h : content.length < 2 ^ 63) :
    ConfigFile (oneFile content) (elfFile content) (sampleNode content) content := by
  refine ⟨rfl, rfl, rfl, rfl, rfl, rfl, h, fun p c hc => ?_⟩
  obtain ⟨hp, rfl⟩ := List.getElem?_eq_some_iff.1 hc
  show sampleDisk content 0 12 p 1 = _
  unfold sampleDisk
  rw [if_pos ⟨hp, by omega⟩, List.drop_eq_getElem_cons hp]
  rfl

theorem oneFile_finds (content : List UInt8) : Finds (oneFile content) (elfFile content) 0 0 := .here rfl rfl

/-- The file `4`, `a=b`, `x`, `a=c`, for a task with an open file. -/
theorem config_parse_iff_again : ∃ s', (oneFile [0x34, 0x0a, 97, 61, 98, 0x0a, 120, 0x0a, 97, 61, 99]).reloadConfig 10 0x1000
      (noVars [elfFile []]) = some (GENERIC_SUCCESS, s') ∧ s'.mem.Shows [[97, 61, 98], [120], [97, 61, 99]] := by
  have hrun : ((oneFile [0x34, 0x0a, 97, 61, 98, 0x0a, 120, 0x0a, 97, 61, 99]).reloadConfig 10 0x1000
      (noVars [elfFile []])).map Prod.fst = some GENERIC_SUCCESS := by decide +kernel
  obtain ⟨⟨st, s'⟩, hs, rfl⟩ := Option.map_eq_some_iff.1 hrun
  have hlines : Lines.lines lineEnd [0x34, 0x0a, 97, 61, 98, 0x0a, 120, 0x0a, 97, 61, 99] =
      [0x34] :: [[97, 61, 98], [120], [97, 61, 99]] := by decide
  have hdigit : ∀ c ∈ [(0x34 : UInt8)], IsDigit c := List.forall_mem_singleton.2 (by decide)
  exact ⟨s', hs, (config_parse_iff (oneFile_file (by decide)) (oneFile_finds _) hlines hdigit (by decide) (by decide)
    (by decide) hs).2 (Or.inr (by decide))⟩

/-- **A line without `=` hides the lines behind it**, if the task has an open file: in `4`, `x`, `a=b`, the variable is
not found. -/
theorem config_line_lost : ∃ s', Lines.lines lineEnd [0x34, 0x0a, 120, 0x0a, 97, 61, 98] = [[0x34], [120], [97, 61, 98]] ∧
    decimal [0x34] = 4 ∧ (oneFile [0x34, 0x0a, 120, 0x0a, 97, 61, 98]).reloadConfig 10 0x1000 (noVars [elfFile []]) =
      some (GENERIC_SUCCESS, s') ∧ ¬ s'.mem.Shows [[120], [97, 61, 98]] := by
  have hrun : ((oneFile [0x34, 0x0a, 120, 0x0a, 97, 61, 98]).reloadConfig 10 0x1000 (noVars [elfFile []])).map
      (fun r => (r.1, r.2.mem.firstVar)) = some (GENERIC_SUCCESS, NULL) := by decide +kernel
  obtain ⟨⟨st, s'⟩, hs, hp⟩ := Option.map_eq_some_iff.1 hrun
  obtain ⟨rfl, h0⟩ := Prod.mk.inj hp
  refine ⟨s', by decide, rfl, hs, fun hshows => ?_⟩
  obtain ⟨fuel, hget⟩ := hshows [97]
  rw [ConfigMem.configGetVariable, if_pos h0] at hget
  exact absurd hget (by decide)

/-! ## Loading it again -/

end Nettapus
