import Nettapus.Code.Config
import Nettapus.Lib.Links

/-!
# The list of configuration variables

`ConfigMem.Holds` says that the list has given nodes and given variables. `add_var` puts a new node at the end,
`parse_config_line` adds what a line says (`lineVar`), and `config_get_variable` finds the first variable with a name
(`Holds.get_iff`).

`free_var_list` works on the empty list only: it reads the link of the node behind the last one
(`Holds.freeVarList`).
-/

namespace Nettapus

open Links

/-- A name with its value. -/
abbrev ConfigPair := List UInt8 × List UInt8

/-- What a line says: the text before the first `=`, and the text behind it. -/
def lineVar (line : List UInt8) : Option ConfigPair :=
  if 0x3d ∈ line then some (line.takeWhile (· ≠ 0x3d), (line.dropWhile (· ≠ 0x3d)).tail) else none

/-- The variables of a file, by its lines. -/
def configVars (lines : List (List UInt8)) : List ConfigPair := lines.filterMap lineVar

/-- The index of the `=` splits a line as `lineVar` does. -/
theorem lineVar_eq (line : List UInt8) :
    lineVar line = (line.idxOf? 0x3d).map fun eq => (line.take eq, line.drop (eq + 1)) := by
  induction line with
  | nil => rfl
  | cons c line ih =>
    by_cases hc : c = 0x3d
    · subst hc
      simp [lineVar, List.idxOf?_cons]
    · have hne : ¬ (c == 0x3d) = true := by simpa using hc
      rw [List.idxOf?_cons, if_neg hne, Option.map_map]
      unfold lineVar at ih ⊢
      rw [List.takeWhile_cons_of_pos (by simpa using hc), List.dropWhile_cons_of_pos (by simpa using hc)]
      by_cases hmem : 0x3d ∈ line
      · rw [if_pos hmem] at ih
        obtain ⟨eq, heq, h⟩ := Option.map_eq_some_iff.1 ih.symm
        obtain ⟨h1, h2⟩ := Prod.mk.inj h
        rw [if_pos (List.mem_cons_of_mem _ hmem), heq, ← h1, ← h2]
        rfl
      · rw [if_neg hmem] at ih
        have hnot : 0x3d ∉ c :: line := by
          rintro (_ | hm)
          · exact hc rfl
          · rename_i hm
            exact hmem hm
        rw [if_neg hnot, Option.map_eq_none_iff.1 ih.symm]
        rfl

namespace ConfigMem

/-- The list has the nodes `L`, with these variables. -/
structure Holds (m : ConfigMem) (L : List ℕ) (vars : List ConfigPair) : Prop where
  fifo : Fifo m.next NULL m.firstVar m.lastVar L NULL
  vars : L.map (fun i => ((m.var i).name, (m.var i).value)) = vars

variable {A : Allocator} {m m' : ConfigMem} {L : List ℕ} {vars : List ConfigPair} {i fuel : ℕ} {name : List UInt8}

theorem holds_nil (m : ConfigMem) (h1 : m.firstVar = NULL) (h2 : m.lastVar = NULL) : m.Holds [] [] := by
  refine ⟨?_, rfl⟩
  rw [h1, h2]
  exact Fifo.nil _ _ _

/-! ## `add_var` -/

theorem setNext_next (m : ConfigMem) (i n : ℕ) : (m.setNext i n).next = Function.update m.next i n := by
  funext x
  rcases eq_or_ne x i with rfl | hx
  · simp [ConfigMem.next, setNext]
  · simp [ConfigMem.next, setNext, hx]

/-- Setting a link changes no variable. -/
theorem setNext_pair (m : ConfigMem) (i n x : ℕ) :
    (((m.setNext i n).var x).name, ((m.setNext i n).var x).value) = ((m.var x).name, (m.var x).value) := by
  rcases eq_or_ne x i with rfl | hx
  · simp [setNext]
  · simp [setNext, hx]

/-- **`add_var`** puts a new node at the end. -/
theorem Holds.addVar (h : m.Holds L vars) (hi : i ∉ L) (hi0 : i ≠ NULL) :
    (m.addVar i).1 = GENERIC_SUCCESS ∧ (m.addVar i).2.live = m.live ∧
      (m.addVar i).2.Holds (L ++ [i]) (vars ++ [((m.var i).name, (m.var i).value)]) := by
  unfold ConfigMem.addVar
  rw [if_neg hi0]
  by_cases h0 : m.firstVar = NULL
  · obtain rfl : L = [] := h.fifo.first_eq_null_iff.1 h0
    obtain rfl : vars = [] := h.vars.symm
    rw [if_pos h0]
    refine ⟨rfl, rfl, ?_, ?_⟩
    · show Fifo (m.setNext i NULL).next NULL i i [i] NULL
      rw [setNext_next]
      exact h.fifo.push hi hi0 (fun _ hx => absurd hx List.not_mem_nil) (fun hL => absurd rfl hL)
        (Function.update_self _ _ _)
    · exact congrArg (fun v => [v]) (setNext_pair m i NULL i)
  · rw [if_neg h0]
    have hL : L ≠ [] := fun hL => h0 (h.fifo.first_eq_null_iff.2 hL)
    have hne : m.lastVar ≠ i := by
      rintro rfl
      exact hi (h.fifo.last_mem hL)
    refine ⟨rfl, rfl, ?_, ?_⟩
    · show Fifo ((m.setNext m.lastVar i).setNext i NULL).next NULL m.firstVar i (L ++ [i]) NULL
      rw [h.fifo.first_eq, ← front_of_ne_nil i NULL hL, setNext_next, setNext_next]
      refine h.fifo.push hi hi0 (fun x hx hlast => ?_) (fun _ => ?_) (Function.update_self _ _ _)
      · have hxi : x ≠ i := fun hxi => hi (hxi ▸ hx)
        rw [Function.update_of_ne hxi, Function.update_of_ne hlast]
      · rw [Function.update_of_ne hne, Function.update_self]
    · show (L ++ [i]).map (fun x => ((((m.setNext m.lastVar i).setNext i NULL).var x).name,
        (((m.setNext m.lastVar i).setNext i NULL).var x).value)) = _
      simp only [setNext_pair, List.map_append, List.map_cons, List.map_nil, h.vars]

/-- Other nodes may change. -/
theorem Holds.congr (h : m.Holds L vars) (hfirst : m'.firstVar = m.firstVar) (hlast : m'.lastVar = m.lastVar)
    (hvar : ∀ x ∈ L, m'.var x = m.var x) : m'.Holds L vars := by
  refine ⟨?_, ?_⟩
  · rw [hfirst, hlast]
    exact h.fifo.congr fun x hx => congrArg ConfigVariable.next (hvar x hx)
  · rw [← h.vars]
    refine List.map_congr_left fun x hx => ?_
    rw [hvar x hx]

/-! ## `parse_config_line` -/

theorem parse_none {line : List UInt8} (hl : lineVar line = none) : m.parseConfigLine A line = (ERR_NO_RESULT, m) := by
  rw [lineVar_eq, Option.map_eq_none_iff] at hl
  unfold parseConfigLine
  rw [hl]

/-- **`parse_config_line`** adds what the line says. -/
theorem Holds.parse {line : List UInt8} {v : ConfigPair} (h : m.Holds L vars) (hlive : ∀ x ∈ L, x ∈ m.live)
    (hl : lineVar line = some v) : ∃ i, (m.parseConfigLine A line).1 = GENERIC_SUCCESS ∧
      (m.parseConfigLine A line).2.Holds (L ++ [i]) (vars ++ [v]) ∧
      ∀ x ∈ L ++ [i], x ∈ (m.parseConfigLine A line).2.live := by
  rw [lineVar_eq] at hl
  obtain ⟨eq, heq, rfl⟩ := Option.map_eq_some_iff.1 hl
  unfold parseConfigLine
  rw [heq]
  dsimp only
  set live := (A.kmalloc (A.kmalloc m.live).2).2 with hlives
  have hsub : m.live ⊆ live := (Finset.subset_insert _ _).trans (Finset.subset_insert _ _)
  set i := (A.kmalloc live).1 with hi
  have hnew : i ∉ live := A.fresh live
  have hiL : i ∉ L := fun hx => hnew (hsub (hlive i hx))
  set m₁ : ConfigMem := { m with
    live := (A.kmalloc live).2, var := Function.update m.var i ⟨line.take eq, line.drop (eq + 1), NULL⟩ } with hm₁
  have h₁ : m₁.Holds L vars := by
    refine h.congr rfl rfl fun x hx => Function.update_of_ne ?_ _ _
    rintro rfl
    exact hiL hx
  obtain ⟨hst, hl₁, h₂⟩ := h₁.addVar hiL (A.ne_null _)
  have hpair : ((m₁.var i).name, (m₁.var i).value) = (line.take eq, line.drop (eq + 1)) := by
    rw [hm₁]
    simp only [Function.update_self]
  rw [hpair] at h₂
  have hgrow : live ⊆ m₁.live := Finset.subset_insert _ _
  refine ⟨i, hst, h₂, fun x hx => ?_⟩
  rw [hl₁]
  rcases List.mem_append.1 hx with hx | hx
  · exact hgrow (hsub (hlive x hx))
  · rw [List.mem_singleton.1 hx]
    exact Finset.mem_insert_self _ _

/-! ## `config_get_variable` -/

theorem getLoop_eq (hL : Linked m.next L NULL) (h0 : NULL ∉ L) (hf : L.length < fuel) :
    m.getLoop name fuel (front L NULL) = some ((L.map fun i => ((m.var i).name, (m.var i).value)).lookup name) := by
  induction L generalizing fuel with
  | nil =>
    obtain ⟨fuel, rfl⟩ := Nat.exists_eq_succ_of_ne_zero (Nat.ne_zero_of_lt hf)
    rw [front_nil, getLoop, if_pos rfl]
    rfl
  | cons a L ih =>
    obtain ⟨fuel, rfl⟩ := Nat.exists_eq_succ_of_ne_zero (Nat.ne_zero_of_lt hf)
    have ha : a ≠ NULL := fun ha => h0 (ha ▸ List.mem_cons_self)
    rw [front_cons, getLoop, if_neg ha, List.map_cons, List.lookup_cons]
    by_cases hn : (m.var a).name = name
    · rw [if_pos hn, hn]
      simp
    · have hb : (name == (m.var a).name) = false := by simpa using Ne.symm hn
      rw [if_neg hn, hb, hL.1]
      exact ih hL.2 (fun h => h0 (List.mem_cons_of_mem _ h)) (Nat.lt_of_succ_lt_succ hf)

theorem getLoop_mono {fuel' : ℕ} {r : Option (List UInt8)} (hf : fuel ≤ fuel') (h : m.getLoop name fuel i = some r) :
    m.getLoop name fuel' i = some r := by
  induction fuel generalizing fuel' i with
  | zero => cases h
  | succ fuel ih =>
    obtain ⟨fuel', rfl⟩ := Nat.exists_eq_succ_of_ne_zero (Nat.ne_zero_of_lt hf)
    rw [getLoop] at h ⊢
    split_ifs at h ⊢
    · exact h
    · exact h
    · exact ih (Nat.le_of_succ_le_succ hf) h

/-- **`config_get_variable`** finds the first variable with the name. -/
theorem Holds.get_iff (h : m.Holds L vars) {r : Option (List UInt8)} :
    (∃ fuel, m.configGetVariable fuel (some name) = some r) ↔ r = vars.lookup name := by
  have hloop : ∀ fuel, L.length < fuel → m.getLoop name fuel m.firstVar = some (vars.lookup name) := by
    intro fuel hf
    rw [h.fifo.first_eq, ← h.vars]
    exact getLoop_eq h.fifo.linked h.fifo.null_notMem hf
  unfold configGetVariable
  by_cases h0 : m.firstVar = NULL
  · obtain rfl : L = [] := h.fifo.first_eq_null_iff.1 h0
    obtain rfl : vars = [] := h.vars.symm
    simp only [h0, if_true, List.lookup_nil, Option.some.injEq, exists_const, eq_comm]
  · simp only [h0, if_false]
    constructor
    · rintro ⟨fuel, hr⟩
      have hmax := getLoop_mono (le_max_left fuel (L.length + 1)) hr
      rw [hloop _ (lt_of_lt_of_le (Nat.lt_succ_self _) (le_max_right _ _))] at hmax
      exact (Option.some.inj hmax).symm
    · rintro rfl
      exact ⟨_, hloop _ (Nat.lt_succ_self _)⟩

/-! ## `free_var_list` -/

/-- **The loop reads through `NULL`** when it has freed the last node. -/
theorem freeLoop_cons {a : ℕ} {visited : List ℕ} (hL : Linked m.next (a :: L) NULL) (h0 : NULL ∉ a :: L) (fuel : ℕ) :
    freeLoop fuel m a (m.next a) visited = if L.length < fuel then some none else none := by
  induction L generalizing m fuel a visited with
  | nil =>
    have ha : a ≠ NULL := fun ha => h0 (ha ▸ List.mem_cons_self)
    have hj : m.next a = NULL := hL.1
    cases fuel with
    | zero => rfl
    | succ fuel => rw [freeLoop, if_neg ha, if_pos hj, List.length_nil, if_pos (Nat.succ_pos fuel)]
  | cons b L ih =>
    have ha : a ≠ NULL := fun ha => h0 (ha ▸ List.mem_cons_self)
    have hb : b ≠ NULL := fun hb => h0 (hb ▸ List.mem_cons_of_mem _ List.mem_cons_self)
    have hj : m.next a = b := hL.1
    cases fuel with
    | zero => rfl
    | succ fuel =>
      rw [freeLoop, if_neg ha, hj, if_neg hb, List.length_cons]
      rw [ih (m := { m with live := kfreeBlock m.live a }) hL.2 (fun h => h0 (List.mem_cons_of_mem _ h)) fuel]
      simp only [Nat.succ_lt_succ_iff]

theorem Holds.freeVarList (h : m.Holds L vars) (hne : L ≠ []) (fuel : ℕ) :
    m.freeVarList fuel = if L.length ≤ fuel then some none else none := by
  obtain ⟨a, L, rfl⟩ := List.exists_cons_of_ne_nil hne
  have ha : a ≠ NULL := fun ha => h.fifo.null_notMem (ha ▸ List.mem_cons_self)
  have hfirst : m.firstVar = a := h.fifo.first_eq
  unfold ConfigMem.freeVarList
  rw [hfirst, if_neg ha, freeLoop_cons h.fifo.linked h.fifo.null_notMem, List.length_cons]
  by_cases hf : L.length < fuel
  · rw [if_pos hf, if_pos (Nat.succ_le_of_lt hf)]
    rfl
  · rw [if_neg hf, if_neg (fun h => hf (Nat.lt_of_succ_le h))]
    rfl

/-- After `free_var_list` there is no variable. -/
theorem freeVarList_holds {visited : List ℕ} (h : m.freeVarList fuel = some (some (m', visited))) : m'.Holds [] [] := by
  unfold ConfigMem.freeVarList at h
  obtain ⟨r, -, h⟩ := Option.map_eq_some_iff.1 h
  obtain ⟨q, -, h⟩ := Option.map_eq_some_iff.1 h
  obtain ⟨rfl, -⟩ := Prod.mk.inj h
  exact holds_nil _ rfl rfl

end ConfigMem

end Nettapus
