import Nettapus.Code.Arg
import Nettapus.Lib.Links
import Nettapus.Proof.Syscall

/-!
# Arguments of a task

`ArgMem.Holds` says that the list of a task has given nodes and given strings. `create_task` builds such a list from
`argv` and leaves every block alone that was live before (`createArgs_spec`), and `task_get_arg` reads it by index
(`Holds.taskGetArg`).

`getarg_iff`: what a task then gets from `getarg` is right unless `limit` is zero, where `limit - 1` wraps.

`copy_args_iff`: `copy_task` copies an argument list only if it is empty. The child starts with the parent's pointers,
so the new nodes go to the end of the list that the loop is walking, which never gets there (`copyArgsLoop_endless`).
-/

namespace Nettapus

open Links

namespace ArgMem

/-- The links of the nodes. -/
def next (m : ArgMem) (i : ℕ) : ℕ := (m.arg i).next

/-- The list of `t` has the nodes `L`, with the strings `args`. -/
structure Holds (m : ArgMem) (t : ArgTask) (L : List ℕ) (args : List (List UInt8)) : Prop where
  fifo : Fifo m.next NULL t.firstArg t.lastArg L NULL
  strs : L.map (fun i => m.str (m.arg i).str) = args
  live : ∀ i ∈ L, i ∈ m.live ∧ (m.arg i).str ∈ m.live
  str_ne : ∀ i ∈ L, (m.arg i).str ≠ NULL

/-- `i` is a new node of `m'`, with the string `s`; what was live in `m` has not changed. -/
structure Adds (m m' : ArgMem) (i : ℕ) (s : List UInt8) : Prop where
  node : i ∉ m.live
  node_ne : i ≠ NULL
  str_ne : (m'.arg i).str ≠ NULL
  str : m'.str (m'.arg i).str = s
  live : i ∈ m'.live ∧ (m'.arg i).str ∈ m'.live
  mono : m.live ⊆ m'.live
  arg : ∀ x ≠ i, m'.arg x = m.arg x
  strs : ∀ x ∈ m.live, m'.str x = m.str x

variable {A : Allocator} {m m' m0 : ArgMem} {t : ArgTask} {L : List ℕ} {args argv : List (List UInt8)} {i e : ℕ}
  {s : List UInt8}

theorem newArg_adds (A : Allocator) (m : ArgMem) (s : List UInt8) : Adds m (m.newArg A s).1 (m.newArg A s).2 s := by
  have hi := A.fresh m.live
  have hp := A.fresh (A.kmalloc m.live).2
  refine ⟨hi, A.ne_null _, ?_, ?_, ?_, ?_, ?_, ?_⟩
  · simp only [newArg, Function.update_self]
    exact A.ne_null _
  · simp only [newArg, Function.update_self]
  · simp only [newArg, Function.update_self]
    exact ⟨Finset.mem_insert_of_mem (Finset.mem_insert_self _ _), Finset.mem_insert_self _ _⟩
  · intro x hx
    exact Finset.mem_insert_of_mem (Finset.mem_insert_of_mem hx)
  · intro x hx
    exact Function.update_of_ne hx _ _
  · intro x hx
    refine Function.update_of_ne ?_ _ _
    rintro rfl
    exact hp (Finset.mem_insert_of_mem hx)

/-- Setting a link of a new node is part of adding it. -/
theorem Adds.setNext (h : Adds m m' i s) (n : ℕ) : Adds m (m'.setNext i n) i s := by
  have hstr : ((m'.setNext i n).arg i).str = (m'.arg i).str := by simp [ArgMem.setNext]
  refine ⟨h.node, h.node_ne, hstr ▸ h.str_ne, ?_, ?_, h.mono, ?_, h.strs⟩
  · rw [hstr]
    exact h.str
  · rw [hstr]
    exact h.live
  · intro x hx
    exact (Function.update_of_ne hx _ _).trans (h.arg x hx)

theorem setNext_next (m : ArgMem) (i n : ℕ) : (m.setNext i n).next = Function.update m.next i n := by
  funext x
  rcases eq_or_ne x i with rfl | hx
  · simp [ArgMem.next, setNext]
  · simp [ArgMem.next, setNext, hx]

theorem setNext_str (m : ArgMem) (i n x : ℕ) : ((m.setNext i n).arg x).str = (m.arg x).str := by
  rcases eq_or_ne x i with rfl | hx
  · simp [setNext]
  · simp [setNext, hx]

/-! ## The end of a list -/

/-- **A node at the end.** The links are those of a queue with one more node. -/
theorem linkArg_fifo (h : Fifo m.next NULL t.firstArg t.lastArg L e) (hi : i ∉ L) (hi0 : i ≠ NULL) :
    Fifo (m.linkArg t i).1.next NULL (m.linkArg t i).2.firstArg (m.linkArg t i).2.lastArg (L ++ [i]) (m.next i) := by
  unfold linkArg
  split_ifs with h0
  · obtain rfl : L = [] := h.first_eq_null_iff.1 h0
    exact h.push hi hi0 (fun _ _ _ => rfl) (fun hL => absurd rfl hL) rfl
  · have hL : L ≠ [] := fun hL => h0 (h.first_eq_null_iff.2 hL)
    have hne : i ≠ t.lastArg := by
      rintro rfl
      exact hi (h.last_mem hL)
    have hlast : ((m.setNext t.lastArg i).arg t.lastArg).next = i := by simp [setNext]
    have hpush : Fifo (m.setNext t.lastArg i).next NULL (front L i) i (L ++ [i]) (m.next i) := by
      rw [setNext_next]
      exact h.push hi hi0 (fun x _ hx => Function.update_of_ne hx _ _) (fun _ => Function.update_self _ _ _)
        (Function.update_of_ne hne _ _)
    rw [front_of_ne_nil i NULL hL, ← h.first_eq] at hpush
    simpa only [hlast] using hpush

/-- Linking a node changes no string. -/
theorem linkArg_str (m : ArgMem) (t : ArgTask) (i : ℕ) : (m.linkArg t i).1.str = m.str := by
  unfold linkArg
  split_ifs <;> rfl

theorem linkArg_live (m : ArgMem) (t : ArgTask) (i : ℕ) : (m.linkArg t i).1.live = m.live := by
  unfold linkArg
  split_ifs <;> rfl

theorem linkArg_arg_str (m : ArgMem) (t : ArgTask) (i x : ℕ) : ((m.linkArg t i).1.arg x).str = (m.arg x).str := by
  unfold linkArg
  split_ifs
  · rfl
  · exact setNext_str m t.lastArg i x

/-- Linking a node writes to the last node of the list only. -/
theorem linkArg_arg (h : Fifo m.next NULL t.firstArg t.lastArg L e) {x : ℕ} (hx : x ∉ L) :
    (m.linkArg t i).1.arg x = m.arg x := by
  unfold linkArg
  split_ifs with h0
  · rfl
  · refine Function.update_of_ne ?_ _ _
    rintro rfl
    exact hx (h.last_mem fun hL => h0 (h.first_eq_null_iff.2 hL))

/-- A queue is still there when a node is added, because its nodes are live. -/
theorem Adds.fifo (ha : Adds m m' i s) (h : Fifo m.next NULL t.firstArg t.lastArg L e) (hlive : ∀ x ∈ L, x ∈ m.live) :
    Fifo m'.next NULL t.firstArg t.lastArg L e := by
  refine h.congr fun x hx => congrArg TaskArg.next (ha.arg x ?_)
  rintro rfl
  exact ha.node (hlive x hx)

/-! ## The loop of `create_task` -/

/-- One argument more. -/
theorem Holds.link (h : Holds m t L args) (ha : Adds m m' i s) (hi : m'.next i = NULL) :
    Holds (m'.linkArg t i).1 (m'.linkArg t i).2 (L ++ [i]) (args ++ [s]) := by
  have hnot : ∀ x ∈ L, x ≠ i := by
    rintro x hx rfl
    exact ha.node (h.live x hx).1
  have harg : ∀ x ∈ L, m'.arg x = m.arg x := fun x hx => ha.arg x (hnot x hx)
  have hmem : ∀ x ∈ L ++ [i], x ∈ L ∨ x = i := fun x hx => by simpa using hx
  constructor
  · have hf := linkArg_fifo (ha.fifo h.fifo fun x hx => (h.live x hx).1) (fun hx => hnot i hx rfl) ha.node_ne
    rwa [hi] at hf
  · simp only [linkArg_str, linkArg_arg_str, List.map_append, List.map_cons, List.map_nil, ha.str]
    rw [← h.strs]
    congr 1
    refine List.map_congr_left fun x hx => ?_
    rw [harg x hx]
    exact ha.strs _ (h.live x hx).2
  · intro x hx
    rw [linkArg_live, linkArg_arg_str]
    rcases hmem x hx with hx | rfl
    · rw [harg x hx]
      exact ⟨ha.mono (h.live x hx).1, ha.mono (h.live x hx).2⟩
    · exact ha.live
  · intro x hx
    rw [linkArg_arg_str]
    rcases hmem x hx with hx | rfl
    · rw [harg x hx]
      exact h.str_ne x hx
    · exact ha.str_ne

/-- The blocks that were live in `m0` are as they were there. -/
def Kept (m0 m : ArgMem) : Prop :=
  m0.live ⊆ m.live ∧ ∀ x ∈ m0.live, m.arg x = m0.arg x ∧ m.str x = m0.str x

/-- **The loop over `argv`**: the strings go to the end of the list, and the nodes are all new. -/
theorem createArgsLoop_spec (argv : List (List UInt8)) (argc : ℕ) (h : Holds m t L args) (hk : Kept m0 m)
    (hnew : ∀ x ∈ L, x ∉ m0.live) :
    ∃ L', Holds (createArgsLoop A argv m t argc).1 (createArgsLoop A argv m t argc).2.1 L' (args ++ argv) ∧
      (∀ x ∈ L', x ∉ m0.live) ∧ Kept m0 (createArgsLoop A argv m t argc).1 ∧
      (createArgsLoop A argv m t argc).2.2 = argc + argv.length := by
  induction argv generalizing m t L args argc with
  | nil =>
    rw [List.append_nil]
    exact ⟨L, h, hnew, hk, rfl⟩
  | cons s argv ih =>
    have ha := (newArg_adds A m s).setNext NULL
    set m1 := (m.newArg A s).1.setNext (m.newArg A s).2 NULL with hm1
    set i := (m.newArg A s).2 with hi
    have hnext : m1.next i = NULL := by
      rw [hm1, setNext_next, Function.update_self]
    have hi0 : i ∉ m0.live := fun hx => ha.node (hk.1 hx)
    have hnew1 : ∀ x ∈ L ++ [i], x ∉ m0.live := by
      intro x hx
      rcases List.mem_append.1 hx with hx | hx
      · exact hnew x hx
      · exact List.mem_singleton.1 hx ▸ hi0
    have hk1 : Kept m0 (m1.linkArg t i).1 := by
      refine ⟨fun x hx => ?_, fun x hx => ⟨?_, ?_⟩⟩
      · rw [linkArg_live]
        exact ha.mono (hk.1 hx)
      · rw [linkArg_arg (ha.fifo h.fifo fun x hx => (h.live x hx).1) fun hL => hnew x hL hx,
          ha.arg x fun hxi => hi0 (hxi ▸ hx)]
        exact (hk.2 x hx).1
      · rw [linkArg_str, ha.strs x (hk.1 hx)]
        exact (hk.2 x hx).2
    obtain ⟨L', hL', hnew', hk', hc⟩ := ih (argc + 1) (h.link ha hnext) hk1 hnew1
    rw [List.append_assoc, List.singleton_append] at hL'
    refine ⟨L', hL', hnew', hk', hc.trans ?_⟩
    rw [List.length_cons]
    omega

/-- **`create_task`** builds the list of `argv`, leaves every block alone that was live before, and counts. -/
theorem createArgs_spec (A : Allocator) (m : ArgMem) (argv : Option (List (List UInt8))) :
    ∃ L, Holds (m.createArgs A argv).1 (m.createArgs A argv).2.1 L (argv.getD []) ∧
      Kept m (m.createArgs A argv).1 ∧ (m.createArgs A argv).2.2 = (argv.getD []).length := by
  have h : Holds m ⟨NULL, NULL⟩ [] [] :=
    ⟨Fifo.nil _ _ _, rfl, fun i hi => absurd hi List.not_mem_nil, fun i hi => absurd hi List.not_mem_nil⟩
  obtain ⟨L, hL, -, hk, hc⟩ := createArgsLoop_spec (A := A) (argv.getD []) 0 h
    ⟨Finset.Subset.refl _, fun _ _ => ⟨rfl, rfl⟩⟩ fun i hi => absurd hi List.not_mem_nil
  rw [List.nil_append] at hL
  exact ⟨L, hL, hk, hc.trans (Nat.zero_add _)⟩

/-- A list only depends on its blocks. -/
theorem Holds.kept (h : Holds m t L args) (hk : Kept m m') : Holds m' t L args := by
  have harg : ∀ i ∈ L, m'.arg i = m.arg i := fun i hi => (hk.2 i (h.live i hi).1).1
  refine ⟨h.fifo.congr fun i hi => congrArg TaskArg.next (harg i hi), ?_, fun i hi => ?_, fun i hi => ?_⟩
  · rw [← h.strs]
    refine List.map_congr_left fun i hi => ?_
    rw [harg i hi]
    exact (hk.2 _ (h.live i hi).2).2
  · rw [harg i hi]
    exact ⟨hk.1 (h.live i hi).1, hk.1 (h.live i hi).2⟩
  · rw [harg i hi]
    exact h.str_ne i hi

/-! ## Looking an argument up -/

theorem walkArgs_front (hL : Linked m.next L NULL) (h0 : NULL ∉ L) (n : ℕ) :
    m.walkArgs n (front L NULL) = front (L.drop n) NULL := by
  induction n generalizing L with
  | zero => rfl
  | succ n ih =>
    cases L with
    | nil => rfl
    | cons a L =>
      have ha : a ≠ NULL := fun ha => h0 (ha ▸ List.mem_cons_self)
      rw [walkArgs, front_cons, if_neg ha, List.drop_succ_cons, show (m.arg a).next = front L NULL from hL.1]
      exact ih hL.2 fun h => h0 (List.mem_cons_of_mem _ h)

/-- **`task_get_arg`** reads the list by index. -/
theorem Holds.taskGetArg (h : Holds m t L args) (k : ℕ) : m.taskGetArg t k = Syscall.taskGetArg args k := by
  unfold ArgMem.taskGetArg Syscall.taskGetArg
  rw [h.fifo.first_eq, walkArgs_front h.fifo.linked h.fifo.null_notMem, ← h.strs, List.getElem?_map]
  cases hd : L.drop k with
  | nil =>
    rw [List.getElem?_eq_none (List.drop_eq_nil_iff.1 hd)]
    rfl
  | cons a M =>
    have ha : L[k]? = some a := by
      rw [← Nat.add_zero k, ← List.getElem?_drop, hd]
      rfl
    have hmem := List.mem_of_getElem? ha
    have hne : a ≠ NULL := fun h0 => h.fifo.null_notMem (h0 ▸ hmem)
    simp [ha, hne, h.str_ne a hmem]

/-! ## From `exec` to `getarg` -/

/-- The `getarg` of a task with a list is the one of its strings. -/
theorem Holds.getarg (h : Holds m t L args) (v : Vmm) (pml4t k buf limit : ℕ) :
    m.getarg t v pml4t k buf limit = Syscall.getarg v pml4t args k buf limit := by
  have hstr := h.taskGetArg k
  unfold ArgMem.getarg Syscall.getarg
  generalize m.taskGetArg t k = str at hstr ⊢
  subst hstr
  rfl

/-- The memory after `create_task` was called for each of `later`. -/
def createAll (A : Allocator) (later : List (Option (List (List UInt8)))) (m : ArgMem) : ArgMem :=
  later.foldl (fun m argv => (m.createArgs A argv).1) m

/-- Tasks that are created later leave a list alone. -/
theorem Holds.createAll (h : Holds m t L args) (later : List (Option (List (List UInt8)))) :
    Holds (createAll A later m) t L args := by
  induction later generalizing m with
  | nil => exact h
  | cons argv later ih =>
    obtain ⟨-, -, hk, -⟩ := createArgs_spec A m argv
    exact ih (h.kept hk)

/-- What `getarg` does in the task that `create_task` makes of `argv`, after more tasks are created. -/
def getargOf (A : Allocator) (m : ArgMem) (argv : List (List UInt8)) (later : List (Option (List (List UInt8))))
    (v : Vmm) (pml4t k buf limit : ℕ) : Except ℤ (ℕ × List UInt8 × ℕ) :=
  let new := m.createArgs A (some argv)
  (createAll A later new.1).getarg new.2.1 v pml4t k buf limit

theorem getargOf_eq (A : Allocator) (m : ArgMem) (argv : List (List UInt8)) (later : List (Option (List (List UInt8))))
    (v : Vmm) (pml4t k buf limit : ℕ) :
    getargOf A m argv later v pml4t k buf limit = Syscall.getarg v pml4t argv k buf limit := by
  obtain ⟨L, hL, -, -⟩ := createArgs_spec A m (some argv)
  exact (hL.createAll later).getarg v pml4t k buf limit

/-- **The law of argument passing**: the count in `rax`, and what `getarg` does. -/
structure GetargLaw (A : Allocator) (m : ArgMem) (argv : List (List UInt8)) (later : List (Option (List (List UInt8))))
    (v : Vmm) (pml4t k buf limit : ℕ) : Prop where
  rax : (m.createArgs A (some argv)).2.2 = argv.length
  notFound : getargOf A m argv later v pml4t k buf limit = .error (-ERR_NOT_FOUND) ↔ argv.length ≤ k
  copies : ∀ str, argv[k]? = some str →
    getargOf A m argv later v pml4t k buf limit = .ok (buf, str, min str.length (max limit 1 - 1))
  bounded : ∀ r, getargOf A m argv later v pml4t k buf limit = .ok r → r.2.2 ≤ limit

end ArgMem

section Getarg

variable {v : Vmm} {pml4t k buf limit : ℕ} {args : List (List UInt8)}

/-- A pointer that fails its check is turned away with an error of its own. -/
theorem getarg_of_not_ok (h : Syscall.checkPointer v pml4t buf ≠ .ok ()) :
    Syscall.getarg v pml4t args k buf limit = .error (-ERR_INVALID_PARAM) := by
  have hc : Syscall.checkPointer v pml4t buf = .error (-ERR_INVALID_PARAM) := by
    unfold Syscall.checkPointer at h ⊢
    split_ifs at h ⊢
    · rfl
    · rfl
    · exact absurd rfl h
  unfold Syscall.getarg
  rw [hc]
  rfl

theorem getarg_of_le (h : Syscall.checkPointer v pml4t buf = .ok ()) (hk : args.length ≤ k) :
    Syscall.getarg v pml4t args k buf limit = .error (-ERR_NOT_FOUND) := by
  unfold Syscall.getarg Syscall.taskGetArg
  rw [h, List.getElem?_eq_none hk]
  rfl

theorem getarg_of_getElem? {str : List UInt8} (h : Syscall.checkPointer v pml4t buf = .ok ()) (hk : args[k]? = some str) :
    Syscall.getarg v pml4t args k buf limit =
      .ok (buf, str, if limit ≤ str.length then sub64 limit 1 else str.length) := by
  unfold Syscall.getarg Syscall.taskGetArg
  rw [h, hk]
  rfl

/-- The number of bytes, for a `limit` that is not zero. -/
theorem clipped_eq {limit n : ℕ} (h0 : limit ≠ 0) (hl : limit < 2 ^ 64) :
    (if limit ≤ n then sub64 limit 1 else n) = min n (max limit 1 - 1) := by
  split_ifs with hn
  · rw [sub64_of_le (Nat.pos_of_ne_zero h0) hl]
    omega
  · omega

/-- With `limit` zero the number of bytes wraps. -/
theorem clipped_zero (n : ℕ) : (if 0 ≤ n then sub64 0 1 else n) = 2 ^ 64 - 1 := by
  rw [if_pos (Nat.zero_le n)]
  rfl

end Getarg

/-- **Argument passing is right iff the destination is one that `getarg` accepts and `limit` is not zero**, where
there is an argument to copy. -/
theorem getarg_iff (A : Allocator) (m : ArgMem) (argv : List (List UInt8)) (later : List (Option (List (List UInt8))))
    (v : Vmm) (pml4t k buf limit : ℕ) (hl : limit < 2 ^ 64) :
    ArgMem.GetargLaw A m argv later v pml4t k buf limit ↔
      Syscall.checkPointer v pml4t buf = .ok () ∧ (k < argv.length → limit ≠ 0) := by
  constructor
  · intro h
    have hnot := h.notFound
    have hcopy := h.copies
    simp only [ArgMem.getargOf_eq] at hnot hcopy
    have hok : Syscall.checkPointer v pml4t buf = .ok () := by
      by_contra hc
      rw [getarg_of_not_ok hc] at hnot hcopy
      rcases Nat.lt_or_ge k argv.length with hk | hk
      · exact absurd (hcopy _ (List.getElem?_eq_getElem hk)) (by simp)
      · exact absurd (hnot.2 hk) (by decide)
    refine ⟨hok, fun hk h0 => ?_⟩
    have hc := hcopy _ (List.getElem?_eq_getElem hk)
    subst h0
    rw [getarg_of_getElem? hok (List.getElem?_eq_getElem hk), clipped_zero] at hc
    simp at hc
  · rintro ⟨hok, h0⟩
    have hcopy : ∀ str, argv[k]? = some str →
        Syscall.getarg v pml4t argv k buf limit = .ok (buf, str, min str.length (max limit 1 - 1)) := by
      intro str hk
      rw [getarg_of_getElem? hok hk, clipped_eq (h0 (List.getElem?_eq_some_iff.1 hk).1) hl]
    obtain ⟨-, -, -, hrax⟩ := ArgMem.createArgs_spec A m (some argv)
    refine ⟨hrax, ?_, ?_, ?_⟩
    · rw [ArgMem.getargOf_eq]
      refine ⟨fun he => ?_, getarg_of_le hok⟩
      by_contra hk
      rw [hcopy _ (List.getElem?_eq_getElem (not_le.1 hk))] at he
      cases he
    · rw [ArgMem.getargOf_eq]
      exact hcopy
    · intro r hr
      rw [ArgMem.getargOf_eq] at hr
      rcases Nat.lt_or_ge k argv.length with hk | hk
      · rw [hcopy _ (List.getElem?_eq_getElem hk)] at hr
        cases hr
        simp only
        omega
      · rw [getarg_of_le hok hk] at hr
        cases hr

/-- Memory without a block. -/
def noArgs : ArgMem := ⟨fun _ => ⟨NULL, NULL⟩, fun _ => [], ∅⟩

theorem onePageSpace_accepts : ∃ v, onePageSpace = some v ∧ Syscall.checkPointer v 0x1000 0x400000 = .ok () := by
  have hv : (onePageSpace.map fun v => v.isMapped 0x400000 0x1000) = some 1 := by decide +kernel
  obtain ⟨v, h1, h2⟩ := Option.map_eq_some_iff.1 hv
  refine ⟨v, h1, ?_⟩
  unfold Syscall.checkPointer
  rw [h2, if_neg (by decide), if_neg (by decide)]

/-- The first argument of `ls a`, with a buffer of four bytes. -/
theorem getarg_iff_ls : ∃ v, onePageSpace = some v ∧
    ArgMem.GetargLaw growing noArgs [[108, 115], [97]] [none, some [[98]]] v 0x1000 0 0x400000 4 := by
  obtain ⟨v, h1, h2⟩ := onePageSpace_accepts
  exact ⟨v, h1, (getarg_iff growing noArgs [[108, 115], [97]] [none, some [[98]]] v 0x1000 0 0x400000 4 (by decide)).2
    ⟨h2, fun _ => by decide⟩⟩

/-- With a limit of zero, an accepted buffer and an argument of one byte, `2 ^ 64 - 1` bytes are copied. -/
theorem getarg_limit_zero : ∃ v, onePageSpace = some v ∧ Syscall.checkPointer v 0x1000 0x400000 = .ok () ∧
    ¬ ArgMem.GetargLaw growing noArgs [[97]] [] v 0x1000 0 0x400000 0 := by
  obtain ⟨v, h1, h2⟩ := onePageSpace_accepts
  refine ⟨v, h1, h2, fun h => ?_⟩
  have hb := h.bounded (0x400000, [97], 2 ^ 64 - 1) ?_
  · simp at hb
  · rw [ArgMem.getargOf_eq, getarg_of_getElem? h2 rfl, clipped_zero]

/-! ## What `fork` copies -/

namespace ArgMem

variable {A : Allocator} {m : ArgMem} {t : ArgTask} {L : List ℕ} {args : List (List UInt8)} {it e : ℕ}

/-- **The loop never gets to the end of the list**: it is on a node of the list that it appends to. -/
theorem copyArgsLoop_endless (fuel : ℕ) {D K : List ℕ} (h : Fifo m.next NULL t.firstArg t.lastArg (D ++ it :: K) e)
    (hlive : ∀ x ∈ D ++ it :: K, x ∈ m.live) : copyArgsLoop A fuel m t it = none := by
  induction fuel generalizing m t it e D K with
  | zero => rfl
  | succ fuel ih =>
    have hit : it ≠ NULL := by
      rintro rfl
      exact h.null_notMem (by simp)
    have ha := newArg_adds A m (m.str (m.arg it).str)
    set m1 := (m.newArg A (m.str (m.arg it).str)).1 with hm1
    set j := (m.newArg A (m.str (m.arg it).str)).2 with hj
    have hnot : j ∉ D ++ it :: K := fun hx => ha.node (hlive j hx)
    -- the list that `it` is on, with the new node at its end
    have hf := linkArg_fifo (ha.fifo h hlive) hnot ha.node_ne
    obtain ⟨it', K', hK⟩ : ∃ it' K', K ++ [j] = it' :: K' := by
      cases K with
      | nil => exact ⟨j, [], rfl⟩
      | cons a K => exact ⟨a, K ++ [j], rfl⟩
    have hL : (D ++ it :: K) ++ [j] = (D ++ [it]) ++ it' :: K' := by
      rw [← hK]
      simp
    rw [hL] at hf
    have hnext : (m1.linkArg t j).1.next it = it' := by
      have hl := hf.linked
      rw [List.append_assoc, linked_append] at hl
      exact hl.2.1
    have hlive' : ∀ x ∈ (D ++ [it]) ++ it' :: K', x ∈ (m1.linkArg t j).1.live := by
      intro x hx
      rw [← hL] at hx
      rw [linkArg_live]
      rcases List.mem_append.1 hx with hx | hx
      · exact ha.mono (hlive x hx)
      · rw [List.mem_singleton.1 hx]
        exact ha.live.1
    rw [copyArgsLoop, if_neg hit]
    have := ih hf hlive'
    rw [← hnext] at this
    exact this

/-- `copy_task` does not get past an argument. -/
theorem Holds.copyArgs (h : Holds m t L args) (hne : args ≠ []) (fuel : ℕ) : copyArgs A fuel m t = none := by
  cases L with
  | nil => exact absurd h.strs.symm hne
  | cons a L =>
    rw [ArgMem.copyArgs, h.fifo.first_eq]
    exact copyArgsLoop_endless fuel (D := []) h.fifo fun x hx => (h.live x hx).1

/-- **The law of the copied arguments**: the loop ends, the child has the same arguments in nodes of its own, and the
list of the parent is as it was. -/
def CopyArgsLaw (A : Allocator) (m : ArgMem) (t : ArgTask) (L : List ℕ) (args : List (List UInt8)) : Prop :=
  ∃ fuel m' nt, copyArgs A fuel m t = some (m', nt) ∧
    (∀ k, m'.taskGetArg nt k = m.taskGetArg t k) ∧
    (∀ k, args.length ≤ k → m'.taskGetArg nt k = none ∧ m.taskGetArg t k = none) ∧
    (∃ L', Fifo m'.next NULL nt.firstArg nt.lastArg L' NULL ∧ ∀ x ∈ L', x ∉ m.live) ∧
    Holds m' t L args

end ArgMem

/-- **`copy_task` copies an argument list iff it is empty.** -/
theorem copy_args_iff (A : Allocator) (m : ArgMem) (t : ArgTask) (L : List ℕ) (args : List (List UInt8))
    (h : ArgMem.Holds m t L args) : ArgMem.CopyArgsLaw A m t L args ↔ args = [] := by
  constructor
  · rintro ⟨fuel, m', nt, hc, -⟩
    by_contra hne
    rw [h.copyArgs hne fuel] at hc
    cases hc
  · rintro rfl
    obtain rfl : L = [] := List.map_eq_nil_iff.1 h.strs
    refine ⟨1, m, t, ?_, fun k => rfl, fun k hk => ?_, ⟨[], h.fifo, fun x hx => absurd hx List.not_mem_nil⟩, h⟩
    · have hfirst : t.firstArg = NULL := h.fifo.first_eq
      rw [ArgMem.copyArgs, ArgMem.copyArgsLoop, if_pos hfirst]
    · rw [h.taskGetArg]
      exact ⟨rfl, rfl⟩

/-- A task without arguments, which `create_task` makes of `NULL`. -/
theorem copy_args_iff_nil : ArgMem.CopyArgsLaw growing noArgs ⟨NULL, NULL⟩ [] [] :=
  (copy_args_iff growing noArgs ⟨NULL, NULL⟩ [] [] ⟨Links.Fifo.nil _ _ _, rfl, by simp, by simp⟩).2 rfl

/-- What `create_task` makes of one argument: the node is at `1`, the string at `2`. -/
def oneArg : ArgMem := (noArgs.createArgs growing (some [[97]])).1

/-- `fork` of a task with one argument never returns. -/
theorem copy_args_endless : ArgMem.Holds oneArg ⟨1, 1⟩ [1] [[97]] ∧
    ¬ ArgMem.CopyArgsLaw growing oneArg ⟨1, 1⟩ [1] [[97]] := by
  have h : ArgMem.Holds oneArg ⟨1, 1⟩ [1] [[97]] :=
    ⟨⟨rfl, rfl, ⟨rfl, trivial⟩, List.nodup_singleton _, by decide⟩, rfl, by decide, by decide⟩
  refine ⟨h, ?_⟩
  rintro ⟨fuel, m', nt, hc, -⟩
  rw [h.copyArgs (by decide) fuel] at hc
  cases hc

end Nettapus
