import Nettapus.Code.Ext2Dir
import Nettapus.Proof.Ext2
import Mathlib.Data.List.TakeWhile

/-!
# The records of an ext2 directory

`Tiles` says that the records from a place on fill the block. For such blocks the loops of the driver are
list functions of the records (`listBlock_spec`, `searchBlock_spec`), and the
loops over the blocks are list functions of all records up to the first block that is not there
(`listLoop_spec`, `searchLoop_spec`).
-/

namespace Nettapus

open Bytes Ext2Fs

variable {fs : Ext2Fs} {io : Io} {m buf buf' : Mem} {node : Ext2Inode} {i fuel : ℕ} {offs : List ℕ}

/-- The records from `i` to the end of a block of `bs` bytes start at these offsets. -/
inductive Tiles (bs : ℕ) (buf : Mem) : ℕ → List ℕ → Prop
  | nil : Tiles bs buf bs []
  | cons {i : ℕ} {offs : List ℕ} : 12 ≤ (dirEntry buf i).size →
      (dirEntry buf i).nameLen + 8 ≤ (dirEntry buf i).size →
      Tiles bs buf (i + (dirEntry buf i).size) offs → Tiles bs buf i (i :: offs)

namespace Tiles

variable {bs : ℕ}

/-- There is room for the records. -/
theorem length_le (h : Tiles bs buf i offs) : i + 12 * offs.length ≤ bs := by
  induction h with
  | nil => simp
  | cons h1 _ _ ih =>
    rw [List.length_cons]
    omega

theorem le (h : Tiles bs buf i offs) : i ≤ bs := by
  have := h.length_le
  omega

theorem eq_nil (h : Tiles bs buf bs offs) : offs = [] := by
  have := h.length_le
  exact List.length_eq_zero_iff.1 (by omega)

/-- A record with its name is inside the block. -/
theorem inside (h : Tiles bs buf i offs) : ∀ j ∈ offs, j + 12 ≤ bs ∧ j + 8 + (dirEntry buf j).nameLen ≤ bs := by
  induction h with
  | nil => exact fun j hj => absurd hj List.not_mem_nil
  | cons h1 h2 h3 ih =>
    intro j hj
    have := h3.le
    rcases List.mem_cons.1 hj with rfl | hj
    · omega
    · exact ih j hj

end Tiles

theorem dirEntry_congr {bs : ℕ} (h : ∀ x < bs, buf x = buf' x) (hi : i + 12 ≤ bs) :
    dirEntry buf i = dirEntry buf' i := by
  unfold dirEntry
  rw [load_congr fun x _ h2 => h x (by omega), load_congr fun x _ h2 => h x (by omega),
    load_congr fun x _ h2 => h x (by omega), load_congr fun x _ h2 => h x (by omega), h (i + 8) (by omega)]

theorem Tiles.congr {bs : ℕ} (ht : Tiles bs buf i offs) (h : ∀ x < bs, buf x = buf' x) : Tiles bs buf' i offs := by
  induction ht with
  | nil => exact .nil
  | @cons j offs h1 h2 h3 ih =>
    have he := dirEntry_congr h (show j + 12 ≤ bs by have := h3.le; omega)
    rw [he] at h1 h2 ih
    exact .cons h1 h2 ih

/-! ## Names -/

theorem strlenLoop_spec {n : ℕ} : ∀ {fuel a : ℕ}, n < fuel →
    (strlenLoop buf fuel a = some n ↔ buf (a + n) = 0 ∧ ∀ j < n, buf (a + j) ≠ 0) := by
  induction n with
  | zero =>
    intro fuel a hf
    obtain ⟨f, rfl⟩ : ∃ f, fuel = f + 1 := ⟨fuel - 1, by omega⟩
    rw [strlenLoop]
    split_ifs with h0
    · simp [h0]
    · simp [h0]
  | succ n ih =>
    intro fuel a hf
    obtain ⟨f, rfl⟩ : ∃ f, fuel = f + 1 := ⟨fuel - 1, by omega⟩
    rw [strlenLoop]
    split_ifs with h0
    · refine ⟨fun hc => absurd hc (by simp), fun hc => absurd h0 (hc.2 0 (by omega))⟩
    · have hstep := ih (show n < f by omega) (a := a + 1)
      rw [show a + (n + 1) = a + 1 + n by omega]
      constructor
      · intro hc
        obtain ⟨k, hk, hkn⟩ := Option.map_eq_some_iff.1 hc
        obtain rfl : k = n := by omega
        obtain ⟨h1, h2⟩ := hstep.1 hk
        refine ⟨h1, fun j hj => ?_⟩
        rcases j with _ | j
        · exact h0
        · have := h2 j (by omega)
          rwa [show a + 1 + j = a + (j + 1) by omega] at this
      · rintro ⟨h1, h2⟩
        rw [hstep.2 ⟨h1, fun j hj => ?_⟩]
        · rfl
        · have := h2 (j + 1) (by omega)
          rwa [show a + (j + 1) = a + 1 + j by omega] at this

theorem zero_notMem_bytes {a n : ℕ} : (0 : UInt8) ∉ bytes buf a n ↔ ∀ j < n, buf (a + j) ≠ 0 := by
  unfold bytes
  simp only [List.mem_map, List.mem_range, not_exists, not_and]

theorem cString_of_notMem {l : List UInt8} (h : (0 : UInt8) ∉ l) : cString l = l := by
  unfold cString
  rw [List.takeWhile_eq_self_iff]
  intro x hx
  simp only [decide_eq_true_eq]
  rintro rfl
  exact h hx

/-! ## One block -/

theorem mapM_congr {α β : Type} {f g : α → Option β} {l : List α} (h : ∀ a ∈ l, f a = g a) :
    l.mapM f = l.mapM g := by
  induction l with
  | nil => rfl
  | cons a l ih =>
    rw [List.mapM_cons, List.mapM_cons, h a List.mem_cons_self, ih fun b hb => h b (List.mem_cons_of_mem _ hb)]

/-- **Listing a block.** -/
theorem listBlock_spec {keep : Ext2DirEntry → Bool} {name : ℕ → Option (List UInt8)}
    (ht : Tiles fs.blockSize buf i offs) : ∀ {fuel : ℕ} {names : List (List UInt8)}, i < fs.blockSize →
    offs.length ≤ fuel →
    listBlock fs io keep name buf fuel i names =
      ((offs.filter fun j => keep (dirEntry buf j)).mapM fun j => newTnode io (name j)).map
        fun l => (false, names ++ l) := by
  induction ht with
  | nil => exact fun hlt => absurd hlt (lt_irrefl _)
  | @cons j offs h1 h2 h3 ih =>
    intro fuel names hlt hf
    obtain ⟨f, rfl⟩ : ∃ f, fuel = f + 1 := ⟨fuel - 1, by rw [List.length_cons] at hf; omega⟩
    rw [List.length_cons] at hf
    have hrest : ∀ names, (if j + (dirEntry buf j).size ≥ fs.blockSize then some (false, names)
        else listBlock fs io keep name buf f (j + (dirEntry buf j).size) names) =
        ((offs.filter fun j => keep (dirEntry buf j)).mapM fun j => newTnode io (name j)).map
          fun l => (false, names ++ l) := by
      intro names
      split_ifs with hend
      · have he : j + (dirEntry buf j).size = fs.blockSize := le_antisymm h3.le hend
        rw [he] at h3
        rw [h3.eq_nil]
        simp
      · exact ih (by omega) (by omega)
    rw [listBlock]
    rw [if_neg (by unfold dirEntrySize; omega)]
    cases hk : keep (dirEntry buf j) with
    | false =>
      rw [if_neg (by decide), Option.bind_some, hrest, List.filter_cons_of_neg (by simp [hk])]
    | true =>
      rw [if_pos rfl, List.filter_cons_of_pos (by simp [hk]), List.mapM_cons]
      cases newTnode io (name j) with
      | none => rfl
      | some n =>
        rw [Option.map_some, Option.bind_some, hrest]
        cases ((offs.filter fun j => keep (dirEntry buf j)).mapM fun j => newTnode io (name j)) with
        | none => rfl
        | some l => simp

/-- **Searching a block.** -/
theorem searchBlock_spec {fileName : List UInt8} (ht : Tiles fs.blockSize buf i offs) : ∀ {fuel : ℕ},
    i < fs.blockSize → offs.length ≤ fuel →
    searchBlock fs fileName buf fuel i =
      some (match offs.find? fun j => cString (entryName buf j) = fileName with
        | none => .next
        | some j => .success (dirEntry buf j)) := by
  induction ht with
  | nil => exact fun hlt => absurd hlt (lt_irrefl _)
  | @cons j offs h1 h2 h3 ih =>
    intro fuel hlt hf
    obtain ⟨f, rfl⟩ : ∃ f, fuel = f + 1 := ⟨fuel - 1, by rw [List.length_cons] at hf; omega⟩
    rw [List.length_cons] at hf
    have hle := h3.le
    rw [searchBlock]
    rw [if_neg (by omega)]
    by_cases hm : cString (entryName buf j) = fileName
    · rw [if_pos hm, List.find?_cons_of_pos (by simpa using hm)]
    · rw [if_neg hm, List.find?_cons_of_neg (by simpa using hm)]
      split_ifs with hend
      · have he : j + (dirEntry buf j).size = fs.blockSize := le_antisymm hle hend
        rw [he] at h3
        rw [h3.eq_nil]
        rfl
      · exact ih (by omega) (by omega)

/-! ## All blocks -/

/-- The block `k` of a directory can be read, and its records start at `offs`. -/
structure BlockOk (fs : Ext2Fs) (io : Io) (m : Mem) (node : Ext2Inode) (offs : ℕ → List ℕ) (k : ℕ) : Prop where
  map : fs.opensMap io node k = true
  mapped : fs.fileBlock m node k ≠ 0
  loads : fs.loads io (fs.fileBlock m node k) = true
  tiled : Tiles fs.blockSize (fs.blockAt m (fs.fileBlock m node k)) 0 (offs k)

/-- The places of the records of the blocks `ks`. -/
def positions (offs : ℕ → List ℕ) (ks : List ℕ) : List (ℕ × ℕ) := ks.flatMap fun k => (offs k).map (Prod.mk k)

/-- The record at a place, and its name. -/
def entryAt (fs : Ext2Fs) (m : Mem) (node : Ext2Inode) (p : ℕ × ℕ) : Ext2DirEntry :=
  dirEntry (fs.blockAt m (fs.fileBlock m node p.1)) p.2

def nameAt (fs : Ext2Fs) (m : Mem) (node : Ext2Inode) (p : ℕ × ℕ) : List UInt8 :=
  entryName (fs.blockAt m (fs.fileBlock m node p.1)) p.2

theorem overlay_eq {b x : ℕ} (hx : x < fs.blockSize) : overlay fs m b buf x = fs.blockAt m b x := by
  unfold overlay
  exact if_pos hx

theorem entryName_congr {bs : ℕ} (h : ∀ x < bs, buf x = buf' x) (hi : i + 12 ≤ bs)
    (hn : i + 8 + (dirEntry buf i).nameLen ≤ bs) : entryName buf i = entryName buf' i := by
  unfold entryName
  rw [← dirEntry_congr h hi]
  exact bytes_congr fun j hj => h _ (by omega)

/-- **Listing a directory** whose block `hole` is the first that is not there. -/
theorem listLoop_spec (h : fs.Ok) (hmem : io.noMem fs.blockSize = false) {keep : Ext2DirEntry → Bool}
    {name : ℕ → Mem → ℕ → Option (List UInt8)} {str : ℕ × ℕ → Option (List UInt8)} {offs : ℕ → List ℕ} {hole : ℕ}
    (hok : ∀ k < hole, BlockOk fs io m node offs k) (hend : ext2BlockInInode fs io m node hole = 0)
    (hname : ∀ k < hole, ∀ buf, (∀ x < fs.blockSize, buf x = fs.blockAt m (fs.fileBlock m node k) x) →
      ∀ i ∈ offs k, name k buf i = str (k, i)) :
    ∀ {n block fuel : ℕ} {buf : Mem} {names : List (List UInt8)}, block + n = hole → n < fuel →
    listLoop fs io m keep name node fuel block buf names =
      (((positions offs (List.range' block n)).filter fun p => keep (entryAt fs m node p)).mapM
        fun p => newTnode io (str p)).map fun l => ((names ++ l).length, names ++ l) := by
  intro n
  induction n with
  | zero =>
    intro block fuel buf names hb hf
    obtain ⟨f, rfl⟩ : ∃ f, fuel = f + 1 := ⟨fuel - 1, by omega⟩
    rw [Nat.add_zero] at hb
    rw [listLoop, hb]
    rw [if_pos hend]
    simp [positions]
  | succ n ih =>
    intro block fuel buf names hb hf
    obtain ⟨f, rfl⟩ : ∃ f, fuel = f + 1 := ⟨fuel - 1, by omega⟩
    obtain ⟨h1, h2, h3, h4⟩ := hok block (by omega)
    have hbuf : ∀ x < fs.blockSize, overlay fs m (fs.fileBlock m node block) buf x =
        fs.blockAt m (fs.fileBlock m node block) x := fun x hx => overlay_eq hx
    have ht := h4.congr fun x hx => (hbuf x hx).symm
    have hlen := ht.length_le
    rw [listLoop]
    rw [ext2BlockInInode_eq h, if_pos h1, if_neg h2, hmem, if_neg (by decide),
      ext2LoadBlocks_eq h (fileBlock_lt.trans (by decide)), if_pos h3]
    dsimp only
    rw [listBlock_spec ht (by have := (h.block_arith (show 0 < 2 ^ 38 by decide)).1; omega) (by omega)]
    have hpos : positions offs (List.range' block (n + 1)) =
        (offs block).map (Prod.mk block) ++ positions offs (List.range' (block + 1) n) := by
      simp [positions, List.range'_succ]
    rw [hpos, List.filter_append, List.mapM_append, List.filter_map, List.mapM_map]
    -- the records of the buffer are those of the block
    have hfil : ((offs block).filter fun j => keep (dirEntry (overlay fs m (fs.fileBlock m node block) buf) j)) =
        (offs block).filter ((fun p => keep (entryAt fs m node p)) ∘ Prod.mk block) := by
      apply List.filter_congr
      intro j hj
      unfold entryAt
      rw [dirEntry_congr hbuf (ht.inside j hj).1]
      rfl
    have hmap : ((offs block).filter ((fun p => keep (entryAt fs m node p)) ∘ Prod.mk block)).mapM
          (fun j => newTnode io (name block (overlay fs m (fs.fileBlock m node block) buf) j)) =
        ((offs block).filter ((fun p => keep (entryAt fs m node p)) ∘ Prod.mk block)).mapM
          ((fun p => newTnode io (str p)) ∘ Prod.mk block) := by
      apply mapM_congr
      intro j hj
      rw [hname block (by omega) _ hbuf j (List.mem_of_mem_filter hj)]
      rfl
    rw [hfil, hmap]
    cases ((offs block).filter ((fun p => keep (entryAt fs m node p)) ∘ Prod.mk block)).mapM
        ((fun p => newTnode io (str p)) ∘ Prod.mk block) with
    | none => rfl
    | some l =>
      rw [Option.map_some, Option.bind_some, if_neg (show ¬ false = true by decide), ih (by omega) (by omega)]
      cases ((positions offs (List.range' (block + 1) n)).filter fun p => keep (entryAt fs m node p)).mapM
          fun p => newTnode io (str p) with
      | none => rfl
      | some l' => simp

theorem find_congr {α : Type} {p q : α → Bool} {l : List α} (h : ∀ a ∈ l, p a = q a) : l.find? p = l.find? q := by
  induction l with
  | nil => rfl
  | cons a l ih =>
    rw [List.find?_cons, List.find?_cons, h a List.mem_cons_self, ih fun b hb => h b (List.mem_cons_of_mem _ hb)]

/-- **Searching a directory** whose block `hole` is the first that is not there. -/
theorem searchLoop_spec (h : fs.Ok) (hmem : ∀ s, io.noMem s = false) {fileName : List UInt8} {offs : ℕ → List ℕ}
    {hole : ℕ} (hok : ∀ k < hole, BlockOk fs io m node offs k) (hend : ext2BlockInInode fs io m node hole = 0) :
    ∀ {n block fuel : ℕ} {dir : Mem}, block + n = hole → n < fuel →
    searchLoop fs io m fileName node fuel block dir =
      some (((positions offs (List.range' block n)).find? fun p => cString (nameAt fs m node p) = fileName).map
        (entryAt fs m node)) := by
  intro n
  induction n with
  | zero =>
    intro block fuel dir hb hf
    obtain ⟨f, rfl⟩ : ∃ f, fuel = f + 1 := ⟨fuel - 1, by omega⟩
    rw [Nat.add_zero] at hb
    rw [searchLoop, hb]
    rw [if_pos hend]
    simp [positions]
  | succ n ih =>
    intro block fuel dir hb hf
    obtain ⟨f, rfl⟩ : ∃ f, fuel = f + 1 := ⟨fuel - 1, by omega⟩
    obtain ⟨h1, h2, h3, h4⟩ := hok block (by omega)
    have hbuf : ∀ x < fs.blockSize, overlay fs m (fs.fileBlock m node block) dir x =
        fs.blockAt m (fs.fileBlock m node block) x := fun x hx => overlay_eq hx
    have ht := h4.congr fun x hx => (hbuf x hx).symm
    have hlen := ht.length_le
    rw [searchLoop, ext2BlockInInode_eq h, if_pos h1, if_neg h2, hmem, if_neg (by decide),
      ext2LoadBlocks_eq h (fileBlock_lt.trans (by decide)), if_pos h3]
    dsimp only
    rw [searchBlock_spec ht (by have := (h.block_arith (show 0 < 2 ^ 38 by decide)).1; omega) (by omega)]
    have hpos : positions offs (List.range' block (n + 1)) =
        (offs block).map (Prod.mk block) ++ positions offs (List.range' (block + 1) n) := by
      simp [positions, List.range'_succ]
    have hfind : ((offs block).find? fun j =>
          cString (entryName (overlay fs m (fs.fileBlock m node block) dir) j) = fileName) =
        (offs block).find? ((fun p => cString (nameAt fs m node p) = fileName) ∘ Prod.mk block) := by
      apply find_congr
      intro j hj
      unfold nameAt
      obtain ⟨hi, hn⟩ := ht.inside j hj
      rw [entryName_congr hbuf hi hn]
      rfl
    rw [hpos, List.find?_append, List.find?_map, hfind]
    cases hf : (offs block).find? ((fun p => cString (nameAt fs m node p) = fileName) ∘ Prod.mk block) with
    | none =>
      rw [Option.bind_some]
      dsimp only
      rw [ih (by omega) (by omega)]
      rfl
    | some j =>
      have hj := List.mem_of_find?_eq_some hf
      rw [Option.bind_some]
      dsimp only
      rw [hmem, if_neg (by decide), dirEntry_congr hbuf (ht.inside j hj).1]
      rfl

/-! ## Directories of any content -/

/-- The buffer with the block `k` of a directory. -/
def dirBuf (fs : Ext2Fs) (io : Io) (m : Mem) (node : Ext2Inode) (k : ℕ) : Mem :=
  overlay fs m (ext2BlockInInode fs io m node k) io.garbage

theorem overlay_congr {b : ℕ} (h : ∀ x, fs.blockSize ≤ x → buf x = buf' x) :
    overlay fs m b buf = overlay fs m b buf' := by
  funext x
  unfold overlay
  split_ifs with hx
  · rfl
  · exact h x (not_lt.1 hx)

theorem blockInInode_lt (h : fs.Ok) {k : ℕ} : ext2BlockInInode fs io m node k < 2 ^ 38 := by
  rw [ext2BlockInInode_eq h]
  split_ifs
  · exact fs.fileBlock_lt.trans (by decide)
  · decide

/-- The block that is loaded is the one of `dirBuf`. -/
theorem loadBlocks_dirBuf (h : fs.Ok) (hm : io.noMem fs.blockSize = false)
    (hbuf : ∀ x, fs.blockSize ≤ x → buf x = io.garbage x) :
    (if io.noMem fs.blockSize then none else ext2LoadBlocks fs io m buf (ext2BlockInInode fs io m node k) 1) =
      if fs.opens io (ext2BlockInInode fs io m node k) then some (dirBuf fs io m node k) else none := by
  unfold Ext2Fs.opens dirBuf
  rw [hm, if_neg (by decide), ext2LoadBlocks_eq h (blockInInode_lt h), overlay_congr hbuf]
  rfl

theorem dirBuf_behind {x : ℕ} (hx : fs.blockSize ≤ x) : dirBuf fs io m node k x = io.garbage x :=
  if_neg (not_lt.2 hx)

/-- A listing returns before it looks at a block. -/
def FailsEarly (fs : Ext2Fs) (io : Io) (m : Mem) (inode : ℕ) : Prop :=
  inode < 2 ∨ io.noMem inodeSize = true ∨ ext2LoadInode fs io m inode = none

end Nettapus
