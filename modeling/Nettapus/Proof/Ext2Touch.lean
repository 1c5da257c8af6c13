import Nettapus.Code.Ext2Touch
import Nettapus.Proof.Ext2Init

/-!
# Which inode numbers get to the disk

The only check of an inode number is the one of its group, `group > group_count`. `loadInodeTouch_eq` and
`writeInodeTouch_eq` say that the functions with the sectors are those of the driver.

`inode_range_iff`: a number that is not one of an inode is turned away exactly if it is 0 or behind one more group than
there are, or if the descriptor of its group cannot be read.
-/

namespace Nettapus

open Bytes

variable {dev : Drive} {fs : Ext2Fs} {io : Io} {m : Mem} {special : Option Ext2Fs} {g i n count b : ℕ} {x : Ext2Inode}

/-! ## The functions and their sectors -/

theorem loadGroupDesTouch_eq : (loadGroupDesTouch fs io m g).2 = ext2LoadGroupDes fs io m g := by
  unfold loadGroupDesTouch ext2LoadGroupDes
  split_ifs <;> simp [loadBlockTouch]

theorem loadInodeAtTouch_eq : (loadInodeAtTouch fs io m g i).2 =
    if io.noMem groupDesSize then none
    else (ext2LoadGroupDes fs io m g).bind fun gd =>
      (loadBlock fs io m (u64 (gd.inodeTableAddr + i * inodeSize / fs.blockSize))).map fun buf =>
        ⟨fun x => buf (i % (fs.blockSize / inodeSize) * inodeSize + x)⟩ := by
  rw [← loadGroupDesTouch_eq]
  unfold loadInodeAtTouch
  generalize loadGroupDesTouch fs io m g = des
  obtain ⟨touched, gd⟩ := des
  cases gd <;> split_ifs <;> simp [loadBlockTouch]

theorem loadInodeTouch_eq : (loadInodeTouch fs io m n).2 = ext2LoadInode fs io m n := loadInodeAtTouch_eq

theorem writeInodeAtTouch_eq : (writeInodeAtTouch fs io m x g i).2 =
    match ext2LoadGroupDes fs io m g with
    | none => (ERR_DISK, m)
    | some gd =>
      match loadBlock fs io m (u64 (i * inodeSize / fs.blockSize + gd.inodeTableAddr)) with
      | none => (ERR_DISK, m)
      | some buf => ext2WriteBlocks fs io m (patch buf (i * inodeSize % fs.blockSize) inodeSize x.bytes)
          (u64 (i * inodeSize / fs.blockSize + gd.inodeTableAddr)) 1 := by
  rw [← loadGroupDesTouch_eq]
  unfold writeInodeAtTouch
  generalize loadGroupDesTouch fs io m g = des
  obtain ⟨touched, gd⟩ := des
  cases gd with
  | none => simp
  | some gd =>
    dsimp only [loadBlockTouch]
    cases loadBlock fs io m (u64 (i * inodeSize / fs.blockSize + gd.inodeTableAddr)) <;> simp

theorem writeInodeTouch_eq : (writeInodeTouch fs io m x n).2 = ext2WriteInode fs io m x n := by
  rw [writeInodeTouch, writeInodeAtTouch_eq]
  cases hgd : ext2LoadGroupDes fs io m (inodeGroup fs n) with
  | none => rw [ext2WriteInode_none hgd]
  | some gd =>
    refine Eq.trans ?_ (ext2WriteInode_some hgd).symm
    cases hload : loadBlock fs io m (u64 (inodeIndex fs n * inodeSize / fs.blockSize + gd.inodeTableAddr)) <;> simp [hload]

/-! ## When nothing is touched -/

/-- A block that is loaded has sectors that were read. -/
theorem blockSectors_ne_nil (h : fs.Ok) (hb : b < 2 ^ 38) (hl : fs.loads io b = true) : blockSectors fs io b ≠ [] := by
  obtain ⟨-, h2, -, h4, h5, -⟩ := h.block_arith hb
  have hr := (loads_iff (fun _ => 0) (fun _ => 0)).1 hl
  unfold blockSectors Drive.sectors
  rcases h.drive.request_cases h.dev h2 h4 h5 with ⟨hst, hne⟩ | hreq
  · unfold driveReadSectors at hr
    split at hr
    · exact absurd ‹_› (hne _)
    · exact absurd hr hst
  · unfold driveReadSectors idePioRead48 at hr
    rw [hreq] at hr ⊢
    dsimp only at hr ⊢
    split_ifs at hr ⊢ with href
    · cases hr
    · rw [pioCount_of_none h4 (pioStatus_eq_zero hr)]
      simp only [ne_eq, List.map_eq_nil_iff, List.range_eq_nil]
      omega

/-- **The descriptor of a group is read** if the group passes the check, there is memory, and the drive gives its block. -/
theorem loadGroupDesTouch_nil : (loadGroupDesTouch fs io m g).1 = [] ↔
    fs.groupCount < g ∨ io.noMem fs.blockSize = true ∨ blockSectors fs io (fs.groupBlock g) = [] := by
  unfold loadGroupDesTouch
  by_cases hg : g > fs.groupCount
  · simp [hg]
  · simp [hg, loadBlockTouch, Ext2Fs.groupBlock]
    cases io.noMem fs.blockSize <;> simp

/-- What is not read is not there. -/
theorem loadGroupDes_untouched (h : fs.Sized) (hk : io.Kernel) (ht : (loadGroupDesTouch fs io m g).1 = []) :
    ext2LoadGroupDes fs io m g = none := by
  by_cases hg : g ≤ fs.groupCount
  swap
  · unfold ext2LoadGroupDes
    rw [if_pos (not_le.1 hg)]
  cases hm : io.noMem fs.blockSize with
  | true => exact ext2LoadGroupDes_noMem hm
  | false =>
    have hok := h.ok hk hm
    refine (ext2LoadGroupDes_eq hok hg).2 fun ho => ?_
    have hl : fs.loads io (fs.groupBlock g) = true := by
      unfold Ext2Fs.opens at ho
      simpa [hm] using ho
    have hne := blockSectors_ne_nil hok (hok.groupBlock_lt hg) hl
    rcases loadGroupDesTouch_nil.1 ht with h1 | h1 | h1
    · omega
    · rw [hm] at h1
      cases h1
    · exact hne h1

/-- If there is a descriptor, something was touched. -/
theorem loadGroupDesTouch_some (h : fs.Sized) (hk : io.Kernel) {touched : List ℕ} {gd : GroupDes}
    (hdes : loadGroupDesTouch fs io m g = (touched, some gd)) : touched ≠ [] := by
  rintro rfl
  have hnone := loadGroupDes_untouched (m := m) (g := g) h hk (by rw [hdes])
  rw [← loadGroupDesTouch_eq, hdes] at hnone
  cases hnone

theorem loadInodeAtTouch_nil (h : fs.Sized) (hk : io.Kernel) : (loadInodeAtTouch fs io m g i).1 = [] ↔
    io.noMem groupDesSize = true ∨ (loadGroupDesTouch fs io m g).1 = [] := by
  unfold loadInodeAtTouch
  cases hdes : loadGroupDesTouch fs io m g with
  | mk touched gd =>
    cases gd with
    | none => cases hm : io.noMem groupDesSize <;> simp
    | some gd =>
      have hne := loadGroupDesTouch_some h hk hdes
      cases hm : io.noMem groupDesSize <;> simp [hne]

theorem writeInodeAtTouch_nil (h : fs.Sized) (hk : io.Kernel) : (writeInodeAtTouch fs io m x g i).1 = [] ↔
    (loadGroupDesTouch fs io m g).1 = [] := by
  unfold writeInodeAtTouch
  cases hdes : loadGroupDesTouch fs io m g with
  | mk touched gd =>
    cases gd with
    | none => simp
    | some gd =>
      have hne := loadGroupDesTouch_some h hk hdes
      dsimp only [loadBlockTouch]
      cases loadBlock fs io m (u64 (i * inodeSize / fs.blockSize + gd.inodeTableAddr)) <;> simp [hne]

/-- Without the descriptor both functions fail, and the disk stays as it is. -/
theorem untouched_fails (h : fs.Sized) (hk : io.Kernel) (ht : (loadGroupDesTouch fs io m g).1 = []) :
    (loadInodeAtTouch fs io m g i).2 = none ∧ (writeInodeAtTouch fs io m x g i).2 = (ERR_DISK, m) := by
  rw [loadInodeAtTouch_eq, writeInodeAtTouch_eq, loadGroupDes_untouched h hk ht]
  simp

/-! ## The group of a number -/

/-- **The check of the group** lets the numbers of one group too many through. -/
theorem inodeGroup_gt_iff (hi : 0 < fs.inodesInGroup) (hi' : fs.inodesInGroup < 2 ^ 32) (hg : fs.groupCount ≤ 2 ^ 32)
    (hn : n < 2 ^ 64) : fs.groupCount < inodeGroup fs n ↔ n = 0 ∨ (fs.groupCount + 1) * fs.inodesInGroup < n := by
  unfold inodeGroup
  rw [Nat.lt_iff_add_one_le, Nat.le_div_iff_mul_le hi]
  rcases Nat.eq_zero_or_pos n with rfl | hpos
  · -- `inode_num - 1` wraps to a number that is behind all groups
    have hwrap : sub64 0 1 = 2 ^ 64 - 1 := by decide
    have hle : (fs.groupCount + 1) * fs.inodesInGroup ≤ (2 ^ 32 + 1) * (2 ^ 32 - 1) :=
      Nat.mul_le_mul (by omega) (by omega)
    rw [hwrap]
    simp only [true_or, iff_true]
    omega
  · rw [sub64_of_le hpos hn]
    omega

/-! ## The law -/

/-- The numbers of the inodes of a file system. -/
def InRange (count n : ℕ) : Prop := 1 ≤ n ∧ n ≤ count

instance (count n : ℕ) : Decidable (InRange count n) := inferInstanceAs (Decidable (_ ∧ _))

/-- `ext2_load_inode` touches the disk for an inode of the file system only, and for other numbers it fails. -/
structure LoadRange (fs : Ext2Fs) (io : Io) (m : Mem) (count n : ℕ) : Prop where
  touch : (loadInodeTouch fs io m n).1 ≠ [] → InRange count n
  error : ¬ InRange count n → (loadInodeTouch fs io m n).2 = none

/-- `ext2_write_inode` too, and then the disk is as it was. -/
structure WriteRange (fs : Ext2Fs) (io : Io) (m : Mem) (count : ℕ) (x : Ext2Inode) (n : ℕ) : Prop where
  touch : (writeInodeTouch fs io m x n).1 ≠ [] → InRange count n
  error : ¬ InRange count n → (writeInodeTouch fs io m x n).2.1 ≠ GENERIC_SUCCESS ∧ (writeInodeTouch fs io m x n).2.2 = m

theorem loadRange_iff (h : fs.Sized) (hk : io.Kernel) :
    LoadRange fs io m count n ↔ InRange count n ∨ (loadInodeTouch fs io m n).1 = [] := by
  by_cases hr : InRange count n
  · exact iff_of_true ⟨fun _ => hr, fun hc => absurd hr hc⟩ (Or.inl hr)
  · constructor
    · intro hl
      exact Or.inr (by_contra fun ht => hr (hl.touch ht))
    · rintro (hc | ht)
      · exact absurd hc hr
      · refine ⟨fun hne => absurd ht hne, fun _ => ?_⟩
        rcases (loadInodeAtTouch_nil h hk).1 ht with hm | hdes
        · rw [loadInodeTouch, loadInodeAtTouch_eq, if_pos hm]
        · exact (untouched_fails (x := ⟨m⟩) h hk hdes).1

theorem writeRange_iff (h : fs.Sized) (hk : io.Kernel) :
    WriteRange fs io m count x n ↔ InRange count n ∨ (writeInodeTouch fs io m x n).1 = [] := by
  by_cases hr : InRange count n
  · exact iff_of_true ⟨fun _ => hr, fun hc => absurd hr hc⟩ (Or.inl hr)
  · constructor
    · intro hl
      exact Or.inr (by_contra fun ht => hr (hl.touch ht))
    · rintro (hc | ht)
      · exact absurd hc hr
      · refine ⟨fun hne => absurd ht hne, fun _ => ?_⟩
        rw [writeInodeTouch, (untouched_fails h hk ((writeInodeAtTouch_nil h hk).1 ht)).2]
        exact ⟨(by decide : ERR_DISK ≠ GENERIC_SUCCESS), rfl⟩

/-- **Which inode numbers are checked.** In a file system that is accepted, a number that is no inode's is turned away
before the disk exactly if it is 0 or behind one more group than there are, or if the descriptor of its group is not
read: for want of memory, or because the drive transfers no sector of its block. -/
theorem inode_range_iff (hd : dev.Accepted) (hdev : dev.dev.Ok)
    (ha : ext2InitFs dev io m special = .ret GENERIC_SUCCESS (some fs)) (io' : Io) (hk : io'.Kernel) (m' : Mem)
    (hn : n < 2 ^ 64) :
    (LoadRange fs io' m' (dev.superblock m).inodeCount n ↔
      InRange (dev.superblock m).inodeCount n ∨ n = 0 ∨ (fs.groupCount + 1) * fs.inodesInGroup < n ∨
        io'.noMem groupDesSize = true ∨ io'.noMem fs.blockSize = true ∨ blockSectors fs io' (fs.desBlock n) = []) ∧
    ∀ x, WriteRange fs io' m' (dev.superblock m).inodeCount x n ↔
      InRange (dev.superblock m).inodeCount n ∨ n = 0 ∨ (fs.groupCount + 1) * fs.inodesInGroup < n ∨
        io'.noMem fs.blockSize = true ∨ blockSectors fs io' (fs.desBlock n) = [] := by
  have h := accepted_sized hd hdev ha
  have hg : fs.groupCount ≤ 2 ^ 32 := by
    obtain ⟨-, -, -, g, t, hg, -, rfl⟩ := accepted_eq hd hdev ha
    have hcount : (dev.superblock m).inodeCount < 2 ^ 32 := load_lt _ 4 _
    have hle := groupsOf_le hg
    dsimp only
    omega
  have hgroup := inodeGroup_gt_iff h.inodes_pos h.inodes_lt hg hn
  have hblock : fs.groupBlock (inodeGroup fs n) = fs.desBlock n := rfl
  refine ⟨?_, fun x => ?_⟩
  · rw [loadRange_iff h hk, loadInodeTouch, loadInodeAtTouch_nil h hk, loadGroupDesTouch_nil, hgroup, hblock]
    simp only [or_assoc, or_left_comm]
  · rw [writeRange_iff h hk, writeInodeTouch, writeInodeAtTouch_nil h hk, loadGroupDesTouch_nil, hgroup, hblock]
    simp only [or_assoc]

/-- The inode 3 of a file system with 8 inodes, and the number 0. -/
theorem inode_range_small : LoadRange smallFs Io.calm (superImage 0 0) 8 3 ∧
    WriteRange smallFs Io.calm (superImage 0 0) 8 ⟨fun _ => 7⟩ 0 := by
  have ha : ext2InitFs smallFs.dev Io.calm (superImage 0 0) none = .ret GENERIC_SUCCESS (some smallFs) := by
    decide +kernel
  have hcount : (smallFs.dev.superblock (superImage 0 0)).inodeCount = 8 := by decide +kernel
  have hlaw := fun n (hn : n < 2 ^ 64) =>
    inode_range_iff smallFs_ok.drive smallFs_ok.dev ha Io.calm Io.calm_kernel (superImage 0 0) hn
  rw [hcount] at hlaw
  exact ⟨(hlaw 3 (by decide)).1.2 (Or.inl (by decide)), ((hlaw 0 (by decide)).2 _).2 (Or.inr (Or.inl rfl))⟩

/-- **The number 9 gets through** in a file system with 8 inodes: the descriptor behind the last group is read, and the
inode is written to the block 0. -/
theorem inode_range_behind :
    ext2InitFs smallFs.dev Io.calm (superImage 0 0) none = .ret GENERIC_SUCCESS (some smallFs) ∧
    (smallFs.dev.superblock (superImage 0 0)).inodeCount = 8 ∧
    (loadInodeTouch smallFs Io.calm (superImage 0 0) 9).1 = [4, 5, 0, 1] ∧
    (writeInodeTouch smallFs Io.calm (superImage 0 0) ⟨fun _ => 7⟩ 9).2.1 = GENERIC_SUCCESS ∧
    (writeInodeTouch smallFs Io.calm (superImage 0 0) ⟨fun _ => 7⟩ 9).2.2 0 = 7 ∧
    ¬ LoadRange smallFs Io.calm (superImage 0 0) 8 9 ∧
    ¬ WriteRange smallFs Io.calm (superImage 0 0) 8 ⟨fun _ => 7⟩ 9 := by
  have hload : (loadInodeTouch smallFs Io.calm (superImage 0 0) 9).1 = [4, 5, 0, 1] := by decide +kernel
  have hwrite : (writeInodeTouch smallFs Io.calm (superImage 0 0) ⟨fun _ => 7⟩ 9).2.1 = GENERIC_SUCCESS := by
    decide +kernel
  have hout : ¬ InRange 8 9 := fun h => absurd h.2 (by decide)
  refine ⟨by decide +kernel, by decide +kernel, hload, hwrite, by decide +kernel, fun h => hout (h.touch ?_),
    fun h => (h.error hout).1 hwrite⟩
  rw [hload]
  simp

end Nettapus
