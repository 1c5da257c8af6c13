import Nettapus.Code.Ext2Init
import Nettapus.Proof.Ext2Inode

/-!
# What `ext2_init_fs` accepts

`ext2InitFs_eq` says what the call comes to in terms of the superblock on the disk, and `fsOfSuperblock_cases`
lists the ends it can have once the signature is right. A file system that is accepted is one that the lemmas
about inodes apply to (`accepted_sized`).

* `init_sound_iff`: which superblocks are handled as they should be.
* `inode_stride_iff`: the inodes are where the format puts them only if they have 128 bytes.
-/

namespace Nettapus

open Bytes Ext2Fs

variable {dev : Drive} {io : Io} {m m' : Mem} {special : Option Ext2Fs} {sb sb' : Ext2Superblock} {fs : Ext2Fs}
  {k n c g b : ℕ} {x : Ext2Inode}

/-! ## The arithmetic of the superblock -/

/-- The block sizes up to 1 GiB are those that the shift can compute. -/
theorem shift1024_eq (k : ℕ) : shift1024 k = if k ≤ 20 then some (1024 * 2 ^ k) else none := by
  unfold shift1024
  by_cases hk : k ≤ 20
  · have hpow : 2 ^ k ≤ 2 ^ 20 := Nat.pow_le_pow_right (by decide) hk
    rw [if_pos hk, if_pos ⟨by omega, by omega⟩]
  · have hpow : 2 ^ 21 ≤ 2 ^ k := Nat.pow_le_pow_right (by decide) (by omega)
    rw [if_neg hk, if_neg fun hc => by omega]

theorem groupsOf_zero : groupsOf c 0 = none := rfl

/-- There is a group if there is something to put into it. -/
theorem groupsOf_pos (h : groupsOf c n = some g) : 0 < g ↔ c ≠ 0 := by
  unfold groupsOf at h
  split_ifs at h with h0 hr
  · obtain rfl := Option.some.inj h
    have hc : c ≠ 0 := fun hc => hr (by rw [hc, Nat.zero_mod])
    exact ⟨fun _ => hc, fun _ => Nat.succ_pos _⟩
  · obtain rfl := Option.some.inj h
    have hmod : c % n = 0 := not_not.1 hr
    have hdiv := Nat.div_add_mod c n
    rw [hmod, Nat.add_zero] at hdiv
    constructor
    · intro hpos hc
      rw [hc, Nat.zero_div] at hpos
      exact absurd hpos (by decide)
    · intro hc
      refine Nat.pos_of_ne_zero fun hq => hc ?_
      rw [Nat.add_zero] at hq
      rw [← hdiv, hq, Nat.mul_zero]

theorem groupsOf_le (h : groupsOf c n = some g) : g ≤ c + 1 := by
  have hdiv : c / n ≤ c := Nat.div_le_self c n
  unfold groupsOf at h
  split_ifs at h
  · obtain rfl := Option.some.inj h
    omega
  · obtain rfl := Option.some.inj h
    omega

/-- **How the computation ends.** -/
theorem fsOfSuperblock_cases (dev : Drive) (sb : Ext2Superblock) (special : Option Ext2Fs) :
    (20 < sb.log2BlockSize ∧ fsOfSuperblock dev sb special = .badShift) ∨
    (sb.log2BlockSize ≤ 20 ∧ (sb.inodesInGroup = 0 ∨ sb.blocksInGroup = 0) ∧
      fsOfSuperblock dev sb special = .divByZero) ∨
    (sb.log2BlockSize ≤ 20 ∧ sb.inodesInGroup ≠ 0 ∧ sb.blocksInGroup ≠ 0 ∧
      groupsOf sb.inodeCount sb.inodesInGroup ≠ groupsOf sb.blockCount sb.blocksInGroup ∧
      fsOfSuperblock dev sb special = .ret ERR_INCOMPAT_PARAM special) ∨
    (sb.log2BlockSize ≤ 20 ∧ sb.inodesInGroup ≠ 0 ∧ sb.blocksInGroup ≠ 0 ∧
      groupsOf sb.inodeCount sb.inodesInGroup = groupsOf sb.blockCount sb.blocksInGroup ∧
      ∃ g t, groupsOf sb.inodeCount sb.inodesInGroup = some g ∧ (t = 1 ∨ t = 2) ∧
        fsOfSuperblock dev sb special = .ret GENERIC_SUCCESS
          (some ⟨dev, sb.inodesInGroup, sb.blocksInGroup, t, 1024 * 2 ^ sb.log2BlockSize, g⟩)) := by
  unfold fsOfSuperblock
  rw [shift1024_eq]
  by_cases hk : sb.log2BlockSize ≤ 20
  swap
  · rw [if_neg hk]
    exact Or.inl ⟨not_le.1 hk, rfl⟩
  rw [if_pos hk]
  dsimp only
  right
  by_cases hi : sb.inodesInGroup = 0
  · rw [hi, groupsOf_zero]
    exact Or.inl ⟨hk, Or.inl rfl, rfl⟩
  obtain ⟨g, hg⟩ : ∃ g, groupsOf sb.inodeCount sb.inodesInGroup = some g := ⟨_, if_neg hi⟩
  rw [hg]
  dsimp only
  by_cases hb : sb.blocksInGroup = 0
  · rw [hb, groupsOf_zero]
    exact Or.inl ⟨hk, Or.inr rfl, rfl⟩
  obtain ⟨g', hg'⟩ : ∃ g', groupsOf sb.blockCount sb.blocksInGroup = some g' := ⟨_, if_neg hb⟩
  rw [hg']
  dsimp only
  right
  by_cases he : g = g'
  · rw [if_neg (not_not_intro he)]
    refine Or.inr ⟨hk, hi, hb, by rw [he], g, _, rfl, ?_, rfl⟩
    split_ifs
    · exact Or.inr rfl
    · exact Or.inl rfl
  · rw [if_pos he]
    exact Or.inl ⟨hk, hi, hb, fun h => he (Option.some.inj h), rfl⟩

/-! ## The superblock on the disk -/

/-- The superblock: the sector 2 of the drive. -/
def Drive.superblock (dev : Drive) (m : Mem) : Ext2Superblock := ⟨fun x => m (512 * (2 + dev.startingSector) + x)⟩

/-- The superblock can be read, and there is memory for it. -/
def Drive.readsSuperblock (dev : Drive) (io : Io) : Prop :=
  io.noMem 512 = false ∧ (driveReadSectors dev io (fun _ => 0) (fun _ => 0) 2 1).1 = GENERIC_SUCCESS

/-- The two superblocks have the same bytes. -/
def Ext2Superblock.Same (sb sb' : Ext2Superblock) : Prop := ∀ x < 512, sb.bytes x = sb'.bytes x

theorem Ext2Superblock.Same.field (h : sb.Same sb') {a k : ℕ} (hk : a + k ≤ 512) :
    load sb.bytes a k = load sb'.bytes a k := load_congr fun x _ h2 => h x (by omega)

theorem Ext2Superblock.Same.fsOfSuperblock (h : sb.Same sb') :
    fsOfSuperblock dev sb special = fsOfSuperblock dev sb' special := by
  have h1 : sb.log2BlockSize = sb'.log2BlockSize := h.field (by decide)
  have h2 : sb.inodeCount = sb'.inodeCount := h.field (by decide)
  have h3 : sb.inodesInGroup = sb'.inodesInGroup := h.field (by decide)
  have h4 : sb.blockCount = sb'.blockCount := h.field (by decide)
  have h5 : sb.blocksInGroup = sb'.blocksInGroup := h.field (by decide)
  unfold Nettapus.fsOfSuperblock
  rw [h1, h2, h3, h4, h5]

/-- **`ext2_init_fs`**, in terms of the superblock on the disk. -/
theorem ext2InitFs_eq (hd : dev.Accepted) (hdev : dev.dev.Ok) :
    (¬ dev.readsSuperblock io → ext2InitFs dev io m special = .ret ERR_DISK special) ∧
    (dev.readsSuperblock io → ext2InitFs dev io m special =
      if (dev.superblock m).ext2Signature ≠ 0xef53 then .ret ERR_INCOMPAT_PARAM special
      else if io.noMem ext2FsSize then .nullWrite else fsOfSuperblock dev (dev.superblock m) special) := by
  have hst := driveReadSectors_status dev io 2 1 m (fun _ => 0) io.garbage (fun _ => 0)
  unfold Drive.readsSuperblock ext2InitFs
  dsimp only
  rw [hst]
  cases hm : io.noMem 512 with
  | true => exact ⟨fun _ => rfl, fun hc => absurd hc.1 (by decide)⟩
  | false =>
    rw [if_neg (by decide)]
    by_cases hr : (driveReadSectors dev io (fun _ => 0) (fun _ => 0) 2 1).1 = GENERIC_SUCCESS
    · rw [if_neg (not_not_intro hr)]
      refine ⟨fun hc => absurd ⟨rfl, hr⟩ hc, fun _ => ?_⟩
      have hsame : Ext2Superblock.Same ⟨(driveReadSectors dev io m io.garbage 2 1).2⟩ (dev.superblock m) := by
        intro x hx
        exact (hd.read_ok hdev (by decide) (by decide) (by decide) (hst.trans hr) x).trans (if_pos hx)
      have hsig : Ext2Superblock.ext2Signature ⟨(driveReadSectors dev io m io.garbage 2 1).2⟩ =
          (dev.superblock m).ext2Signature := hsame.field (by decide)
      rw [hsig, hsame.fsOfSuperblock]
    · rw [if_pos hr]
      exact ⟨fun _ => rfl, fun hc => absurd hc.2 hr⟩

/-! ## Which superblocks are handled -/

/-- What the driver relies on: the block size is the one of the superblock, and no later division is by zero. -/
structure Sound (sb : Ext2Superblock) (fs : Ext2Fs) : Prop where
  size : fs.blockSize = 1024 * 2 ^ sb.log2BlockSize
  size_lt : 1024 * 2 ^ sb.log2BlockSize < 2 ^ 31
  inodes : fs.inodesInGroup = sb.inodesInGroup ∧ sb.inodesInGroup ≠ 0
  blocks : fs.blocksInGroup = sb.blocksInGroup ∧ sb.blocksInGroup ≠ 0
  groups : 1 ≤ fs.groupCount
  descriptors : fs.blockSize / groupDesSize ≠ 0
  slots : fs.blockSize / inodeSize ≠ 0

/-- `ext2_init_fs` neither divides by zero nor shifts too far, what it accepts is sound, and otherwise it leaves
`fs->special` alone. A write to `NULL` is none of these. -/
def InitLaw (sb : Ext2Superblock) (special : Option Ext2Fs) : InitResult → Prop
  | .badShift => False
  | .divByZero => False
  | .nullWrite => True
  | .ret status special' =>
    if status = GENERIC_SUCCESS then ∃ fs, special' = some fs ∧ Sound sb fs else special' = special

theorem initLaw_accept {special' : Option Ext2Fs} : InitLaw sb special (.ret GENERIC_SUCCESS special') ↔
    ∃ fs, special' = some fs ∧ Sound sb fs := Iff.rfl

theorem initLaw_reject {status : ℕ} (h : status ≠ GENERIC_SUCCESS) : InitLaw sb special (.ret status special) := by
  unfold InitLaw
  dsimp only
  rw [if_neg h]

/-- A superblock that one can compute with: the block size fits, the groups are not empty, and there is an inode if the
two counts of the groups agree. -/
def Ext2Superblock.Usable (sb : Ext2Superblock) : Prop :=
  sb.log2BlockSize ≤ 20 ∧ sb.inodesInGroup ≠ 0 ∧ sb.blocksInGroup ≠ 0 ∧
    (groupsOf sb.inodeCount sb.inodesInGroup = groupsOf sb.blockCount sb.blocksInGroup → sb.inodeCount ≠ 0)

/-- **The computation is sound exactly for these superblocks.** -/
theorem fsOfSuperblock_law : InitLaw sb special (fsOfSuperblock dev sb special) ↔ sb.Usable := by
  unfold Ext2Superblock.Usable
  rcases fsOfSuperblock_cases dev sb special with
    ⟨hk, he⟩ | ⟨hk, h0, he⟩ | ⟨hk, hi, hb, hne, he⟩ | ⟨hk, hi, hb, heq, g, t, hg, ht, he⟩
  · rw [he]
    exact ⟨fun hf => hf.elim, fun hc => by omega⟩
  · rw [he]
    exact ⟨fun hf => hf.elim, fun hc => h0.elim (fun h => hc.2.1 h) fun h => hc.2.2.1 h⟩
  · rw [he]
    exact ⟨fun _ => ⟨hk, hi, hb, fun h => absurd h hne⟩, fun _ => initLaw_reject (by decide)⟩
  · rw [he, initLaw_accept]
    constructor
    · rintro ⟨fs, hfs, hs⟩
      obtain rfl := Option.some.inj hfs
      exact ⟨hk, hi, hb, fun _ => (groupsOf_pos hg).1 hs.groups⟩
    · intro hc
      have hpow : 2 ^ sb.log2BlockSize ≤ 2 ^ 20 := Nat.pow_le_pow_right (by decide) hk
      have hpos : 0 < 2 ^ sb.log2BlockSize := Nat.two_pow_pos _
      refine ⟨_, rfl, rfl, by omega, ⟨rfl, hi⟩, ⟨rfl, hb⟩, (groupsOf_pos hg).2 (hc.2.2.2 heq), ?_, ?_⟩
      · unfold groupDesSize
        dsimp only
        omega
      · unfold inodeSize
        dsimp only
        omega

/-- **What `ext2_init_fs` accepts.** The call is as it should be exactly if it does not get to the computation, or the
superblock can be computed with. -/
theorem init_sound_iff (hd : dev.Accepted) (hdev : dev.dev.Ok) :
    InitLaw (dev.superblock m) special (ext2InitFs dev io m special) ↔
      ¬ dev.readsSuperblock io ∨ (dev.superblock m).ext2Signature ≠ 0xef53 ∨ io.noMem ext2FsSize = true ∨
        (dev.superblock m).Usable := by
  by_cases hr : dev.readsSuperblock io
  swap
  · rw [(ext2InitFs_eq hd hdev).1 hr]
    exact ⟨fun _ => Or.inl hr, fun _ => initLaw_reject (by decide)⟩
  rw [(ext2InitFs_eq hd hdev).2 hr]
  by_cases hsig : (dev.superblock m).ext2Signature = 0xef53
  swap
  · rw [if_pos hsig]
    exact ⟨fun _ => Or.inr (Or.inl hsig), fun _ => initLaw_reject (by decide)⟩
  rw [if_neg (not_not_intro hsig)]
  by_cases hm : io.noMem ext2FsSize = true
  · rw [if_pos hm]
    exact ⟨fun _ => Or.inr (Or.inr (Or.inl hm)), fun _ => trivial⟩
  · rw [if_neg hm, fsOfSuperblock_law]
    constructor
    · exact fun h => Or.inr (Or.inr (Or.inr h))
    · rintro (h | h | h | h)
      · exact absurd hr h
      · exact absurd hsig h
      · exact absurd h hm
      · exact h

/-- The superblock of `smallFs`, with an inode size. -/
def superImage (majorVersion inodeStructSize : ℕ) : Mem :=
  store (store (store (store (store (store (store (fun _ => 0) 1024 8 4) (1024 + 4) 64 4) (1024 + 32) 64 4)
    (1024 + 40) 8 4) (1024 + 56) 0xef53 2) (1024 + 76) majorVersion 4) (1024 + 88) inodeStructSize 4

theorem init_sound_small : ext2InitFs smallFs.dev Io.calm (superImage 0 0) none = .ret GENERIC_SUCCESS (some smallFs) ∧
    InitLaw (smallFs.dev.superblock (superImage 0 0)) none (ext2InitFs smallFs.dev Io.calm (superImage 0 0) none) := by
  refine ⟨by decide +kernel, (init_sound_iff smallFs_ok.drive smallFs_ok.dev).2 (Or.inr (Or.inr (Or.inr ?_)))⟩
  exact ⟨by decide +kernel, by decide +kernel, by decide +kernel, fun _ => by decide +kernel⟩

/-- **A superblock that has only the signature** is not rejected: the number of its groups is a division by zero. -/
theorem init_divides_by_zero :
    ext2InitFs smallFs.dev Io.calm (store (fun _ => 0) (1024 + 56) 0xef53 2) none = .divByZero ∧
    ¬ InitLaw (smallFs.dev.superblock (store (fun _ => 0) (1024 + 56) 0xef53 2)) none
      (ext2InitFs smallFs.dev Io.calm (store (fun _ => 0) (1024 + 56) 0xef53 2) none) := by
  have he : ext2InitFs smallFs.dev Io.calm (store (fun _ => 0) (1024 + 56) 0xef53 2) none = .divByZero := by
    decide +kernel
  rw [he]
  exact ⟨rfl, id⟩

/-! ## The file systems that are accepted -/

/-- **A superblock that is accepted.** -/
theorem accepted_eq (hd : dev.Accepted) (hdev : dev.dev.Ok)
    (ha : ext2InitFs dev io m special = .ret GENERIC_SUCCESS (some fs)) :
    (dev.superblock m).ext2Signature = 0xef53 ∧ (dev.superblock m).log2BlockSize ≤ 20 ∧
      (dev.superblock m).inodesInGroup ≠ 0 ∧
      ∃ g t, groupsOf (dev.superblock m).inodeCount (dev.superblock m).inodesInGroup = some g ∧ (t = 1 ∨ t = 2) ∧
        fs = ⟨dev, (dev.superblock m).inodesInGroup, (dev.superblock m).blocksInGroup, t,
          1024 * 2 ^ (dev.superblock m).log2BlockSize, g⟩ := by
  have hne : ∀ {status special'}, status ≠ GENERIC_SUCCESS →
      InitResult.ret status special' ≠ .ret GENERIC_SUCCESS (some fs) := fun h he => h (InitResult.ret.inj he).1
  by_cases hr : dev.readsSuperblock io
  swap
  · rw [(ext2InitFs_eq hd hdev).1 hr] at ha
    exact absurd ha (hne (by decide))
  rw [(ext2InitFs_eq hd hdev).2 hr] at ha
  by_cases hsig : (dev.superblock m).ext2Signature = 0xef53
  swap
  · rw [if_pos hsig] at ha
    exact absurd ha (hne (by decide))
  rw [if_neg (not_not_intro hsig)] at ha
  by_cases hm : io.noMem ext2FsSize = true
  · rw [if_pos hm] at ha
    cases ha
  rw [if_neg hm] at ha
  rcases fsOfSuperblock_cases dev (dev.superblock m) special with
    ⟨-, he⟩ | ⟨-, -, he⟩ | ⟨-, -, -, -, he⟩ | ⟨hk, hi, -, -, g, t, hg, ht, he⟩
  · rw [he] at ha
    cases ha
  · rw [he] at ha
    cases ha
  · rw [he] at ha
    exact absurd ha (hne (by decide))
  · rw [he] at ha
    exact ⟨hsig, hk, hi, g, t, hg, ht, (Option.some.inj (InitResult.ret.inj ha).2).symm⟩

/-- **The lemmas about inodes apply** to a file system that is accepted. -/
theorem accepted_sized (hd : dev.Accepted) (hdev : dev.dev.Ok)
    (ha : ext2InitFs dev io m special = .ret GENERIC_SUCCESS (some fs)) : fs.Sized := by
  obtain ⟨-, hk, hi, g, t, hg, ht, rfl⟩ := accepted_eq hd hdev ha
  have hpow : 2 ^ (dev.superblock m).log2BlockSize ≤ 2 ^ 20 := Nat.pow_le_pow_right (by decide) hk
  have hcount : (dev.superblock m).inodeCount < 2 ^ 32 := load_lt _ 4 _
  have hle := groupsOf_le hg
  refine ⟨hd, hdev, ⟨_, rfl⟩, ?_, Nat.pos_of_ne_zero hi, load_lt _ 4 _, ?_, ?_⟩
  · dsimp only
    omega
  · dsimp only
    omega
  · dsimp only
    omega

/-- A drive with a file system that is accepted passes the check. -/
theorem checkDrive_of_accepted (ha : ext2InitFs dev io m special = .ret GENERIC_SUCCESS (some fs)) :
    ext2CheckDrive dev io m = GENERIC_SUCCESS := by
  unfold ext2InitFs at ha
  unfold ext2CheckDrive
  dsimp only at ha ⊢
  split_ifs at ha ⊢ with h1 h2 h3
  · cases ha
  · cases ha
  · cases ha
  · rfl

/-! ## The size of the inodes -/

/-- The size of an inode on the disk, by the format. -/
def Ext2Superblock.inodeSizeOnDisk (sb : Ext2Superblock) : ℕ :=
  if sb.majorVersion = 0 then 128 else sb.inodeStructSize % 2 ^ 16

/-- Where the format has the inode `n`, from the beginning of the file system. -/
def formatAddr (fs : Ext2Fs) (sb : Ext2Superblock) (m : Mem) (n : ℕ) : ℕ :=
  fs.tableAddr m (inodeGroup fs n) * fs.blockSize + (n - 1) % fs.inodesInGroup * sb.inodeSizeOnDisk

/-- The two places differ by the number of the inode in its group. -/
theorem inodeAddr_eq_formatAddr (h : fs.Sized) (hn : fs.HasInode n) :
    fs.inodeAddr m n = formatAddr fs sb m n ↔ sb.inodeSizeOnDisk = inodeSize ∨ (n - 1) % fs.inodesInGroup = 0 := by
  have hidx : inodeIndex fs n = (n - 1) % fs.inodesInGroup := by
    unfold inodeIndex
    rw [hn.sub]
  unfold formatAddr
  rw [inodeAddr_eq h, hidx, Nat.add_left_cancel_iff]
  by_cases h0 : (n - 1) % fs.inodesInGroup = 0
  · rw [h0, Nat.zero_mul, Nat.zero_mul]
    exact ⟨fun _ => Or.inr rfl, fun _ => rfl⟩
  · rw [Nat.mul_right_inj h0]
    exact ⟨fun he => Or.inl he.symm, fun hor => (hor.resolve_right h0).symm⟩

/-- **Where the inodes are.** In a file system that is accepted, an inode is loaded from and written to the place
`inodeAddr`, which is the place that the format says exactly if the inodes of the disk have 128 bytes or the inode
is the first one of its group. -/
theorem inode_stride_iff (hd : dev.Accepted) (hdev : dev.dev.Ok)
    (ha : ext2InitFs dev io m special = .ret GENERIC_SUCCESS (some fs)) (hn : fs.HasInode n) :
    (∀ (io' : Io) (m' : Mem) (node : Ext2Inode), io'.Kernel → ext2LoadInode fs io' m' n = some node →
      ∀ y < inodeSize, node.bytes y = m' (fs.base + fs.inodeAddr m' n + y)) ∧
    (∀ (io' : Io) (m' m'' : Mem) (x : Ext2Inode), io'.Kernel →
      ext2WriteInode fs io' m' x n = (GENERIC_SUCCESS, m'') →
        m'' = patch m' (fs.base + fs.inodeAddr m' n) inodeSize x.bytes) ∧
    ∀ m' : Mem, fs.inodeAddr m' n = formatAddr fs (dev.superblock m) m' n ↔
      (dev.superblock m).inodeSizeOnDisk = inodeSize ∨ (n - 1) % fs.inodesInGroup = 0 := by
  have h := accepted_sized hd hdev ha
  refine ⟨fun io' m' node hk hl y hy => ?_, fun io' m' m'' x hk hw => ?_, fun m' => inodeAddr_eq_formatAddr h hn⟩
  · exact loadInode_bytes (h.ok_of_loadInode hk hl) hl hy
  · have hok := h.ok hk (mem_of_writeInode hw)
    by_cases hs : fs.storesInode io' m' n
    · rw [← slotWritten_eq_patch hok]
      exact congrArg Prod.snd (hw.symm.trans ((ext2WriteInode_eq hok).1 hs))
    · exact absurd hw ((ext2WriteInode_eq hok).2 hs m'')

/-- The root directory of a file system with inodes of 128 bytes. -/
theorem inode_stride_small : smallFs.inodeAddr (superImage 0 0) 2 =
    formatAddr smallFs (smallFs.dev.superblock (superImage 0 0)) (superImage 0 0) 2 := by
  have ha : ext2InitFs smallFs.dev Io.calm (superImage 0 0) none = .ret GENERIC_SUCCESS (some smallFs) := by
    decide +kernel
  obtain ⟨-, -, h⟩ := inode_stride_iff smallFs_ok.drive smallFs_ok.dev ha (n := 2) ⟨by decide, by decide, by decide⟩
  exact (h _).2 (Or.inl (by decide +kernel))

/-- An image with inodes of 256 bytes: the first byte of the inode 2 is 0x41, and there is 0x99 in the second half of
the inode 1. -/
def wideImage : Mem :=
  store (store (store (superImage 1 256) (2 * 1024 + 8) 5 4) (5 * 1024 + 256) 0x41 1) (5 * 1024 + 128) 0x99 1

/-- **A file system with inodes of 256 bytes is accepted**, and the inode of its root directory is read from the middle
of the inode before it. -/
theorem wide_inode_misread :
    ext2InitFs smallFs.dev Io.calm wideImage none = .ret GENERIC_SUCCESS (some smallFs) ∧
    smallFs.HasInode 2 ∧ (smallFs.dev.superblock wideImage).inodeSizeOnDisk = 256 ∧
    (ext2LoadInode smallFs Io.calm wideImage 2).map (fun node => node.bytes 0) = some 0x99 ∧
    wideImage (smallFs.base + formatAddr smallFs (smallFs.dev.superblock wideImage) wideImage 2) = 0x41 ∧
    smallFs.inodeAddr wideImage 2 ≠ formatAddr smallFs (smallFs.dev.superblock wideImage) wideImage 2 := by
  exact ⟨by decide +kernel, ⟨by decide, by decide, by decide⟩, by decide +kernel, by decide +kernel, by decide +kernel,
    by decide +kernel⟩

end Nettapus
