import Nettapus.Code.Ext2
import Nettapus.Proof.Disk

/-!
# Blocks and inodes of an ext2 file system

What the disk says, whatever the device does: `blockAt`, `inodeAt` and `fileBlock` are the
contents of a block, an inode, and the block map of an inode. The functions of the driver
return these, or an error that does not depend on what is on the disk:

* `ext2LoadBlocks_eq`, `ext2WriteBlocks_eq`: one block;
* `ext2LoadInode_eq`, `ext2BlockInInode_eq`: an inode and its blocks.
-/

namespace Nettapus

open Bytes

/-- A file system that `ext2_init_fs` can have accepted: the block size is a power of two from 1024
on, and a block has fewer than `0xFFFF` sectors. -/
structure Ext2Fs.Ok (fs : Ext2Fs) : Prop where
  drive : fs.dev.Accepted
  dev : fs.dev.dev.Ok
  pow : ∃ k, fs.blockSize = 1024 * 2 ^ k
  small : fs.blockSize / 512 < 0xFFFF
  inodes_pos : 0 < fs.inodesInGroup
  inodes_lt : fs.inodesInGroup < 2 ^ 32
  table_lt : fs.groupDesTableBlock < 2 ^ 32
  groups_lt : fs.groupCount < 2 ^ 33

variable {fs : Ext2Fs} {io : Io} {m m' buf : Mem} {b n : ℕ} {node : Ext2Inode}

namespace Ext2Fs

theorem Ok.block_dvd (h : fs.Ok) : ∃ c, 0 < c ∧ fs.blockSize = 1024 * c := by
  obtain ⟨k, hk⟩ := h.pow
  exact ⟨2 ^ k, Nat.two_pow_pos k, hk⟩

/-- The arithmetic of a block number: nothing wraps. -/
theorem Ok.block_arith (h : fs.Ok) (hb : b < 2 ^ 38) :
    1024 ≤ fs.blockSize ∧ u64 (b * fs.blockSize) / 512 < 2 ^ 60 ∧
      512 * (u64 (b * fs.blockSize) / 512) = b * fs.blockSize ∧
      0 < u64 (1 * fs.blockSize) / 512 ∧ u64 (1 * fs.blockSize) / 512 < 0xFFFF ∧
      512 * (u64 (1 * fs.blockSize) / 512) = fs.blockSize := by
  obtain ⟨c, hc, hbs⟩ := h.block_dvd
  have hsmall := h.small
  have hcs : c < 2 ^ 15 := by omega
  have hmul : b * fs.blockSize = 1024 * (b * c) := by rw [hbs, Nat.mul_left_comm]
  have hlt : b * c < 2 ^ 38 * 2 ^ 15 := Nat.mul_lt_mul'' hb hcs
  rw [hmul, u64_of_lt (by omega), Nat.one_mul, u64_of_lt (by omega)]
  omega

/-- Where the blocks start on the device. -/
def base (fs : Ext2Fs) : ℕ := 512 * fs.dev.startingSector

/-- The contents of the block `b`. -/
def blockAt (fs : Ext2Fs) (m : Mem) (b : ℕ) : Mem := fun i => m (fs.base + b * fs.blockSize + i)

/-- The device lets the block be loaded. -/
def loads (fs : Ext2Fs) (io : Io) (b : ℕ) : Bool := (ext2LoadBlocks fs io (fun _ => 0) (fun _ => 0) b 1).isSome

/-- The device lets the block be written. -/
def stores (fs : Ext2Fs) (io : Io) (b : ℕ) : Bool :=
  decide ((ext2WriteBlocks fs io (fun _ => 0) (fun _ => 0) b 1).1 = GENERIC_SUCCESS)

/-- There is memory for a block, and it can be loaded. -/
def opens (fs : Ext2Fs) (io : Io) (b : ℕ) : Bool := !io.noMem fs.blockSize && fs.loads io b

end Ext2Fs

open Ext2Fs

/-! ## Blocks -/

/-- A block over a buffer. -/
def overlay (fs : Ext2Fs) (m : Mem) (b : ℕ) (buf : Mem) : Mem :=
  fun i => if i < fs.blockSize then fs.blockAt m b i else buf i

theorem loads_iff (m buf : Mem) : fs.loads io b = true ↔
    (driveReadSectors fs.dev io m buf (u64 (b * fs.blockSize) / 512) (u64 (1 * fs.blockSize) / 512)).1 =
      GENERIC_SUCCESS := by
  have hst := driveReadSectors_status fs.dev io (u64 (b * fs.blockSize) / 512) (u64 (1 * fs.blockSize) / 512) m (fun _ => 0) buf
    (fun _ => 0)
  rw [hst]
  unfold Ext2Fs.loads ext2LoadBlocks
  dsimp only
  split_ifs with h
  · exact ⟨fun hc => absurd hc (by simp), fun hc => absurd hc h⟩
  · exact ⟨fun _ => not_not.1 h, fun _ => rfl⟩

/-- **Loading a block.** -/
theorem ext2LoadBlocks_eq (h : fs.Ok) (hb : b < 2 ^ 38) (buf : Mem) :
    ext2LoadBlocks fs io m buf b 1 = if fs.loads io b then some (overlay fs m b buf) else none := by
  obtain ⟨-, h2, h3, h4, h5, h6⟩ := h.block_arith hb
  unfold ext2LoadBlocks
  dsimp only
  by_cases hs : fs.loads io b = true
  · have hr := (loads_iff m buf).1 hs
    rw [if_pos hs, if_neg (not_not_intro hr)]
    congr 1
    funext x
    rw [h.drive.read_ok h.dev h2 h4 h5 hr, h6]
    unfold overlay blockAt base
    rw [show 512 * (u64 (b * fs.blockSize) / 512 + fs.dev.startingSector) + x =
      512 * fs.dev.startingSector + b * fs.blockSize + x by omega]
  · rw [if_neg hs, if_pos (mt (loads_iff m buf).2 hs)]

/-- The device after the block `b` was written. -/
def written (fs : Ext2Fs) (m : Mem) (b : ℕ) (buf : Mem) : Mem :=
  fun x => if fs.base + b * fs.blockSize ≤ x ∧ x < fs.base + (b + 1) * fs.blockSize then
    buf (x - (fs.base + b * fs.blockSize)) else m x

theorem stores_iff (m buf : Mem) : fs.stores io b = true ↔
    (driveWriteSectors fs.dev io m buf (u64 (b * fs.blockSize) / 512) (u64 (1 * fs.blockSize) / 512)).1 =
      GENERIC_SUCCESS := by
  have hst := driveWriteSectors_status fs.dev io (u64 (b * fs.blockSize) / 512) (u64 (1 * fs.blockSize) / 512) m (fun _ => 0) buf
    (fun _ => 0)
  rw [hst]
  unfold Ext2Fs.stores ext2WriteBlocks
  dsimp only
  split_ifs with h
  · exact ⟨fun hc => absurd (of_decide_eq_true hc) (by decide), fun hc => absurd hc h⟩
  · exact ⟨fun _ => not_not.1 h, fun _ => by decide⟩

/-- A block can be written exactly if it can be loaded. -/
theorem stores_eq_loads : fs.stores io b = fs.loads io b := by
  rw [Bool.eq_iff_iff, stores_iff (fun _ => 0) fun _ => 0, loads_iff (fun _ => 0) fun _ => 0]
  rw [driveWriteSectors_read fs.dev io _ _ _ (fun _ => 0) _ fun _ => 0]

/-- **Writing a block.** -/
theorem ext2WriteBlocks_eq (h : fs.Ok) (hb : b < 2 ^ 38) (buf : Mem) :
    (fs.stores io b = true → ext2WriteBlocks fs io m buf b 1 = (GENERIC_SUCCESS, written fs m b buf)) ∧
      (fs.stores io b ≠ true → (ext2WriteBlocks fs io m buf b 1).1 ≠ GENERIC_SUCCESS) := by
  obtain ⟨-, h2, h3, h4, h5, h6⟩ := h.block_arith hb
  unfold ext2WriteBlocks
  dsimp only
  constructor
  · intro hs
    have hr := (stores_iff m buf).1 hs
    rw [if_neg (not_not_intro hr)]
    congr 1
    funext x
    rw [h.drive.write_ok h.dev h2 h4 h5 hr]
    unfold written base
    have e1 : 512 * (u64 (b * fs.blockSize) / 512 + fs.dev.startingSector) =
        512 * fs.dev.startingSector + b * fs.blockSize := by omega
    have e2 : 512 * (u64 (b * fs.blockSize) / 512 + fs.dev.startingSector + u64 (1 * fs.blockSize) / 512) =
        512 * fs.dev.startingSector + (b + 1) * fs.blockSize := by rw [Nat.add_mul]; omega
    rw [e1, e2]
  · intro hs
    rw [if_pos (mt (stores_iff m buf).2 hs)]
    decide

theorem blockAt_written_self {i : ℕ} (hi : i < fs.blockSize) : fs.blockAt (written fs m b buf) b i = buf i := by
  unfold blockAt written
  rw [if_pos (by rw [Nat.add_mul]; omega)]
  congr 1
  omega

/-- Blocks do not overlap. -/
theorem block_disjoint {b' i : ℕ} (hb : b' ≠ b) (hi : i < fs.blockSize) :
    ¬ (fs.base + b * fs.blockSize ≤ fs.base + b' * fs.blockSize + i ∧
      fs.base + b' * fs.blockSize + i < fs.base + (b + 1) * fs.blockSize) := by
  rintro ⟨h1, h2⟩
  rcases Nat.lt_or_gt_of_ne hb with hlt | hlt
  · have := Nat.mul_le_mul_right fs.blockSize (show b' + 1 ≤ b from hlt)
    rw [Nat.add_mul] at this
    omega
  · have := Nat.mul_le_mul_right fs.blockSize (show b + 1 ≤ b' from hlt)
    omega

theorem blockAt_written_of_ne {b' i : ℕ} (hb : b' ≠ b) (hi : i < fs.blockSize) :
    fs.blockAt (written fs m b buf) b' i = fs.blockAt m b' i := by
  unfold blockAt written
  rw [if_neg (block_disjoint hb hi)]

/-- The blocks agree. -/
def SameBlock (fs : Ext2Fs) (m m' : Mem) (b : ℕ) : Prop := ∀ i < fs.blockSize, fs.blockAt m b i = fs.blockAt m' b i

theorem loadBlock_eq (h : fs.Ok) (hb : b < 2 ^ 38) :
    loadBlock fs io m b = if fs.opens io b then some (overlay fs m b io.garbage) else none := by
  unfold loadBlock Ext2Fs.opens
  rw [ext2LoadBlocks_eq h hb]
  cases io.noMem fs.blockSize <;> simp

/-! ## Inodes -/

/-- The block of the group descriptor of an inode. -/
def Ext2Fs.desBlock (fs : Ext2Fs) (inodeNum : ℕ) : ℕ :=
  inodeGroup fs inodeNum / (fs.blockSize / groupDesSize) + fs.groupDesTableBlock

/-- The block of the inode, in the inode table of its group. -/
def Ext2Fs.inodeBlock (fs : Ext2Fs) (m : Mem) (inodeNum : ℕ) : ℕ :=
  load (fs.blockAt m (fs.desBlock inodeNum))
    (inodeGroup fs inodeNum % (fs.blockSize / groupDesSize) * groupDesSize + 8) 4 +
    inodeIndex fs inodeNum * inodeSize / fs.blockSize

/-- The inode on the disk. -/
def Ext2Fs.inodeAt (fs : Ext2Fs) (m : Mem) (inodeNum : ℕ) : Ext2Inode :=
  ⟨fun x => fs.blockAt m (fs.inodeBlock m inodeNum)
    (inodeIndex fs inodeNum % (fs.blockSize / inodeSize) * inodeSize + x)⟩

/-- The two inodes have the same fields. -/
def Ext2Inode.Same (node node' : Ext2Inode) : Prop := ∀ x < inodeSize, node.bytes x = node'.bytes x

/-- What decides whether an inode loads. -/
def Ext2Fs.opensInode (fs : Ext2Fs) (io : Io) (m : Mem) (inodeNum : ℕ) : Prop :=
  io.noMem groupDesSize = false ∧ inodeGroup fs inodeNum ≤ fs.groupCount ∧
    fs.opens io (fs.desBlock inodeNum) = true ∧ fs.opens io (fs.inodeBlock m inodeNum) = true

theorem load_shift (f : Mem) (s k : ℕ) : ∀ a, load (fun x => f (s + x)) a k = load f (s + a) k := by
  induction k with
  | zero => intro a; rfl
  | succ k ih =>
    intro a
    simp only [load]
    rw [ih (a + 1), Nat.add_assoc]

theorem Ext2Fs.Ok.des_lt (h : fs.Ok) (hg : inodeGroup fs n ≤ fs.groupCount) : fs.desBlock n < 2 ^ 38 := by
  have h1 := h.table_lt
  have h2 := h.groups_lt
  have h3 : inodeGroup fs n / (fs.blockSize / groupDesSize) ≤ inodeGroup fs n := Nat.div_le_self _ _
  unfold Ext2Fs.desBlock
  omega

theorem Ext2Fs.Ok.inodeBlock_lt (h : fs.Ok) : fs.inodeBlock m n < 2 ^ 38 := by
  obtain ⟨c, hc, hbs⟩ := h.block_dvd
  have h1 : inodeIndex fs n < fs.inodesInGroup := Nat.mod_lt _ h.inodes_pos
  have h2 := h.inodes_lt
  have h3 := load_lt (fs.blockAt m (fs.desBlock n)) 4
    (inodeGroup fs n % (fs.blockSize / groupDesSize) * groupDesSize + 8)
  have h4 : inodeIndex fs n * inodeSize / fs.blockSize ≤ inodeIndex fs n * inodeSize / 1024 :=
    Nat.div_le_div_left (by omega) (by decide)
  unfold Ext2Fs.inodeBlock
  unfold inodeSize at h4 ⊢
  omega

theorem mod_slot {i c k : ℕ} (hk : 0 < k) (hc : 0 < c) : i % (k * c / k) * k + k ≤ k * c := by
  rw [Nat.mul_div_cancel_left c hk]
  have h1 : i % c < c := Nat.mod_lt _ hc
  calc i % c * k + k = (i % c + 1) * k := by rw [Nat.add_mul, Nat.one_mul]
    _ ≤ c * k := Nat.mul_le_mul_right k h1
    _ = k * c := Nat.mul_comm c k

/-- The slot of a group descriptor, or of an inode, is inside its block. -/
theorem Ext2Fs.Ok.slot_des (h : fs.Ok) (i : ℕ) :
    i % (fs.blockSize / groupDesSize) * groupDesSize + groupDesSize ≤ fs.blockSize := by
  obtain ⟨c, hc, hbs⟩ := h.block_dvd
  have he : fs.blockSize = groupDesSize * (32 * c) := by unfold groupDesSize; omega
  rw [he]
  exact mod_slot (by decide) (by omega)

theorem Ext2Fs.Ok.slot_inode (h : fs.Ok) (i : ℕ) :
    i % (fs.blockSize / inodeSize) * inodeSize + inodeSize ≤ fs.blockSize := by
  obtain ⟨c, hc, hbs⟩ := h.block_dvd
  have he : fs.blockSize = inodeSize * (8 * c) := by unfold inodeSize; omega
  rw [he]
  exact mod_slot (by decide) (by omega)

/-- **Loading an inode.** -/
theorem ext2LoadInode_eq (h : fs.Ok) :
    (fs.opensInode io m n → ∃ node, ext2LoadInode fs io m n = some node ∧ node.Same (fs.inodeAt m n)) ∧
      (¬ fs.opensInode io m n → ext2LoadInode fs io m n = none) := by
  unfold Ext2Fs.opensInode ext2LoadInode ext2LoadGroupDes
  by_cases hm : io.noMem groupDesSize = true
  · rw [if_pos hm]
    exact ⟨fun hc => by rw [hm] at hc; exact absurd hc.1 (by decide), fun _ => rfl⟩
  rw [if_neg hm]
  by_cases hg : inodeGroup fs n ≤ fs.groupCount
  · rw [if_neg (not_lt.2 hg)]
    dsimp only
    have hdes : fs.desBlock n < 2 ^ 38 := h.des_lt hg
    rw [show inodeGroup fs n / (fs.blockSize / groupDesSize) + fs.groupDesTableBlock = fs.desBlock n from rfl,
      loadBlock_eq h hdes]
    by_cases ho : fs.opens io (fs.desBlock n) = true
    · rw [if_pos ho, Option.map_some, Option.bind_some]
      -- the table address in the descriptor is the one on the disk
      have hslot := h.slot_des (inodeGroup fs n)
      have htab : u64 (GroupDes.inodeTableAddr ⟨fun x => overlay fs m (fs.desBlock n) io.garbage
          (inodeGroup fs n % (fs.blockSize / groupDesSize) * groupDesSize + x)⟩ +
          inodeIndex fs n * inodeSize / fs.blockSize) = fs.inodeBlock m n := by
        have hlt := h.inodeBlock_lt (m := m) (n := n)
        unfold Ext2Fs.inodeBlock at hlt ⊢
        rw [← u64_of_lt (hlt.trans (by decide))]
        congr 2
        unfold GroupDes.inodeTableAddr
        dsimp only
        rw [load_shift]
        refine load_congr fun x h1 h2 => ?_
        unfold overlay
        rw [if_pos]
        unfold groupDesSize at *
        omega
      rw [htab, loadBlock_eq h h.inodeBlock_lt]
      by_cases ho2 : fs.opens io (fs.inodeBlock m n) = true
      · rw [if_pos ho2, Option.map_some]
        refine ⟨fun _ => ⟨_, rfl, fun x hx => ?_⟩, fun hc => absurd ⟨by simpa using hm, hg, ho, ho2⟩ hc⟩
        have hs := h.slot_inode (inodeIndex fs n)
        unfold overlay Ext2Fs.inodeAt
        dsimp only
        rw [if_pos (by omega)]
      · rw [if_neg ho2]
        exact ⟨fun hc => absurd hc.2.2.2 ho2, fun _ => rfl⟩
    · rw [if_neg ho]
      exact ⟨fun hc => absurd hc.2.2.1 ho, fun _ => rfl⟩
  · rw [if_pos (not_le.1 hg)]
    exact ⟨fun hc => absurd hc.2.1 hg, fun _ => rfl⟩

/-! ## The block map -/

/-- The block `n` of an inode, as the disk has it. -/
def Ext2Fs.fileBlock (fs : Ext2Fs) (m : Mem) (node : Ext2Inode) (n : ℕ) : ℕ :=
  if n < 12 then node.directBlock n
  else if n < fs.blockSize / 4 then load (fs.blockAt m node.singlyIndirect) (4 * (n - 12)) 4
  else 0

/-- The block map can be read at `n`. -/
def Ext2Fs.opensMap (fs : Ext2Fs) (io : Io) (node : Ext2Inode) (n : ℕ) : Bool :=
  decide (n < 12) || fs.opens io node.singlyIndirect

theorem Ext2Fs.fileBlock_lt : fs.fileBlock m node n < 2 ^ 32 := by
  unfold Ext2Fs.fileBlock
  split_ifs
  · exact load_lt _ 4 _
  · exact load_lt _ 4 _
  · decide

theorem singlyIndirect_lt : node.singlyIndirect < 2 ^ 38 := (load_lt _ 4 _).trans (by decide)

/-- **The block map of an inode.** -/
theorem ext2BlockInInode_eq (h : fs.Ok) : ext2BlockInInode fs io m node n =
    if fs.opensMap io node n then fs.fileBlock m node n else 0 := by
  unfold ext2BlockInInode Ext2Fs.opensMap Ext2Fs.fileBlock
  by_cases h1 : n < 12
  · rw [if_pos h1, if_pos h1]
    simp [h1]
  rw [if_neg h1, if_neg h1, decide_eq_false h1, Bool.false_or]
  by_cases h2 : n < fs.blockSize / 4
  · rw [if_pos h2, if_pos h2, loadBlock_eq h singlyIndirect_lt]
    cases ho : fs.opens io node.singlyIndirect with
    | true =>
      rw [if_pos rfl]
      refine load_congr fun x h3 h4 => ?_
      unfold overlay
      rw [if_pos (by omega)]
    | false => rfl
  · rw [if_neg h2, if_neg h2, ite_self]

theorem Ext2Inode.Same.field {node' : Ext2Inode} (h : node.Same node') {a k : ℕ} (hk : a + k ≤ inodeSize) :
    load node.bytes a k = load node'.bytes a k :=
  load_congr fun x _ h2 => h x (by omega)

theorem Ext2Inode.Same.size {node' : Ext2Inode} (h : node.Same node') : node.size = node'.size := by
  unfold Ext2Inode.size Ext2Inode.sizeHigh Ext2Inode.sizeLow
  rw [h.field (by decide), h.field (by decide)]

theorem Ext2Inode.Same.singlyIndirect {node' : Ext2Inode} (h : node.Same node') :
    node.singlyIndirect = node'.singlyIndirect := h.field (by decide)

theorem Ext2Inode.Same.directBlock {node' : Ext2Inode} (h : node.Same node') (hn : n < 12) :
    node.directBlock n = node'.directBlock n := h.field (by unfold inodeSize; omega)

theorem Ext2Inode.Same.fileBlock {node' : Ext2Inode} (h : node.Same node') :
    fs.fileBlock m node n = fs.fileBlock m node' n := by
  unfold Ext2Fs.fileBlock
  by_cases h1 : n < 12
  · rw [if_pos h1, if_pos h1, h.directBlock h1]
  · rw [if_neg h1, if_neg h1, h.singlyIndirect]

theorem fileBlock_congr (h : n < 12 ∨ SameBlock fs m m' node.singlyIndirect) :
    fs.fileBlock m node n = fs.fileBlock m' node n := by
  unfold Ext2Fs.fileBlock
  by_cases h1 : n < 12
  · rw [if_pos h1, if_pos h1]
  · rw [if_neg h1, if_neg h1]
    split_ifs with h2
    · exact load_congr fun x h3 h4 => h.resolve_left h1 x (by omega)
    · rfl

end Nettapus
