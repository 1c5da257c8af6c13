import Nettapus.Proof.Ext2Partial
import Mathlib.Data.Set.Insert

/-!
# The files of an image

`ImageOk` says of a set of inodes that no block has data of two of them, or data of one and the group descriptor, the inode
or the block map of another. A change in the blocks of one file keeps it (`ImageOk.kept`): the sizes and the
block maps of all files stay (`ImageOk.sameMap`), and the content of the others (`ImageOk.content_ne`).
-/

namespace Nettapus

open Bytes Ext2Fs

variable {fs : Ext2Fs} {io : Io} {m m' : Mem} {F : Set ℕ} {a b i k : ℕ}

namespace Ext2Fs

/-- The block has data of the file. -/
def Holds (fs : Ext2Fs) (m : Mem) (inode b : ℕ) : Prop :=
  ∃ k, k * fs.blockSize < fs.sizeOf m inode ∧ fs.fileBlock m (fs.inodeAt m inode) k = b

/-- The block has the group descriptor, the inode or the block map of the file. -/
def Describes (fs : Ext2Fs) (m : Mem) (inode b : ℕ) : Prop :=
  b = fs.desBlock inode ∨ b = fs.inodeBlock m inode ∨
    12 * fs.blockSize < fs.sizeOf m inode ∧ b = (fs.inodeAt m inode).singlyIndirect

end Ext2Fs

/-- The blocks of the files are allocated and distinct, and not shared with their metadata. -/
structure ImageOk (fs : Ext2Fs) (F : Set ℕ) (m : Mem) : Prop where
  allocated : ∀ i ∈ F, ¬ fs.Holds m i 0
  inj : ∀ i ∈ F, ∀ j k, j * fs.blockSize < fs.sizeOf m i → k * fs.blockSize < fs.sizeOf m i →
    fs.fileBlock m (fs.inodeAt m i) j = fs.fileBlock m (fs.inodeAt m i) k → j = k
  apart : ∀ i ∈ F, ∀ j ∈ F, i ≠ j → ∀ b, fs.Holds m i b → ¬ fs.Holds m j b
  metadata : ∀ i ∈ F, ∀ j ∈ F, ∀ b, fs.Holds m i b → ¬ fs.Describes m j b

theorem ImageOk.fileOk (h : ImageOk fs F m) (hi : i ∈ F) : FileOk fs m i where
  allocated k hk h0 := h.allocated i hi ⟨k, hk, h0⟩
  map := by
    refine ⟨h.inj i hi, fun j k hj hk h12 he => h.metadata i hi i hi _ ⟨k, hk, rfl⟩ (.inr (.inr ⟨?_, he⟩))⟩
    exact lt_of_le_of_lt (Nat.mul_le_mul_right fs.blockSize h12) hj
  des k hk he := h.metadata i hi i hi _ ⟨k, hk, rfl⟩ (.inl he)
  table k hk he := h.metadata i hi i hi _ ⟨k, hk, rfl⟩ (.inr (.inl he))

/-- The inode and the block map of the file are the same on the two devices. -/
structure SameMap (fs : Ext2Fs) (m m' : Mem) (i : ℕ) : Prop where
  table : fs.inodeBlock m' i = fs.inodeBlock m i
  node : (fs.inodeAt m' i).Same (fs.inodeAt m i)
  blocks : ∀ k, k * fs.blockSize < fs.sizeOf m i →
    fs.fileBlock m' (fs.inodeAt m' i) k = fs.fileBlock m (fs.inodeAt m i) k

theorem SameMap.of_describes (h : fs.Ok) (hsame : ∀ b, fs.Describes m i b → SameBlock fs m' m b) : SameMap fs m m' i := by
  have hb : fs.inodeBlock m' i = fs.inodeBlock m i := by
    have hslot := h.slot_des (inodeGroup fs i)
    unfold Ext2Fs.inodeBlock
    congr 1
    refine load_congr fun x h1 h2 => hsame _ (.inl rfl) x ?_
    unfold groupDesSize at *
    omega
  have hnode : (fs.inodeAt m' i).Same (fs.inodeAt m i) := by
    intro x hx
    have hslot := h.slot_inode (inodeIndex fs i)
    unfold Ext2Fs.inodeAt
    dsimp only
    rw [hb]
    exact hsame _ (.inr (.inl rfl)) _ (by omega)
  refine ⟨hb, hnode, fun k hk => ?_⟩
  rw [hnode.fileBlock]
  apply fileBlock_congr
  rcases Nat.lt_or_ge k 12 with h12 | h12
  · exact .inl h12
  · right
    apply hsame
    exact .inr (.inr ⟨lt_of_le_of_lt (Nat.mul_le_mul_right fs.blockSize h12) hk, rfl⟩)

namespace SameMap

theorem size (h : SameMap fs m m' i) : fs.sizeOf m' i = fs.sizeOf m i := h.node.size

theorem refl : SameMap fs m m i := ⟨rfl, fun _ _ => rfl, fun _ _ => rfl⟩

theorem trans {m'' : Mem} (h : SameMap fs m m' i) (h' : SameMap fs m' m'' i) : SameMap fs m m'' i where
  table := h'.table.trans h.table
  node x hx := (h'.node x hx).trans (h.node x hx)
  blocks k hk := (h'.blocks k (by rwa [h.size])).trans (h.blocks k hk)

theorem holds_iff (h : SameMap fs m m' i) : fs.Holds m' i b ↔ fs.Holds m i b := by
  unfold Ext2Fs.Holds
  rw [h.size]
  exact exists_congr fun k => and_congr_right fun hk => by rw [h.blocks k hk]

theorem describes_iff (h : SameMap fs m m' i) : fs.Describes m' i b ↔ fs.Describes m i b := by
  unfold Ext2Fs.Describes
  rw [h.size, h.table, h.node.singlyIndirect]

/-- What the device lets through is the same. -/
theorem sound_iff (h : SameMap fs m m' i) : fs.Sound io m' i ↔ fs.Sound io m i := by
  have hopens : fs.opensInode io m' i ↔ fs.opensInode io m i := by
    unfold Ext2Fs.opensInode
    rw [h.table]
  have hread : ∀ k, k * fs.blockSize < fs.sizeOf m i →
      (fs.Readable io m' (fs.inodeAt m' i) k ↔ fs.Readable io m (fs.inodeAt m i) k) := by
    intro k hk
    unfold Ext2Fs.Readable Ext2Fs.opensMap
    rw [h.blocks k hk, h.node.singlyIndirect]
  constructor
  · intro hs
    refine ⟨hs.inode_gt, hopens.1 hs.opens, hs.mem, fun k hk => (hread k hk).1 (hs.blocks k ?_)⟩
    rwa [h.size]
  · intro hs
    refine ⟨hs.inode_gt, hopens.2 hs.opens, hs.mem, fun k hk => ?_⟩
    rw [h.size] at hk
    exact (hread k hk).2 (hs.blocks k hk)

end SameMap

/-! ## A change in one file -/

/-- The devices differ in the blocks of one file only. -/
def ChangedIn (fs : Ext2Fs) (m m' : Mem) (a : ℕ) : Prop := ∀ x, (∀ b, fs.Holds m a b → ¬ fs.InBlock b x) → m' x = m x

theorem ChangedIn.sameBlock (h : ChangedIn fs m m' a) (hb : ¬ fs.Holds m a b) : SameBlock fs m' m b :=
  fun _ hp => h _ fun _ hc => block_disjoint (fun he => hb (he ▸ hc)) hp

namespace ImageOk

theorem sameMap (h : ImageOk fs F m) (hfs : fs.Ok) (ha : a ∈ F) (hi : i ∈ F) (hc : ChangedIn fs m m' a) :
    SameMap fs m m' i :=
  .of_describes hfs fun b hb => hc.sameBlock fun hholds => h.metadata a ha i hi b hholds hb

/-- **A change in the blocks of one file keeps the files apart.** -/
theorem kept (h : ImageOk fs F m) (hfs : fs.Ok) (ha : a ∈ F) (hc : ChangedIn fs m m' a) : ImageOk fs F m' := by
  have hmap : ∀ i ∈ F, SameMap fs m m' i := fun i hi => h.sameMap hfs ha hi hc
  refine ⟨fun i hi => ?_, fun i hi j k hj hk => ?_, fun i hi j hj hne b => ?_, fun i hi j hj b => ?_⟩
  · rw [(hmap i hi).holds_iff]
    exact h.allocated i hi
  · rw [(hmap i hi).size] at hj hk
    rw [(hmap i hi).blocks j hj, (hmap i hi).blocks k hk]
    exact h.inj i hi j k hj hk
  · rw [(hmap i hi).holds_iff, (hmap j hj).holds_iff]
    exact h.apart i hi j hj hne b
  · rw [(hmap i hi).holds_iff, (hmap j hj).describes_iff]
    exact h.metadata i hi j hj b

/-- The content of the other files stays. -/
theorem content_ne (h : ImageOk fs F m) (hfs : fs.Ok) (ha : a ∈ F) (hi : i ∈ F) (hne : i ≠ a)
    (hc : ChangedIn fs m m' a) (hk : k < fs.sizeOf m i) : fs.content m' i k = fs.content m i k := by
  have hlt : k / fs.blockSize * fs.blockSize < fs.sizeOf m i := lt_of_le_of_lt (Nat.div_mul_le_self _ _) hk
  unfold Ext2Fs.content Ext2Fs.mapped
  rw [(h.sameMap hfs ha hi hc).blocks _ hlt]
  exact hc.sameBlock (h.apart i hi a ha hne _ ⟨_, hlt, rfl⟩) _ (Nat.mod_lt k hfs.block_pos)

end ImageOk

theorem WriteEnd.changedIn {src : Mem} {off n j : ℕ} {r : ℤ} (h : WriteEnd fs io m m' a src off n r j) :
    ChangedIn fs m m' a :=
  fun x hx => h.frame x fun k hk => hx _ ⟨k, hk, rfl⟩

end Nettapus
