import Nettapus.Code.Ext2Mknod
import Nettapus.Proof.Ext2Heap
import Nettapus.Proof.Ext2Write

/-!
# The inodes as a store

`ext2_write_inode` and `ext2_load_inode` find an inode by two different formulas: an offset in bytes, and an index
in records. `slot_eq` says that they agree. `ext2WriteInode_eq` is what a write leaves on the disk: one slot of
one block (`blockAt_slotWritten`).

`inode_store`: an inode that was written is read back, and the others are as they were.
-/

namespace Nettapus

open Bytes Ext2Fs

variable {fs : Ext2Fs} {io : Io} {m m' : Mem} {x : Ext2Inode} {g i k n b : ℕ} {gd : GroupDes}

/-! ## Group descriptors -/

/-- The block of the descriptor of a group. -/
def Ext2Fs.groupBlock (fs : Ext2Fs) (g : ℕ) : ℕ := g / (fs.blockSize / groupDesSize) + fs.groupDesTableBlock

/-- The descriptor of a group on the disk. -/
def Ext2Fs.desAt (fs : Ext2Fs) (m : Mem) (g : ℕ) : GroupDes :=
  ⟨fun x => fs.blockAt m (fs.groupBlock g) (g % (fs.blockSize / groupDesSize) * groupDesSize + x)⟩

/-- The two descriptors have the same fields. -/
def GroupDes.Same (gd gd' : GroupDes) : Prop := ∀ x < groupDesSize, gd.bytes x = gd'.bytes x

theorem GroupDes.Same.field {gd' : GroupDes} (h : gd.Same gd') {a k : ℕ} (hk : a + k ≤ groupDesSize) :
    load gd.bytes a k = load gd'.bytes a k := load_congr fun x _ h2 => h x (by omega)

theorem Ext2Fs.Ok.groupBlock_lt (h : fs.Ok) (hg : g ≤ fs.groupCount) : fs.groupBlock g < 2 ^ 38 := by
  have h1 := h.table_lt
  have h2 := h.groups_lt
  have h3 : g / (fs.blockSize / groupDesSize) ≤ g := Nat.div_le_self _ _
  unfold Ext2Fs.groupBlock
  omega

/-- **Loading a group descriptor.** -/
theorem ext2LoadGroupDes_eq (h : fs.Ok) (hg : g ≤ fs.groupCount) :
    (fs.opens io (fs.groupBlock g) = true → ∃ gd, ext2LoadGroupDes fs io m g = some gd ∧ gd.Same (fs.desAt m g)) ∧
      (fs.opens io (fs.groupBlock g) ≠ true → ext2LoadGroupDes fs io m g = none) := by
  unfold ext2LoadGroupDes
  rw [if_neg (not_lt.2 hg)]
  dsimp only
  rw [← Ext2Fs.groupBlock, loadBlock_eq h (h.groupBlock_lt hg)]
  constructor
  · intro ho
    rw [if_pos ho]
    refine ⟨_, rfl, fun x hx => ?_⟩
    have hslot := h.slot_des g
    unfold overlay Ext2Fs.desAt
    dsimp only
    rw [if_pos (by omega)]
  · intro ho
    rw [if_neg ho]
    rfl

/-! ## Where an inode is -/

/-- The first block of the inode table of a group. -/
def Ext2Fs.tableAddr (fs : Ext2Fs) (m : Mem) (g : ℕ) : ℕ :=
  load (fs.blockAt m (g / (fs.blockSize / groupDesSize) + fs.groupDesTableBlock))
    (g % (fs.blockSize / groupDesSize) * groupDesSize + 8) 4

theorem tableAddr_eq : fs.tableAddr m g = (fs.desAt m g).inodeTableAddr := (load_shift _ _ 4 8).symm

theorem inodeBlock_eq : fs.inodeBlock m n =
    fs.tableAddr m (inodeGroup fs n) + inodeIndex fs n * inodeSize / fs.blockSize := rfl

/-- The offset of an inode in its block. -/
def Ext2Fs.inodeSlot (fs : Ext2Fs) (n : ℕ) : ℕ := inodeIndex fs n % (fs.blockSize / inodeSize) * inodeSize

theorem Ext2Fs.Sized.inodes_dvd (h : fs.Sized) : ∃ c, fs.blockSize = inodeSize * c ∧ fs.blockSize / inodeSize = c := by
  obtain ⟨k, hbs⟩ := h.pow
  refine ⟨8 * 2 ^ k, by unfold inodeSize; omega, by unfold inodeSize; omega⟩

/-- **The two formulas for the offset agree.** -/
theorem slot_eq (h : fs.Sized) (n : ℕ) : inodeIndex fs n * inodeSize % fs.blockSize = fs.inodeSlot n := by
  obtain ⟨c, hbs, hdiv⟩ := h.inodes_dvd
  unfold Ext2Fs.inodeSlot
  rw [hdiv, hbs, Nat.mul_comm inodeSize c, Nat.mul_mod_mul_right]

theorem Ext2Fs.Ok.inodeSlot_le (h : fs.Ok) (n : ℕ) : fs.inodeSlot n + inodeSize ≤ fs.blockSize := h.slot_inode _

/-- Two inodes of a group that are in one block are in different slots. -/
theorem slots_apart (h : fs.Ok) (hne : inodeIndex fs k ≠ inodeIndex fs n)
    (hb : inodeIndex fs k * inodeSize / fs.blockSize = inodeIndex fs n * inodeSize / fs.blockSize) :
    fs.inodeSlot k + inodeSize ≤ fs.inodeSlot n ∨ fs.inodeSlot n + inodeSize ≤ fs.inodeSlot k := by
  rw [← slot_eq h.sized, ← slot_eq h.sized]
  have h1 := Nat.div_add_mod (inodeIndex fs k * inodeSize) fs.blockSize
  have h2 := Nat.div_add_mod (inodeIndex fs n * inodeSize) fs.blockSize
  rw [hb] at h1
  unfold inodeSize at *
  omega

/-! ## What a write leaves -/

/-- The device after an inode was written. -/
def slotWritten (fs : Ext2Fs) (m : Mem) (buf : Mem) (n : ℕ) (x : Ext2Inode) : Mem :=
  written fs m (fs.inodeBlock m n) (patch (overlay fs m (fs.inodeBlock m n) buf) (fs.inodeSlot n) inodeSize x.bytes)

/-- What decides whether an inode can be written. -/
def Ext2Fs.storesInode (fs : Ext2Fs) (io : Io) (m : Mem) (n : ℕ) : Prop :=
  inodeGroup fs n ≤ fs.groupCount ∧ fs.opens io (fs.desBlock n) = true ∧ fs.opens io (fs.inodeBlock m n) = true ∧
    fs.stores io (fs.inodeBlock m n) = true

/-- Without the descriptor of its group an inode is not written. -/
theorem ext2WriteInode_none (hl : ext2LoadGroupDes fs io m (inodeGroup fs n) = none) :
    ext2WriteInode fs io m x n = (ERR_DISK, m) := by
  -- the arguments are put in only after the definition is opened, as the number of the group is not to be computed
  generalize hf : @ext2WriteInode = f
  delta ext2WriteInode at hf
  subst hf
  beta_reduce
  rw [hl]

theorem ext2WriteInode_some (hl : ext2LoadGroupDes fs io m (inodeGroup fs n) = some gd) :
    ext2WriteInode fs io m x n =
      match loadBlock fs io m (u64 (inodeIndex fs n * inodeSize / fs.blockSize + gd.inodeTableAddr)) with
      | none => (ERR_DISK, m)
      | some buf =>
        ext2WriteBlocks fs io m (patch buf (inodeIndex fs n * inodeSize % fs.blockSize) inodeSize x.bytes)
          (u64 (inodeIndex fs n * inodeSize / fs.blockSize + gd.inodeTableAddr)) 1 := by
  generalize hf : @ext2WriteInode = f
  delta ext2WriteInode at hf
  subst hf
  beta_reduce
  generalize ext2LoadGroupDes fs io m (inodeGroup fs n) = des at hl ⊢
  subst hl
  rfl

theorem errDisk_ne : (ERR_DISK, m) ≠ (GENERIC_SUCCESS, m') := by
  intro h
  have h1 : ERR_DISK = GENERIC_SUCCESS := congrArg Prod.fst h
  exact absurd h1 (by decide)

/-- **Writing an inode.** -/
theorem ext2WriteInode_eq (h : fs.Ok) :
    (fs.storesInode io m n → ext2WriteInode fs io m x n = (GENERIC_SUCCESS, slotWritten fs m io.garbage n x)) ∧
      (¬ fs.storesInode io m n → ∀ m', ext2WriteInode fs io m x n ≠ (GENERIC_SUCCESS, m')) := by
  unfold Ext2Fs.storesInode
  by_cases hg : inodeGroup fs n ≤ fs.groupCount
  swap
  · have hnone : ext2LoadGroupDes fs io m (inodeGroup fs n) = none := by
      unfold ext2LoadGroupDes
      rw [if_pos (not_le.1 hg)]
    rw [ext2WriteInode_none hnone]
    exact ⟨fun hc => absurd hc.1 hg, fun _ _ => errDisk_ne⟩
  by_cases hdes : fs.opens io (fs.desBlock n) = true
  swap
  · rw [ext2WriteInode_none ((ext2LoadGroupDes_eq h hg).2 hdes)]
    exact ⟨fun hc => absurd hc.2.1 hdes, fun _ _ => errDisk_ne⟩
  obtain ⟨gd, hgd, hsame⟩ := (ext2LoadGroupDes_eq (m := m) h hg).1 hdes
  have htab : gd.inodeTableAddr = fs.tableAddr m (inodeGroup fs n) := (hsame.field (by decide)).trans tableAddr_eq.symm
  have hblk : u64 (inodeIndex fs n * inodeSize / fs.blockSize + gd.inodeTableAddr) = fs.inodeBlock m n := by
    have hlt := h.inodeBlock_lt (m := m) (n := n)
    rw [inodeBlock_eq, ← htab, Nat.add_comm] at hlt ⊢
    exact u64_of_lt (by omega)
  rw [ext2WriteInode_some hgd, hblk, loadBlock_eq h h.inodeBlock_lt]
  by_cases ho : fs.opens io (fs.inodeBlock m n) = true
  · rw [if_pos ho]
    dsimp only
    rw [slot_eq h.sized]
    refine ⟨fun hc => (ext2WriteBlocks_eq h h.inodeBlock_lt _).1 hc.2.2.2, fun hc m' he => ?_⟩
    have hs : fs.stores io (fs.inodeBlock m n) ≠ true := fun hs => hc ⟨hg, hdes, ho, hs⟩
    exact (ext2WriteBlocks_eq h h.inodeBlock_lt _).2 hs (congrArg Prod.fst he)
  · rw [if_neg ho]
    exact ⟨fun hc => absurd hc.2.2.1 ho, fun _ _ => errDisk_ne⟩

/-- The block of the inode after a write. -/
theorem blockAt_slotWritten {buf : Mem} (hi : i < fs.blockSize) :
    fs.blockAt (slotWritten fs m buf n x) (fs.inodeBlock m n) i =
      if fs.inodeSlot n ≤ i ∧ i < fs.inodeSlot n + inodeSize then x.bytes (i - fs.inodeSlot n)
      else fs.blockAt m (fs.inodeBlock m n) i := by
  unfold slotWritten
  rw [blockAt_written_self hi]
  unfold patch overlay
  rw [if_pos hi]

/-! ## The place of an inode in bytes -/

/-- Where the driver finds an inode, from the beginning of the file system. -/
def Ext2Fs.inodeAddr (fs : Ext2Fs) (m : Mem) (n : ℕ) : ℕ := fs.inodeBlock m n * fs.blockSize + fs.inodeSlot n

/-- The inodes of a group lie 128 bytes apart. -/
theorem inodeAddr_eq (h : fs.Sized) :
    fs.inodeAddr m n = fs.tableAddr m (inodeGroup fs n) * fs.blockSize + inodeIndex fs n * inodeSize := by
  have hdiv := Nat.div_add_mod (inodeIndex fs n * inodeSize) fs.blockSize
  unfold Ext2Fs.inodeAddr
  rw [inodeBlock_eq, Nat.add_mul, ← slot_eq h, Nat.mul_comm (_ / _)]
  omega

/-- A load reads the bytes there. -/
theorem loadInode_bytes (h : fs.Ok) {node : Ext2Inode} (hl : ext2LoadInode fs io m n = some node) {y : ℕ}
    (hy : y < inodeSize) : node.bytes y = m (fs.base + fs.inodeAddr m n + y) := by
  rw [(h.loadInode_same hl).2 y hy]
  show m (fs.base + fs.inodeBlock m n * fs.blockSize + (fs.inodeSlot n + y)) = _
  unfold Ext2Fs.inodeAddr
  rw [← Nat.add_assoc, ← Nat.add_assoc]

/-- A write changes the bytes there. -/
theorem slotWritten_eq_patch {buf : Mem} (h : fs.Ok) :
    slotWritten fs m buf n x = patch m (fs.base + fs.inodeAddr m n) inodeSize x.bytes := by
  have hle := h.inodeSlot_le n
  have hend : (fs.inodeBlock m n + 1) * fs.blockSize = fs.inodeBlock m n * fs.blockSize + fs.blockSize := by
    rw [Nat.add_mul, Nat.one_mul]
  funext y
  unfold slotWritten written patch overlay blockAt Ext2Fs.inodeAddr
  generalize fs.inodeBlock m n = b at *
  generalize fs.inodeSlot n = i at *
  by_cases hin : fs.base + b * fs.blockSize ≤ y ∧ y < fs.base + (b + 1) * fs.blockSize
  · rw [if_pos hin]
    by_cases hs : fs.base + (b * fs.blockSize + i) ≤ y ∧ y < fs.base + (b * fs.blockSize + i) + inodeSize
    · rw [if_pos hs, if_pos (by omega)]
      congr 1
      omega
    · rw [if_neg hs, if_neg (by omega), if_pos (by omega)]
      congr 1
      omega
  · rw [if_neg hin, if_neg (by omega)]

/-! ## What a write leaves alone -/

/-- A number that is an inode's. -/
def Ext2Fs.HasInode (fs : Ext2Fs) (n : ℕ) : Prop := 1 ≤ n ∧ n ≤ fs.groupCount * fs.inodesInGroup ∧ n < 2 ^ 64

/-- The block `b` is in the inode table of a group. -/
def Ext2Fs.InTable (fs : Ext2Fs) (m : Mem) (g b : ℕ) : Prop :=
  ∃ i < fs.inodesInGroup, b = fs.tableAddr m g + i * inodeSize / fs.blockSize

/-- The block `b` is in the table of the group descriptors. -/
def Ext2Fs.InDesTable (fs : Ext2Fs) (b : ℕ) : Prop :=
  ∃ g < fs.groupCount, b = g / (fs.blockSize / groupDesSize) + fs.groupDesTableBlock

/-- The inode tables are disjoint from each other and from the table of the group descriptors. -/
structure Ext2Fs.TablesApart (fs : Ext2Fs) (m : Mem) : Prop where
  tables : ∀ g < fs.groupCount, ∀ g' < fs.groupCount, g ≠ g' → ∀ b, fs.InTable m g b → ¬ fs.InTable m g' b
  descriptors : ∀ g < fs.groupCount, ∀ b, fs.InTable m g b → ¬ fs.InDesTable b

theorem Ext2Fs.HasInode.sub (hn : fs.HasInode n) : sub64 n 1 = n - 1 := sub64_of_le hn.1 hn.2.2

theorem Ext2Fs.HasInode.group_lt (hn : fs.HasInode n) : inodeGroup fs n < fs.groupCount := by
  have hle := hn.2.1
  have hpos := hn.1
  unfold inodeGroup
  rw [hn.sub, Nat.div_lt_iff_lt_mul (Nat.pos_of_ne_zero fun h0 => by rw [h0] at hle; omega)]
  omega

/-- Two inodes of one group have different indices. -/
theorem Ext2Fs.HasInode.index_ne (hk : fs.HasInode k) (hn : fs.HasInode n) (hne : k ≠ n)
    (hg : inodeGroup fs k = inodeGroup fs n) : inodeIndex fs k ≠ inodeIndex fs n := by
  intro hi
  have h1 := Nat.div_add_mod (k - 1) fs.inodesInGroup
  have h2 := Nat.div_add_mod (n - 1) fs.inodesInGroup
  have h3 := hk.1
  have h4 := hn.1
  unfold inodeGroup at hg
  unfold inodeIndex at hi
  rw [hk.sub, hn.sub] at hg hi
  rw [hg, hi] at h1
  omega

theorem inodeBlock_inTable (h : fs.Ok) : fs.InTable m (inodeGroup fs n) (fs.inodeBlock m n) :=
  ⟨inodeIndex fs n, Nat.mod_lt _ h.inodes_pos, inodeBlock_eq⟩

theorem Ext2Fs.HasInode.desBlock_inDesTable (hn : fs.HasInode n) : fs.InDesTable (fs.desBlock n) :=
  ⟨inodeGroup fs n, hn.group_lt, rfl⟩

/-- A write leaves the blocks of the inodes where they are. -/
theorem inodeBlock_slotWritten {buf : Mem} (h : fs.Ok) (ht : fs.TablesApart m) (hn : fs.HasInode n)
    (hk : fs.HasInode k) : fs.inodeBlock (slotWritten fs m buf n x) k = fs.inodeBlock m k := by
  have hne : fs.desBlock k ≠ fs.inodeBlock m n := fun he =>
    ht.descriptors _ hn.group_lt _ (inodeBlock_inTable h) (he ▸ hk.desBlock_inDesTable)
  have hslot := h.slot_des (inodeGroup fs k)
  unfold Ext2Fs.inodeBlock
  congr 1
  refine load_congr fun y h1 h2 => blockAt_written_of_ne hne ?_
  unfold groupDesSize at *
  omega

/-- **The inode that was written.** -/
theorem inodeAt_slotWritten_self {buf : Mem} (h : fs.Ok) (ht : fs.TablesApart m) (hn : fs.HasInode n) :
    (fs.inodeAt (slotWritten fs m buf n x) n).Same x := by
  intro y hy
  have hle := h.inodeSlot_le n
  unfold Ext2Fs.inodeAt
  rw [inodeBlock_slotWritten h ht hn hn, ← Ext2Fs.inodeSlot]
  dsimp only
  rw [blockAt_slotWritten (by omega), if_pos (by omega), Nat.add_sub_cancel_left]

/-- **The other inodes.** -/
theorem inodeAt_slotWritten_of_ne {buf : Mem} (h : fs.Ok) (ht : fs.TablesApart m) (hn : fs.HasInode n)
    (hk : fs.HasInode k) (hne : k ≠ n) : (fs.inodeAt (slotWritten fs m buf n x) k).Same (fs.inodeAt m k) := by
  intro y hy
  have hle := h.inodeSlot_le k
  unfold Ext2Fs.inodeAt
  rw [inodeBlock_slotWritten h ht hn hk, ← Ext2Fs.inodeSlot]
  dsimp only
  by_cases hb : fs.inodeBlock m k = fs.inodeBlock m n
  · -- in one block: the group is the same, and the slot is another
    have hg : inodeGroup fs k = inodeGroup fs n := by
      by_contra hg
      have hin : fs.InTable m (inodeGroup fs n) (fs.inodeBlock m k) := by
        rw [hb]
        exact inodeBlock_inTable h
      exact ht.tables _ hk.group_lt _ hn.group_lt hg _ (inodeBlock_inTable h) hin
    have hdiv : inodeIndex fs k * inodeSize / fs.blockSize = inodeIndex fs n * inodeSize / fs.blockSize := by
      rw [inodeBlock_eq, inodeBlock_eq, hg] at hb
      omega
    have hslot := slots_apart h (hk.index_ne hn hne hg) hdiv
    rw [hb, blockAt_slotWritten (by omega), if_neg (by omega)]
  · exact blockAt_written_of_ne hb (by omega)

/-- If the inode is in the same place and has the same bytes, loading it gives the same. -/
theorem loadInode_rel (h : fs.Ok) (hb : fs.inodeBlock m' k = fs.inodeBlock m k)
    (hs : (fs.inodeAt m' k).Same (fs.inodeAt m k)) :
    Option.Rel Ext2Inode.Same (ext2LoadInode fs io m' k) (ext2LoadInode fs io m k) := by
  have hiff : fs.opensInode io m' k ↔ fs.opensInode io m k := by
    unfold Ext2Fs.opensInode
    rw [hb]
  by_cases ho : fs.opensInode io m k
  · obtain ⟨node, he, hnode⟩ := (ext2LoadInode_eq h).1 ho
    obtain ⟨node', he', hnode'⟩ := (ext2LoadInode_eq h).1 (hiff.2 ho)
    rw [he, he']
    exact .some fun y hy => (hnode' y hy).trans ((hs y hy).trans (hnode y hy).symm)
  · rw [(ext2LoadInode_eq h).2 ho, (ext2LoadInode_eq h).2 (mt hiff.1 ho)]
    exact .none

/-- What was read once is read without errors. -/
theorem loads_noErrors {io' : Io} (hio : io'.NoErrors) (hl : fs.loads io b = true) : fs.loads io' b = true := by
  rw [loads_iff (fun _ => 0) (fun _ => 0)] at hl ⊢
  unfold driveReadSectors idePioRead48 at hl ⊢
  cases hr : fs.dev.request (u64 (b * fs.blockSize) / 512) (u64 (1 * fs.blockSize) / 512) with
  | ide l =>
    rw [hr] at hl
    dsimp only at hl ⊢
    split_ifs at hl ⊢ with href
    · exact hl
    · unfold pioStatus
      rw [hio]
      rfl
  | _ => rw [hr] at hl; exact hl

theorem opens_noErrors {io' : Io} (hio : io'.NoErrors) (hm : io'.noMem fs.blockSize = false)
    (ho : fs.opens io b = true) : fs.opens io' b = true := by
  unfold Ext2Fs.opens at ho ⊢
  rw [hm, loads_noErrors hio (Bool.and_eq_true_iff.1 ho).2]
  rfl

/-- An inode is written only if there is memory for a block. -/
theorem mem_of_writeInode (hw : ext2WriteInode fs io m x n = (GENERIC_SUCCESS, m')) :
    io.noMem fs.blockSize = false := by
  by_contra hm
  rw [ext2WriteInode_none (ext2LoadGroupDes_noMem (by simpa using hm))] at hw
  exact errDisk_ne hw

/-- **The inodes as a store.** After the inode `n` was written, loading it gives what was written, loading another
inode gives what it gave before, and only one block of the inode table of its group has changed. -/
theorem inode_store (h : fs.Sized) (hk : io.Kernel) (ht : fs.TablesApart m) (hn : fs.HasInode n)
    (hw : ext2WriteInode fs io m x n = (GENERIC_SUCCESS, m')) :
    (∀ io' : Io, io'.NoErrors → io'.noMem groupDesSize = false → io'.noMem fs.blockSize = false →
      ∃ node, ext2LoadInode fs io' m' n = some node ∧ node.Same x) ∧
    (∀ k, fs.HasInode k → k ≠ n → ∀ io',
      Option.Rel Ext2Inode.Same (ext2LoadInode fs io' m' k) (ext2LoadInode fs io' m k)) ∧
    fs.InTable m (inodeGroup fs n) (fs.inodeBlock m n) ∧ ∀ y, ¬ fs.InBlock (fs.inodeBlock m n) y → m' y = m y := by
  have hok := h.ok hk (mem_of_writeInode hw)
  by_cases hs : fs.storesInode io m n
  swap
  · exact absurd hw ((ext2WriteInode_eq hok).2 hs m')
  obtain rfl : slotWritten fs m io.garbage n x = m' := congrArg Prod.snd (((ext2WriteInode_eq hok).1 hs).symm.trans hw)
  refine ⟨fun io' hio hm1 hm2 => ?_, fun k hk hne io' => ?_, inodeBlock_inTable hok, fun y hy => ?_⟩
  · have ho : fs.opensInode io' (slotWritten fs m io.garbage n x) n := by
      refine ⟨hm1, hs.1, opens_noErrors hio hm2 hs.2.1, ?_⟩
      rw [inodeBlock_slotWritten hok ht hn hn]
      exact opens_noErrors hio hm2 hs.2.2.1
    obtain ⟨node, he, hnode⟩ := (ext2LoadInode_eq hok).1 ho
    exact ⟨node, he, fun y hy => (hnode y hy).trans (inodeAt_slotWritten_self hok ht hn y hy)⟩
  · exact loadInode_rel hok (inodeBlock_slotWritten hok ht hn hk) (inodeAt_slotWritten_of_ne hok ht hn hk hne)
  · exact written_of_not_inBlock hy

theorem smallImage_apart : smallFs.TablesApart smallImage where
  tables := fun g hg g' hg' hne => by
    have hc : smallFs.groupCount = 1 := rfl
    omega
  descriptors := by
    rintro g hg b ⟨i, hi, rfl⟩ ⟨g', hg', he⟩
    have hc : smallFs.groupCount = 1 := rfl
    have hin : smallFs.inodesInGroup = 8 := rfl
    obtain rfl : g = 0 := by omega
    obtain rfl : g' = 0 := by omega
    have htab : smallFs.tableAddr smallImage 0 = 5 := by decide +kernel
    have hdes : 0 / (smallFs.blockSize / groupDesSize) + smallFs.groupDesTableBlock = 2 := by decide
    rw [htab, hdes] at he
    exact absurd ((Nat.le_add_right 5 _).trans he.le) (by decide)

theorem smallImage_stores : smallFs.storesInode Io.calm smallImage 3 :=
  ⟨by decide, by decide +kernel, by decide +kernel, by decide +kernel⟩

theorem inode_store_small : ∃ m', ext2WriteInode smallFs Io.calm smallImage ⟨fun _ => 7⟩ 3 = (GENERIC_SUCCESS, m') ∧
    (∃ node, ext2LoadInode smallFs Io.calm m' 3 = some node ∧ node.Same ⟨fun _ => 7⟩) ∧
    Option.Rel Ext2Inode.Same (ext2LoadInode smallFs Io.calm m' 4) (ext2LoadInode smallFs Io.calm smallImage 4) := by
  have hw := (ext2WriteInode_eq (x := ⟨fun _ => 7⟩) smallFs_ok).1 smallImage_stores
  obtain ⟨h1, h2, -⟩ := inode_store smallFs_ok.sized Io.calm_kernel smallImage_apart (n := 3)
    ⟨by decide, by decide, by decide⟩ hw
  exact ⟨_, hw, h1 Io.calm (fun _ _ => rfl) rfl rfl, h2 4 ⟨by decide, by decide, by decide⟩ (by decide) Io.calm⟩

end Nettapus
