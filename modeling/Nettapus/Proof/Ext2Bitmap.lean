import Nettapus.Proof.Ext2Inode

/-!
# The bitmaps, and `ext2_alloc_inode`

A bit of a bitmap is a bit of a byte of its block; `bitClear_setBit` says that `setBit` changes one bit. A group
has the bitmaps that its descriptor on the disk names (`desAt`).

`alloc_inode_never`: the number that `ext2_alloc_inode` returns is not the number of the inode whose bit it sets.
-/

namespace Nettapus

open Bytes Ext2Fs

variable {fs : Ext2Fs} {io : Io} {m m' buf : Mem} {g i j k n b : ℕ} {gd : GroupDes}

/-! ## Bits -/

/-- Masking with a bit. -/
theorem and_bit_eq_zero (x : UInt8) {r : ℕ} (hr : r < 8) :
    x &&& 1 <<< UInt8.ofNat r = 0 ↔ x.toNat.testBit r = false := by
  have hbit : ∀ r < 8, ((1 : UInt8) <<< UInt8.ofNat r).toNat = 2 ^ r := by decide
  rw [← UInt8.toNat_inj, UInt8.toNat_and, hbit r hr, UInt8.toNat_zero]
  constructor
  · intro h
    have ht := congrArg (fun n => n.testBit r) h
    simpa [Nat.testBit_and, Nat.testBit_two_pow] using ht
  · intro h
    refine Nat.eq_of_testBit_eq fun i => ?_
    rw [Nat.testBit_and, Nat.testBit_two_pow, Nat.zero_testBit]
    by_cases hi : r = i
    · rw [← hi, h, Bool.false_and]
    · rw [decide_eq_false hi, Bool.and_false]

theorem or_bit_testBit (x : UInt8) {r s : ℕ} (hr : r < 8) :
    (x ||| 1 <<< UInt8.ofNat r).toNat.testBit s = (x.toNat.testBit s || decide (r = s)) := by
  have hbit : ∀ r < 8, ((1 : UInt8) <<< UInt8.ofNat r).toNat = 2 ^ r := by decide
  rw [UInt8.toNat_or, hbit r hr, Nat.testBit_or, Nat.testBit_two_pow]

/-- A bit is clear if it is clear in its byte. -/
theorem bitClear_eq (buf : Mem) (j : ℕ) : bitClear buf j = !(buf (j / 8)).toNat.testBit (j % 8) := by
  unfold bitClear
  rw [Bool.eq_iff_iff, decide_eq_true_eq, Bool.not_eq_true', and_bit_eq_zero _ (Nat.mod_lt j (by decide))]

/-- **Setting a bit** changes this bit only. -/
theorem bitClear_setBit (buf : Mem) (j k : ℕ) : bitClear (setBit buf j) k = (!decide (k = j) && bitClear buf k) := by
  rw [bitClear_eq, bitClear_eq]
  unfold setBit
  by_cases hw : k / 8 = j / 8
  · rw [hw, Function.update_self, or_bit_testBit _ (Nat.mod_lt j (by decide)), Bool.not_or, Bool.and_comm]
    congr 2
    exact decide_eq_decide.2 (by omega)
  · rw [Function.update_of_ne hw, decide_eq_false fun h => hw (by rw [h]), Bool.not_false, Bool.true_and]

theorem bitClear_congr {buf' : Mem} (h : buf (j / 8) = buf' (j / 8)) : bitClear buf j = bitClear buf' j := by
  unfold bitClear
  rw [h]

/-! ## Reading a bitmap -/

/-- **How much of a bitmap is read**: one block, or nothing if the bits are a whole number of block sizes. -/
theorem bitmapBlocks_eq (hn : 0 < n) (hle : n ≤ 8 * fs.blockSize) :
    bitmapBlocks fs n = if fs.blockSize ∣ n ∧ n < 8 * fs.blockSize then 0 else 1 := by
  unfold bitmapBlocks
  rw [Nat.div_div_eq_div_mul]
  by_cases hlt : n < 8 * fs.blockSize
  · rw [Nat.div_eq_of_lt (by omega), Nat.zero_add]
    by_cases hd : fs.blockSize ∣ n
    · rw [if_neg (not_not_intro (Nat.mod_eq_zero_of_dvd hd)), if_pos ⟨hd, hlt⟩]
    · rw [if_pos fun hm => hd (Nat.dvd_of_mod_eq_zero hm), if_neg fun hc => hd hc.1]
  · obtain rfl : n = 8 * fs.blockSize := by omega
    rw [Nat.mul_mod_left, if_neg (not_not_intro rfl), Nat.mul_comm fs.blockSize 8, Nat.div_self hn,
      if_neg fun hc => hlt hc.2]

theorem bitmapBlocks_le (hn : 0 < n) (hle : n ≤ 8 * fs.blockSize) :
    bitmapBlocks fs n = 0 ∨ bitmapBlocks fs n = 1 := by
  rw [bitmapBlocks_eq hn hle]
  split_ifs
  · exact Or.inl rfl
  · exact Or.inr rfl

/-- There is no buffer for no blocks. -/
theorem loadBitmap_zero (hk : io.Kernel) : loadBitmap fs io m buf b 0 = none := by
  unfold loadBitmap
  rw [Nat.zero_mul]
  exact if_pos hk.noMem_zero

theorem loadBitmap_one (h : fs.Ok) (hb : b < 2 ^ 38) :
    loadBitmap fs io m buf b 1 = if fs.opens io b then some (overlay fs m b buf) else none := by
  have hlt : fs.blockSize < 2 ^ 64 := by
    have := h.small
    omega
  unfold loadBitmap Ext2Fs.opens
  rw [Nat.one_mul, u64_of_lt hlt, ext2LoadBlocks_eq h hb]
  cases io.noMem fs.blockSize with
  | true => rfl
  | false => rfl

/-- The bits of a block after another content was written to a block. -/
theorem bitClear_written {b' : ℕ} (hj : j < 8 * fs.blockSize) :
    bitClear (fs.blockAt (written fs m b buf) b') j =
      if b' = b then bitClear buf j else bitClear (fs.blockAt m b') j := by
  by_cases hb : b' = b
  · rw [if_pos hb, hb]
    exact bitClear_congr (blockAt_written_self (by omega))
  · rw [if_neg hb]
    exact bitClear_congr (blockAt_written_of_ne hb (by omega))

theorem bitClear_overlay (hj : j < 8 * fs.blockSize) : bitClear (overlay fs m b buf) j = bitClear (fs.blockAt m b) j :=
  bitClear_congr (if_pos (by omega))

/-! ## `ext2_alloc_inode` -/

/-- **How the loop ends**: with nothing, or with the first clear bit of the bitmap of a group. -/
theorem allocInodeLoop_cases : ∀ k i buf, allocInodeLoop fs io m k i buf = (0, m) ∨
    ∃ g < i + k, ∃ gdes buf₀ buf₁ j, ext2LoadGroupDes fs io m g = some gdes ∧
      loadBitmap fs io m buf₀ gdes.inodeBitmapAddr (bitmapBlocks fs fs.inodesInGroup) = some buf₁ ∧
      j < fs.inodesInGroup ∧ bitClear buf₁ j = true ∧
      allocInodeLoop fs io m k i buf = (u64 (g * fs.inodesInGroup + j),
        (ext2WriteBlocks fs io m (setBit buf₁ j) gdes.inodeBitmapAddr (bitmapBlocks fs fs.inodesInGroup)).2) := by
  intro k
  induction k with
  | zero => exact fun i buf => Or.inl rfl
  | succ k ih =>
    intro i buf
    unfold allocInodeLoop
    cases hgd : ext2LoadGroupDes fs io m i with
    | none => exact Or.inl rfl
    | some gdes =>
      dsimp only
      by_cases hfree : gdes.freeInodeCount = 0
      · rw [if_pos hfree]
        rcases ih (i + 1) buf with he | ⟨g, hg, h⟩
        · exact Or.inl he
        · exact Or.inr ⟨g, by omega, h⟩
      rw [if_neg hfree]
      cases hbm : loadBitmap fs io m buf gdes.inodeBitmapAddr (bitmapBlocks fs fs.inodesInGroup) with
      | none => exact Or.inl rfl
      | some buf₁ =>
        dsimp only
        cases hj : (List.range fs.inodesInGroup).find? (bitClear buf₁) with
        | none =>
          rcases ih (i + 1) buf₁ with he | ⟨g, hg, h⟩
          · exact Or.inl he
          · exact Or.inr ⟨g, by omega, h⟩
        | some j =>
          refine Or.inr ⟨i, by omega, gdes, buf, buf₁, j, hgd, hbm, ?_, List.find?_some hj, rfl⟩
          exact List.mem_range.1 (List.mem_of_find?_eq_some hj)

/-- The bit `j` of the inode bitmap of the group `g` is clear. The bitmap is where the image `m₀` has it. -/
def InodeFree (fs : Ext2Fs) (m₀ m : Mem) (g j : ℕ) : Bool := bitClear (fs.blockAt m (fs.desAt m₀ g).inodeBitmapAddr) j

/-- The number is the one of an inode whose bit was clear and is set now, and no other bit has changed. -/
def AllocInodeLaw (fs : Ext2Fs) (m : Mem) (r : ℕ × Mem) : Prop :=
  r.1 ≠ 0 ∧ ∃ g < fs.groupCount, ∃ j < fs.inodesInGroup, r.1 = g * fs.inodesInGroup + j + 1 ∧
    InodeFree fs m m g j = true ∧ InodeFree fs m r.2 g j = false ∧
    ∀ g' < fs.groupCount, ∀ j' < fs.inodesInGroup, (g', j') ≠ (g, j) → InodeFree fs m r.2 g' j' = InodeFree fs m m g' j'

/-- **A number that is returned belongs to the bit behind the one that was set.** -/
theorem ext2AllocInode_cases (h : fs.Sized) (hk : io.Kernel) (hle : fs.inodesInGroup ≤ 8 * fs.blockSize) :
    (ext2AllocInode fs io m).1 = 0 ∨ ∃ g < fs.groupCount, ∃ j < fs.inodesInGroup,
      (ext2AllocInode fs io m).1 = u64 (g * fs.inodesInGroup + j) ∧ InodeFree fs m m g j = true ∧
      InodeFree fs m (ext2AllocInode fs io m).2 g j = false := by
  unfold ext2AllocInode
  rcases allocInodeLoop_cases fs.groupCount 0 io.garbage with
    he | ⟨g, hg, gdes, buf₀, buf₁, j, hgd, hbm, hj, hclear, he⟩
  · rw [he]
    exact Or.inl rfl
  right
  rw [Nat.zero_add] at hg
  have hmem : io.noMem fs.blockSize = false := by
    by_contra hm
    rw [ext2LoadGroupDes_noMem (by simpa using hm)] at hgd
    cases hgd
  have hok := h.ok hk hmem
  -- the bitmap is one block
  have hone : bitmapBlocks fs fs.inodesInGroup = 1 := by
    rcases bitmapBlocks_le h.inodes_pos hle with h0 | h1
    · rw [h0, loadBitmap_zero hk] at hbm
      cases hbm
    · exact h1
  have haddr : gdes.inodeBitmapAddr = (fs.desAt m g).inodeBitmapAddr := by
    by_cases ho : fs.opens io (fs.groupBlock g) = true
    · obtain ⟨gd, hgd', hsame⟩ := (ext2LoadGroupDes_eq (m := m) hok hg.le).1 ho
      obtain rfl := Option.some.inj (hgd.symm.trans hgd')
      exact hsame.field (by decide)
    · rw [(ext2LoadGroupDes_eq hok hg.le).2 ho] at hgd
      cases hgd
  have hlt : gdes.inodeBitmapAddr < 2 ^ 38 := (load_lt _ 4 _).trans (by decide)
  rw [hone, loadBitmap_one hok hlt] at hbm
  split_ifs at hbm with ho
  obtain rfl := Option.some.inj hbm
  have hst : fs.stores io gdes.inodeBitmapAddr = true := stores_eq_loads.trans (Bool.and_eq_true_iff.1 ho).2
  rw [hone, (ext2WriteBlocks_eq hok hlt _).1 hst] at he
  rw [he]
  refine ⟨g, hg, j, hj, rfl, ?_, ?_⟩
  · rw [bitClear_overlay (by omega)] at hclear
    unfold InodeFree
    rw [← haddr]
    exact hclear
  · unfold InodeFree
    rw [← haddr, bitClear_written (by omega), if_pos rfl, bitClear_setBit, decide_eq_true rfl]
    rfl

/-- **`ext2_alloc_inode` never gives the number of the inode that it takes.** -/
theorem alloc_inode_never (h : fs.Sized) (hk : io.Kernel) (hle : fs.inodesInGroup ≤ 8 * fs.blockSize) :
    ¬ AllocInodeLaw fs m (ext2AllocInode fs io m) := by
  rintro ⟨hne, g, hg, j, hj, hnum, -, -, hframe⟩
  rcases ext2AllocInode_cases (m := m) h hk hle with h0 | ⟨g', hg', j', hj', hnum', hfree, hused⟩
  · exact hne h0
  · -- the bit that was set is the one of the law
    have hpair : (g', j') = (g, j) := by
      by_contra hc
      rw [hframe g' hg' j' hj' hc, hfree] at hused
      cases hused
    obtain ⟨rfl, rfl⟩ := Prod.mk.inj hpair
    have hmod : u64 (g' * fs.inodesInGroup + j') ≤ g' * fs.inodesInGroup + j' := Nat.mod_le _ _
    omega

/-- An image in which the inodes 1 and 2 are in use and the others are free. -/
def inodeImage : Mem := fun x =>
  if x = 2 * 1024 + 4 then 4          -- the inode bitmap
  else if x = 2 * 1024 + 8 then 5     -- the inode table
  else if x = 2 * 1024 + 14 then 6    -- the free inodes
  else if x = 4 * 1024 then 3
  else 0

theorem alloc_inode_never_small : ¬ AllocInodeLaw smallFs inodeImage (ext2AllocInode smallFs Io.calm inodeImage) :=
  alloc_inode_never smallFs_ok.sized Io.calm_kernel (by decide)

/-- **The inode of the root directory is given out**: the bit of the inode 3 is set, and the number is 2. -/
theorem alloc_inode_in_use :
    (smallFs.desAt inodeImage 0).freeInodeCount = 6 ∧ InodeFree smallFs inodeImage inodeImage 0 2 = true ∧
    (ext2AllocInode smallFs Io.calm inodeImage).1 = 2 ∧ InodeFree smallFs inodeImage inodeImage 0 1 = false ∧
    ¬ AllocInodeLaw smallFs inodeImage (ext2AllocInode smallFs Io.calm inodeImage) := by
  have hnum : (ext2AllocInode smallFs Io.calm inodeImage).1 = 2 := by decide +kernel
  have hused : InodeFree smallFs inodeImage inodeImage 0 1 = false := by decide +kernel
  refine ⟨by decide +kernel, by decide +kernel, hnum, hused, ?_⟩
  rintro ⟨-, g, hg, j, hj, he, hfree, -⟩
  have hgc : smallFs.groupCount = 1 := rfl
  have hipg : smallFs.inodesInGroup = 8 := rfl
  rw [hnum, hipg] at he
  obtain ⟨rfl, rfl⟩ : g = 0 ∧ j = 1 := by omega
  rw [hused] at hfree
  cases hfree

end Nettapus
