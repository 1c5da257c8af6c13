import Nettapus.Proof.Ext2Heap
import Nettapus.Proof.Ext2Write

/-!
# The block map of an inode, and slices of a file

`mapEntry` is the map of the format: twelve direct blocks, and then the words of the singly indirect block.
`ext2_block_in_inode` compares the number of the block with the number of words, and not with the number of words
and twelve, so it does not look at the last twelve words (`block_map_iff`).

`read_slice`: over the blocks that `ext2_block_in_inode` gives, `ext2_read_file` is exact.
-/

namespace Nettapus

open Bytes Ext2Fs

variable {fs : Ext2Fs} {io : Io} {m : Mem} {node : Ext2Inode} {inode off n k : ℕ}

/-! ## Slices -/

/-- The block `k` of a file has some of the `n` bytes at `off`. -/
def Overlaps (fs : Ext2Fs) (off n k : ℕ) : Prop := 0 < n ∧ k * fs.blockSize < off + n ∧ off < (k + 1) * fs.blockSize

/-- The bytes of the blocks `blk 0`, `blk 1`, and so on. -/
def joined (fs : Ext2Fs) (m : Mem) (blk : ℕ → ℕ) : Mem :=
  fun i => fs.blockAt m (blk (i / fs.blockSize)) (i % fs.blockSize)

/-- What a read of `n` bytes at `off` should do, by the blocks `blk`. -/
def ReadsSlice (fs : Ext2Fs) (io : Io) (m : Mem) (blk : ℕ → ℕ) (size inode off n : ℕ) : Prop :=
  ∃ r out, ext2ReadFile fs io m inode off n = some (r, out) ∧
    ((off + n ≤ size ∧ ∀ k, Overlaps fs off n k → blk k ≠ 0) → r = n ∧ out = bytes (joined fs m blk) off n) ∧
    (¬ (off + n ≤ size ∧ ∀ k, Overlaps fs off n k → blk k ≠ 0) → r < 0)

theorem overlaps_iff (h : fs.Ok) : Overlaps fs off n k ↔ fs.InRange (off / fs.blockSize) (off % fs.blockSize) n k := by
  have hle : off / fs.blockSize ≤ k ↔ off < (k + 1) * fs.blockSize := by
    rw [← Nat.lt_succ_iff, Nat.div_lt_iff_lt_mul h.block_pos]
  unfold Overlaps Ext2Fs.InRange
  rw [off_eq, hle]
  tauto

theorem Ext2Inode.size_lt (node : Ext2Inode) : node.size < 2 ^ 64 := by
  have h1 : node.sizeHigh < 2 ^ 32 := load_lt _ 4 _
  have h2 : node.sizeLow < 2 ^ 32 := load_lt _ 4 _
  unfold Ext2Inode.size
  refine Nat.or_lt_two_pow ?_ (h2.trans (by decide))
  rw [Nat.shiftLeft_eq]
  omega

theorem readable_iff (h : fs.Ok) : fs.Readable io m node k ↔ ext2BlockInInode fs io m node k ≠ 0 ∧
    fs.loads io (ext2BlockInInode fs io m node k) = true := by
  unfold Ext2Fs.Readable
  rw [ext2BlockInInode_eq h]
  cases fs.opensMap io node k with
  | true => simp
  | false => simp

/-- Whether a read succeeds, by the blocks that `ext2_block_in_inode` gives. -/
theorem reads_iff_slice (h : fs.Ok) (hi : 2 < inode) (hl : ext2LoadInode fs io m inode = some node) (ho : off < 2 ^ 64)
    (hdisk : ∀ k, Overlaps fs off n k → ext2BlockInInode fs io m node k ≠ 0 →
      fs.loads io (ext2BlockInInode fs io m node k) = true) :
    fs.Reads io m inode off n ↔
      off + n ≤ node.size ∧ ∀ k, Overlaps fs off n k → ext2BlockInInode fs io m node k ≠ 0 := by
  obtain ⟨hopens, hsame⟩ := h.loadInode_same hl
  have hsize : node.size = fs.sizeOf m inode := hsame.size
  have hread : (∀ k, fs.InRange (off / fs.blockSize) (off % fs.blockSize) n k → fs.Readable io m (fs.inodeAt m inode) k) ↔
      ∀ k, Overlaps fs off n k → ext2BlockInInode fs io m node k ≠ 0 := by
    refine forall_congr' fun k => ?_
    rw [← overlaps_iff h, ← readable_same hsame, readable_iff h]
    exact ⟨fun hr hov => (hr hov).1, fun hr hov => ⟨hr hov, hdisk k hov (hr hov)⟩⟩
  have hlt := node.size_lt
  constructor
  · intro hr
    refine ⟨?_, hread.1 hr.blocks⟩
    rcases Nat.eq_zero_or_pos n with rfl | h0
    · have := hr.size
      rw [Nat.add_zero, u64_of_lt ho] at this
      omega
    · -- the blocks of the range bound it, so its end did not wrap
      have := (hr.range_le h h0).2
      omega
  · rintro ⟨hle, hblk⟩
    exact ⟨hi, hopens, by rw [u64_of_lt (by omega)]; omega, mem_of_loadInode hl, hread.2 hblk⟩

/-- The bytes of a range whose blocks are there. -/
theorem content_eq_joined (h : fs.Ok) (hl : ext2LoadInode fs io m inode = some node)
    (hblk : ∀ k, Overlaps fs off n k → ext2BlockInInode fs io m node k ≠ 0) :
    bytes (fs.content m inode) off n = bytes (joined fs m (ext2BlockInInode fs io m node)) off n := by
  refine bytes_congr fun i hin => ?_
  have hov : Overlaps fs off n ((off + i) / fs.blockSize) := by
    refine ⟨by omega, lt_of_le_of_lt (Nat.div_mul_le_self _ _) (by omega), ?_⟩
    rw [← Nat.div_lt_iff_lt_mul h.block_pos, Nat.lt_succ_iff]
    exact Nat.div_le_div_right (by omega)
  have hne := hblk _ hov
  rw [ext2BlockInInode_eq h] at hne
  unfold Ext2Fs.content joined
  rw [← mapped_same (h.loadInode_same hl).2, ext2BlockInInode_eq h]
  split_ifs at hne ⊢ with hmap
  · rfl
  · exact absurd rfl hne

/-- A read that does not succeed returns a negative number. -/
theorem readFile_neg (h : fs.Ok) (hr : ¬ fs.Reads io m inode off n) :
    ∃ r out, ext2ReadFile fs io m inode off n = some (r, out) ∧ r < 0 := by
  obtain ⟨e, l, he, hcases⟩ := (ext2ReadFile_eq h).2 hr
  have hpos : 0 < e := by rcases hcases with rfl | rfl | rfl <;> decide
  exact ⟨_, _, he, by omega⟩

/-- **A slice of a file.** With memory and without an error of the disk, `ext2_read_file` returns the bytes that
it was asked for if they are in the file and their blocks are there, and a negative number if not. -/
theorem read_slice (h : fs.Sized) (hk : io.Kernel) (hi : 2 < inode) (hl : ext2LoadInode fs io m inode = some node)
    (ho : off < 2 ^ 64)
    (hdisk : ∀ k, Overlaps fs off n k → ext2BlockInInode fs io m node k ≠ 0 →
      fs.loads io (ext2BlockInInode fs io m node k) = true) :
    ReadsSlice fs io m (ext2BlockInInode fs io m node) node.size inode off n := by
  have hok := h.ok_of_loadInode hk hl
  have hiff := reads_iff_slice hok hi hl ho hdisk
  by_cases hr : fs.Reads io m inode off n
  · exact ⟨_, _, (ext2ReadFile_eq hok).1 hr, fun hc => ⟨rfl, content_eq_joined hok hl hc.2⟩, fun hno => absurd (hiff.1 hr) hno⟩
  · obtain ⟨r, out, he, hneg⟩ := readFile_neg hok hr
    exact ⟨r, out, he, fun hc => absurd (hiff.2 hc) hr, fun _ => hneg⟩

/-- The file of four bytes, as a case of `read_slice`. -/
theorem read_slice_small : ReadsSlice smallFs Io.calm smallImage
    (ext2BlockInInode smallFs Io.calm smallImage (smallFs.inodeAt smallImage 3)) 4 3 1 2 := by
  obtain ⟨node, hl⟩ : ∃ node, ext2LoadInode smallFs Io.calm smallImage 3 = some node := ⟨_, rfl⟩
  have hsame := (smallFs_ok.loadInode_same hl).2
  have hblk : ext2BlockInInode smallFs Io.calm smallImage node =
      ext2BlockInInode smallFs Io.calm smallImage (smallFs.inodeAt smallImage 3) := by
    funext k
    rw [ext2BlockInInode_eq smallFs_ok, ext2BlockInInode_eq smallFs_ok, hsame.fileBlock]
    unfold Ext2Fs.opensMap
    rw [hsame.singlyIndirect]
  have hsize : node.size = 4 := hsame.size.trans smallImage_size
  have hread : ReadsSlice smallFs Io.calm smallImage (ext2BlockInInode smallFs Io.calm smallImage node) node.size 3 1 2 := by
    refine read_slice smallFs_ok.sized Io.calm_kernel (by decide) hl (by decide) fun k hov _ => ?_
    obtain rfl : k = 0 := by
      have := hov.2.1
      unfold smallFs at this
      dsimp only at this
      omega
    rw [hblk]
    decide +kernel
  rwa [hblk, hsize] at hread

/-! ## The block map -/

/-- The block `k` of an inode, by the format. -/
def Ext2Fs.mapEntry (fs : Ext2Fs) (m : Mem) (node : Ext2Inode) (k : ℕ) : ℕ :=
  if k < 12 then node.directBlock k else load (fs.blockAt m node.singlyIndirect) (4 * (k - 12)) 4

/-- A file of allocated blocks, no more than the direct and the singly indirect ones, that the device gives. -/
structure MapAllocated (fs : Ext2Fs) (io : Io) (m : Mem) (node : Ext2Inode) : Prop where
  size : node.size ≤ (12 + fs.blockSize / 4) * fs.blockSize
  blocks : ∀ k, k * fs.blockSize < node.size → fs.mapEntry m node k ≠ 0 ∧ fs.loads io (fs.mapEntry m node k) = true
  indirect : fs.loads io node.singlyIndirect = true

/-- The file is read from its beginning to its end. -/
def ReadsWhole (fs : Ext2Fs) (io : Io) (m : Mem) (inode : ℕ) (node : Ext2Inode) : Prop :=
  ext2ReadFile fs io m inode 0 node.size = some ((node.size : ℤ), bytes (joined fs m (fs.mapEntry m node)) 0 node.size)

/-- The driver's map is the one of the format up to the number of words. -/
theorem fileBlock_eq_mapEntry (h : k < fs.blockSize / 4) : fs.fileBlock m node k = fs.mapEntry m node k := by
  unfold Ext2Fs.fileBlock Ext2Fs.mapEntry
  rw [if_pos h]

theorem fileBlock_eq_zero (h1 : 12 ≤ k) (h2 : fs.blockSize / 4 ≤ k) : fs.fileBlock m node k = 0 := by
  unfold Ext2Fs.fileBlock
  rw [if_neg (by omega), if_neg (by omega)]

/-- The result for one block. -/
theorem blockInInode_iff (h : fs.Sized) (hk : io.Kernel) (hd : fs.loads io node.singlyIndirect = true) :
    ext2BlockInInode fs io m node k = fs.mapEntry m node k ↔
      k < 12 ∨ (k < fs.blockSize / 4 ∧ io.noMem fs.blockSize = false) ∨ fs.mapEntry m node k = 0 := by
  by_cases h12 : k < 12
  · refine iff_of_true ?_ (Or.inl h12)
    unfold ext2BlockInInode Ext2Fs.mapEntry
    rw [if_pos h12, if_pos h12]
  by_cases hm : io.noMem fs.blockSize = true
  · -- no buffer for the indirect block
    have h0 : ext2BlockInInode fs io m node k = 0 := by
      unfold ext2BlockInInode
      rw [if_neg h12, loadBlock_noMem hm]
      exact ite_self 0
    rw [h0]
    constructor
    · intro he
      exact Or.inr (Or.inr he.symm)
    · rintro (hc | ⟨-, hc⟩ | hc)
      · exact absurd hc h12
      · rw [hm] at hc
        cases hc
      · exact hc.symm
  · have hm : io.noMem fs.blockSize = false := by simpa using hm
    have hok := h.ok hk hm
    have hmap : fs.opensMap io node k = true := by
      unfold Ext2Fs.opensMap Ext2Fs.opens
      rw [hm, hd]
      simp
    rw [ext2BlockInInode_eq hok, if_pos hmap]
    by_cases hlt : k < fs.blockSize / 4
    · exact iff_of_true (fileBlock_eq_mapEntry hlt) (Or.inr (Or.inl ⟨hlt, hm⟩))
    · rw [fileBlock_eq_zero (by omega) (by omega)]
      constructor
      · intro he
        exact Or.inr (Or.inr he.symm)
      · rintro (hc | ⟨hc, -⟩ | hc)
        · exact absurd hc h12
        · exact absurd hc hlt
        · exact hc.symm

/-- A file is read completely if its blocks end with the words that the driver looks at. -/
theorem readsWhole_iff (h : fs.Sized) (hk : io.Kernel) (hi : 2 < inode) (hl : ext2LoadInode fs io m inode = some node)
    (ha : MapAllocated fs io m node) : ReadsWhole fs io m inode node ↔ node.size ≤ fs.blockSize / 4 * fs.blockSize := by
  have hok := h.ok_of_loadInode hk hl
  have hm := mem_of_loadInode hl
  have hblk : ∀ k, k * fs.blockSize < node.size → k < fs.blockSize / 4 →
      ext2BlockInInode fs io m node k = fs.mapEntry m node k :=
    fun k _ hlt => (blockInInode_iff h hk ha.indirect).2 (Or.inr (Or.inl ⟨hlt, hm⟩))
  have hbig : 12 ≤ fs.blockSize / 4 := by
    have := (hok.block_arith (show 0 < 2 ^ 38 by decide)).1
    omega
  have hend : ∀ k, fs.blockSize / 4 ≤ k → ext2BlockInInode fs io m node k = 0 := by
    intro k hle
    rw [ext2BlockInInode_eq hok, fileBlock_eq_zero (by omega) hle, ite_self]
  have hreads : fs.Reads io m inode 0 node.size ↔
      0 + node.size ≤ node.size ∧ ∀ k, Overlaps fs 0 node.size k → ext2BlockInInode fs io m node k ≠ 0 := by
    refine reads_iff_slice hok hi hl (by decide) fun k hov hne => ?_
    have hlt : k < fs.blockSize / 4 := by
      by_contra hc
      exact hne (hend k (by omega))
    have hks : k * fs.blockSize < node.size := by have := hov.2.1; omega
    rw [hblk k hks hlt]
    exact (ha.blocks k hks).2
  unfold ReadsWhole
  constructor
  · intro he
    by_contra hgt
    -- the block behind the last word is missing
    have hpos : 0 < (fs.blockSize / 4 + 1) * fs.blockSize := Nat.mul_pos (Nat.succ_pos _) hok.block_pos
    have hno : ¬ fs.Reads io m inode 0 node.size := fun hc =>
      (hreads.1 hc).2 (fs.blockSize / 4) ⟨by omega, by omega, hpos⟩ (hend _ le_rfl)
    obtain ⟨r, out, hr, hneg⟩ := readFile_neg hok hno
    have := congrArg Prod.fst (Option.some.inj (hr.symm.trans he))
    dsimp only at this
    omega
  · intro hle
    have hlt : ∀ k, k * fs.blockSize < node.size → k < fs.blockSize / 4 := fun k hks =>
      Nat.lt_of_mul_lt_mul_right (hks.trans_le hle)
    have hne : ∀ k, Overlaps fs 0 node.size k → ext2BlockInInode fs io m node k ≠ 0 := by
      intro k hov
      have hks : k * fs.blockSize < node.size := by have := hov.2.1; omega
      rw [hblk k hks (hlt k hks)]
      exact (ha.blocks k hks).1
    rw [(ext2ReadFile_eq hok).1 (hreads.2 ⟨by omega, hne⟩), content_eq_joined hok hl hne]
    congr 2
    refine bytes_congr fun i hi => ?_
    rw [Nat.zero_add]
    have hks : i / fs.blockSize * fs.blockSize < node.size := lt_of_le_of_lt (Nat.div_mul_le_self _ _) hi
    unfold joined
    rw [hblk _ hks (hlt _ hks)]

/-- **When the block map is the one of the format.** For a block of the indirect range it is if the number of the
block is below the number of words and there is memory to look, or if the word is 0. And a file
of allocated blocks is read completely exactly if it has no more blocks than there are words. -/
theorem block_map_iff (h : fs.Sized) (hk : io.Kernel) (m : Mem) :
    (∀ node k, k < 12 + fs.blockSize / 4 → fs.loads io node.singlyIndirect = true →
      (ext2BlockInInode fs io m node k = fs.mapEntry m node k ↔
        k < 12 ∨ (k < fs.blockSize / 4 ∧ io.noMem fs.blockSize = false) ∨ fs.mapEntry m node k = 0)) ∧
    ∀ inode node, 2 < inode → ext2LoadInode fs io m inode = some node → MapAllocated fs io m node →
      (ReadsWhole fs io m inode node ↔ node.size ≤ fs.blockSize / 4 * fs.blockSize) :=
  ⟨fun _ _ _ hd => blockInInode_iff h hk hd, fun _ _ hi hl ha => readsWhole_iff h hk hi hl ha⟩

/-- The file of four bytes. -/
theorem block_map_small : ∃ node, ext2LoadInode smallFs Io.calm smallImage 3 = some node ∧
    ReadsWhole smallFs Io.calm smallImage 3 node := by
  obtain ⟨node, hl⟩ : ∃ node, ext2LoadInode smallFs Io.calm smallImage 3 = some node := ⟨_, rfl⟩
  have hsame := (smallFs_ok.loadInode_same hl).2
  have hsize : node.size = 4 := hsame.size.trans smallImage_size
  have hsi : node.singlyIndirect = 0 := hsame.singlyIndirect.trans (by decide +kernel)
  have hdirect : node.directBlock 0 = 10 := (hsame.directBlock (by decide)).trans (by decide +kernel)
  refine ⟨node, hl, ((block_map_iff smallFs_ok.sized Io.calm_kernel smallImage).2 3 node (by decide) hl
    ⟨?_, fun k hks => ?_, ?_⟩).2 ?_⟩
  · rw [hsize]
    decide
  · obtain rfl : k = 0 := by
      rw [hsize] at hks
      unfold smallFs at hks
      dsimp only at hks
      omega
    have he : smallFs.mapEntry smallImage node 0 = 10 := hdirect
    rw [he]
    decide +kernel
  · rw [hsi]
    decide +kernel
  · rw [hsize]
    decide

/-- The inode 3 has 257 blocks, which are all the block 10; the indirect block is 30. -/
def mapImage : Mem := fun x =>
  if x = 2 * 1024 + 8 then 5
  else if x = 5 * 1024 + 256 + 5 ∨ x = 5 * 1024 + 256 + 6 then 4
  else if 5 * 1024 + 256 + 40 ≤ x ∧ x < 5 * 1024 + 256 + 88 then if x % 4 = 0 then 10 else 0
  else if x = 5 * 1024 + 256 + 88 then 30
  else if 30 * 1024 ≤ x ∧ x < 31 * 1024 then if x % 4 = 0 then 10 else 0
  else 0

theorem mapImage_word {k : ℕ} (hk : k < 256) : load (smallFs.blockAt mapImage 30) (4 * k) 4 = 10 := by
  have hbyte : ∀ j < 4, smallFs.blockAt mapImage 30 (4 * k + j) = if j = 0 then 10 else 0 := by
    intro j hj
    have hb : smallFs.base = 0 := rfl
    have hs : smallFs.blockSize = 1024 := rfl
    unfold Ext2Fs.blockAt mapImage
    rw [hb, hs, if_neg (by omega), if_neg (by omega), if_neg (by omega), if_neg (by omega), if_pos (by omega)]
    by_cases h0 : j = 0
    · rw [if_pos (by omega), if_pos h0]
    · rw [if_neg (by omega), if_neg h0]
  have h0 := hbyte 0 (by decide)
  have h1 := hbyte 1 (by decide)
  have h2 := hbyte 2 (by decide)
  have h3 := hbyte 3 (by decide)
  simp only [load, Nat.add_assoc, Nat.add_zero, Nat.reduceAdd] at h0 ⊢
  rw [h0, h1, h2, h3]
  decide

/-- The block 256 has a word in the indirect block, and the driver does not find it: the file is not read. -/
theorem block_map_ends_early : ∃ node, ext2LoadInode smallFs Io.calm mapImage 3 = some node ∧
    256 < 12 + smallFs.blockSize / 4 ∧ ext2BlockInInode smallFs Io.calm mapImage node 256 = 0 ∧
    smallFs.mapEntry mapImage node 256 = 10 ∧ MapAllocated smallFs Io.calm mapImage node ∧
    ¬ ReadsWhole smallFs Io.calm mapImage 3 node := by
  obtain ⟨node, hl⟩ : ∃ node, ext2LoadInode smallFs Io.calm mapImage 3 = some node := ⟨_, rfl⟩
  have hsame := (smallFs_ok.loadInode_same hl).2
  have hsize : node.size = 257 * 1024 := hsame.size.trans (by decide +kernel)
  have hsi : node.singlyIndirect = 30 := hsame.singlyIndirect.trans (by decide +kernel)
  have hdirect : ∀ k < 12, (smallFs.inodeAt mapImage 3).directBlock k = 10 := by decide +kernel
  have hentry : ∀ k < 257, smallFs.mapEntry mapImage node k = 10 := by
    intro k hk
    unfold Ext2Fs.mapEntry
    split_ifs with h12
    · exact (hsame.directBlock h12).trans (hdirect k h12)
    · rw [hsi]
      exact mapImage_word (by omega)
  have ha : MapAllocated smallFs Io.calm mapImage node := by
    refine ⟨?_, fun k hks => ?_, ?_⟩
    · rw [hsize]
      decide
    · rw [hsize] at hks
      rw [hentry k (Nat.lt_of_mul_lt_mul_right hks)]
      exact ⟨by decide, by decide +kernel⟩
    · rw [hsi]
      decide +kernel
  refine ⟨node, hl, by decide, ?_, hentry 256 (by decide), ha, fun hr => ?_⟩
  · rw [ext2BlockInInode_eq smallFs_ok, fileBlock_eq_zero (by decide) (by decide), ite_self]
  · have hle := (readsWhole_iff smallFs_ok.sized Io.calm_kernel (by decide) hl ha).1 hr
    rw [hsize] at hle
    exact absurd hle (by decide)

end Nettapus
