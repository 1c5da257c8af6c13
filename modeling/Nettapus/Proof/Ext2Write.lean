import Nettapus.Proof.Ext2File

/-!
# The write-then-read law of an ext2 file

`WriteLaw` is what a write that returns its whole amount should do: the range of the file is the new
bytes, the rest of the file and of the disk is as before, and every read sees that.

The code loads the old block only for a write that starts behind the first byte of it. A last
block that is written up to its middle, and from its first byte, gets the bytes that the
buffer of the function still holds (`leftover`). `write_law_iff` says that this is the only way in
which the law fails.
-/

namespace Nettapus

open Bytes Ext2Fs

variable {fs : Ext2Fs} {io : Io} {m m' src : Mem} {inode off n : ℕ}

/-- The blocks of the file are allocated, distinct, and not shared with its metadata. -/
structure FileOk (fs : Ext2Fs) (m : Mem) (inode : ℕ) : Prop where
  allocated : ∀ k, k * fs.blockSize < fs.sizeOf m inode → fs.fileBlock m (fs.inodeAt m inode) k ≠ 0
  map : MapOk fs (fs.inodeAt m inode) (fs.fileBlock m (fs.inodeAt m inode)) (fs.sizeOf m inode)
  des : ∀ k, k * fs.blockSize < fs.sizeOf m inode → fs.fileBlock m (fs.inodeAt m inode) k ≠ fs.desBlock inode
  table : ∀ k, k * fs.blockSize < fs.sizeOf m inode →
    fs.fileBlock m (fs.inodeAt m inode) k ≠ fs.inodeBlock m inode

/-- The blocks that a write touches. -/
def Touched (fs : Ext2Fs) (off n k : ℕ) : Prop := fs.InRange (off / fs.blockSize) (off % fs.blockSize) n k

/-- What a write of `n` bytes of `src` at `off` should do. -/
structure WriteLaw (fs : Ext2Fs) (m m' : Mem) (inode : ℕ) (src : Mem) (off n : ℕ) : Prop where
  size : fs.sizeOf m' inode = fs.sizeOf m inode
  content : ∀ i < fs.sizeOf m inode, fs.content m' inode i = patch (fs.content m inode) off n src i
  frame : ∀ x, (∀ k, Touched fs off n k → ¬ fs.InBlock (fs.fileBlock m (fs.inodeAt m inode) k) x) → m' x = m x
  read : ∀ io' off' n', (∃ l, ext2ReadFile fs io' m inode off' n' = some ((n' : ℤ), l)) →
    ext2ReadFile fs io' m' inode off' n' =
      some ((n' : ℤ), bytes (patch (fs.content m inode) off n src) off' n')

/-- What the buffer still holds at the place of the byte `i` of the file, behind the range. -/
def leftover (fs : Ext2Fs) (io : Io) (m : Mem) (inode : ℕ) (src : Mem) (off i : ℕ) : UInt8 :=
  if i / fs.blockSize = off / fs.blockSize then io.garbage (i % fs.blockSize)
  else if off + fs.blockSize ≤ i then src (i - fs.blockSize - off)
  else fs.content m inode (i - fs.blockSize)

/-- The old bytes behind the range survive: the only block was loaded, or the buffer happens to
have them. There are none of them when the range ends with a block, or with the file. -/
def TailKept (fs : Ext2Fs) (io : Io) (m : Mem) (inode : ℕ) (src : Mem) (off n : ℕ) : Prop :=
  n = 0 ∨ (off / fs.blockSize = (off + n - 1) / fs.blockSize ∧ 0 < off % fs.blockSize) ∨
    ∀ i, off + n ≤ i → i < fs.sizeOf m inode → i / fs.blockSize = (off + n - 1) / fs.blockSize →
      fs.content m inode i = leftover fs io m inode src off i

/-! ## What a write leaves -/

theorem off_eq (fs : Ext2Fs) (off : ℕ) : off / fs.blockSize * fs.blockSize + off % fs.blockSize = off :=
  Nat.div_add_mod' off fs.blockSize

theorem touched_iff {k : ℕ} : Touched fs off n k ↔ 0 < n ∧ off / fs.blockSize ≤ k ∧ k * fs.blockSize < off + n := by
  unfold Touched Ext2Fs.InRange
  rw [off_eq]

/-- The touched blocks are blocks of the file. -/
theorem touched_lt {k : ℕ} (hsize : off + n ≤ fs.sizeOf m inode) (hk : Touched fs off n k) :
    k * fs.blockSize < fs.sizeOf m inode := lt_of_lt_of_le (touched_iff.1 hk).2.2 hsize

/-- What a write that gets through leaves on the device. -/
theorem write_leaves (h : fs.Ok) (hf : FileOk fs m inode) (hsize : off + n ≤ fs.sizeOf m inode)
    (hw : ext2WriteFile fs io m inode src off n = some ((n : ℤ), m')) :
    (∀ x, (∀ k, Touched fs off n k → ¬ fs.InBlock (fs.fileBlock m (fs.inodeAt m inode) k) x) → m' x = m x) ∧
      ∀ k p, Touched fs off n k → p < fs.blockSize →
        fs.blockAt m' (fs.fileBlock m (fs.inodeAt m inode) k) p = staged fs off n src
          (roundBuf fs m (fs.fileBlock m (fs.inodeAt m inode) (off / fs.blockSize)) (off % fs.blockSize) io.garbage)
          (k * fs.blockSize + p) := by
  have hneg : ∀ (e : ℕ) (x : Mem), 0 < e → some (-(e : ℤ), x) ≠ some ((n : ℤ), m') := by
    intro e x he hx
    have := congrArg Prod.fst (Option.some.inj hx)
    dsimp only at this
    omega
  unfold ext2WriteFile at hw
  by_cases hi : inode < 2
  · rw [if_pos hi] at hw
    exact absurd hw (hneg _ _ (by decide))
  rw [if_neg hi] at hw
  by_cases ho : fs.opensInode io m inode
  swap
  · rw [(ext2LoadInode_eq h).2 ho] at hw
    exact absurd hw (hneg _ _ (by decide))
  obtain ⟨node, hnode, hsame⟩ := (ext2LoadInode_eq h).1 ho
  rw [hnode] at hw
  dsimp only at hw
  split_ifs at hw with hs hm
  · exact absurd hw (hneg _ _ (by decide))
  · exact absurd hw (hneg _ _ (by decide))
  have hmap : MapOk fs node (fs.fileBlock m (fs.inodeAt m inode)) (fs.sizeOf m inode) :=
    ⟨hf.map.inj, fun j k hj hk h12 => by rw [hsame.singlyIndirect]; exact hf.map.indirect j k hj hk h12⟩
  have hw' : writeLoop fs io node n m io.garbage src (off % fs.blockSize) n (off / fs.blockSize) 0 =
      some (((0 + n : ℕ) : ℤ), m') := by rw [Nat.zero_add]; exact hw
  have hspec := writeLoop_spec h hmap (Nat.mod_lt off h.block_pos) le_rfl
    (fun k hk => touched_lt hsize hk) (fun j _ => hsame.fileBlock) hw'
  rw [off_eq] at hspec
  exact hspec

theorem inode_kept (h : fs.Ok) (hf : FileOk fs m inode) (hsize : off + n ≤ fs.sizeOf m inode)
    (hframe : ∀ x, (∀ k, Touched fs off n k → ¬ fs.InBlock (fs.fileBlock m (fs.inodeAt m inode) k) x) →
      m' x = m x) :
    fs.inodeBlock m' inode = fs.inodeBlock m inode ∧ (fs.inodeAt m' inode).Same (fs.inodeAt m inode) := by
  have hdes : SameBlock fs m' m (fs.desBlock inode) := fun p hp => hframe _ fun k hk =>
    block_disjoint (hf.des k (touched_lt hsize hk)).symm hp
  have htab : SameBlock fs m' m (fs.inodeBlock m inode) := fun p hp => hframe _ fun k hk =>
    block_disjoint (hf.table k (touched_lt hsize hk)).symm hp
  have hb : fs.inodeBlock m' inode = fs.inodeBlock m inode := by
    have hslot := h.slot_des (inodeGroup fs inode)
    unfold Ext2Fs.inodeBlock
    congr 1
    refine load_congr fun x h1 h2 => hdes x ?_
    unfold groupDesSize at *
    omega
  refine ⟨hb, fun x hx => ?_⟩
  have hslot := h.slot_inode (inodeIndex fs inode)
  unfold Ext2Fs.inodeAt
  dsimp only
  rw [hb]
  exact htab _ (by omega)

theorem fileBlock_kept (h : fs.Ok) (hf : FileOk fs m inode) (hsize : off + n ≤ fs.sizeOf m inode)
    (hframe : ∀ x, (∀ k, Touched fs off n k → ¬ fs.InBlock (fs.fileBlock m (fs.inodeAt m inode) k) x) →
      m' x = m x) {k : ℕ} (hk : k * fs.blockSize < fs.sizeOf m inode) :
    fs.fileBlock m' (fs.inodeAt m' inode) k = fs.fileBlock m (fs.inodeAt m inode) k := by
  rw [(inode_kept h hf hsize hframe).2.fileBlock]
  apply fileBlock_congr
  rcases Nat.lt_or_ge k 12 with h12 | h12
  · exact Or.inl h12
  · exact Or.inr fun p hp => hframe _ fun j hj =>
      block_disjoint (hf.map.indirect k j hk (touched_lt hsize hj) h12).symm hp

/-- The content of the file after a write that gets through. -/
theorem content_after (h : fs.Ok) (hf : FileOk fs m inode) (hsize : off + n ≤ fs.sizeOf m inode)
    (hw : ext2WriteFile fs io m inode src off n = some ((n : ℤ), m')) {i : ℕ} (hi : i < fs.sizeOf m inode) :
    (Touched fs off n (i / fs.blockSize) → fs.content m' inode i = staged fs off n src
      (roundBuf fs m (fs.fileBlock m (fs.inodeAt m inode) (off / fs.blockSize)) (off % fs.blockSize) io.garbage)
      i) ∧
    (¬ Touched fs off n (i / fs.blockSize) → fs.content m' inode i = fs.content m inode i) := by
  obtain ⟨hframe, hin⟩ := write_leaves h hf hsize hw
  have hk : i / fs.blockSize * fs.blockSize < fs.sizeOf m inode :=
    lt_of_le_of_lt (Nat.div_mul_le_self _ _) hi
  have hp : i % fs.blockSize < fs.blockSize := Nat.mod_lt i h.block_pos
  have hc : fs.content m' inode i =
      fs.blockAt m' (fs.fileBlock m (fs.inodeAt m inode) (i / fs.blockSize)) (i % fs.blockSize) := by
    unfold Ext2Fs.content Ext2Fs.mapped
    rw [fileBlock_kept h hf hsize hframe hk]
  rw [hc]
  constructor
  · intro ht
    rw [hin _ _ ht hp, off_eq]
  · intro ht
    refine hframe _ fun j hj => block_disjoint (fun he => ?_) hp
    have := hf.map.inj _ j hk (touched_lt hsize hj) he
    exact ht (this ▸ hj)

/-- The buffer of the first round, where it was loaded. -/
theorem roundBuf_loaded {p : ℕ} (hoff : 0 < off % fs.blockSize) (hp : p < fs.blockSize) :
    roundBuf fs m (fs.fileBlock m (fs.inodeAt m inode) (off / fs.blockSize)) (off % fs.blockSize) io.garbage p =
      fs.content m inode (off / fs.blockSize * fs.blockSize + p) := by
  unfold roundBuf overlay Ext2Fs.content
  rw [if_pos hoff, if_pos hp, mapped_block hp]

/-- Before the range, a touched block keeps its bytes. -/
theorem staged_before (h : fs.Ok) {i : ℕ} (ht : Touched fs off n (i / fs.blockSize)) (hi : i < off) :
    staged fs off n src (roundBuf fs m (fs.fileBlock m (fs.inodeAt m inode) (off / fs.blockSize))
      (off % fs.blockSize) io.garbage) i = fs.content m inode i := by
  have hb : i / fs.blockSize = off / fs.blockSize :=
    le_antisymm (Nat.div_le_div_right hi.le) (touched_iff.1 ht).2.1
  have h1 := off_eq fs i
  have h2 := off_eq fs off
  rw [hb] at h1
  unfold staged
  rw [if_neg (by omega), if_neg (by omega), roundBuf_loaded (by omega) (Nat.mod_lt i h.block_pos), h1]

/-- Behind the range, a touched block has its bytes if it was loaded, and the leftovers if not. -/
theorem staged_behind (h : fs.Ok) {i : ℕ} (hi : off + n ≤ i) :
    staged fs off n src (roundBuf fs m (fs.fileBlock m (fs.inodeAt m inode) (off / fs.blockSize))
      (off % fs.blockSize) io.garbage) i =
    if i / fs.blockSize = off / fs.blockSize ∧ 0 < off % fs.blockSize then fs.content m inode i
    else leftover fs io m inode src off i := by
  have h1 := off_eq fs i
  have h2 := off_eq fs off
  have hp : i % fs.blockSize < fs.blockSize := Nat.mod_lt i h.block_pos
  have hmod : off % fs.blockSize < fs.blockSize := Nat.mod_lt off h.block_pos
  unfold staged leftover
  rw [if_neg (show ¬ (off ≤ i ∧ i < off + n) by omega)]
  by_cases hb : i / fs.blockSize = off / fs.blockSize
  · rw [hb] at h1
    rw [if_neg (show ¬ off + fs.blockSize ≤ i by omega), if_pos hb]
    by_cases hoff : 0 < off % fs.blockSize
    · rw [if_pos ⟨hb, hoff⟩, roundBuf_loaded hoff hp, h1]
    · rw [if_neg (show ¬ (_ ∧ 0 < off % fs.blockSize) from fun hc => hoff hc.2)]
      unfold roundBuf
      rw [if_neg hoff]
  · rw [if_neg (show ¬ (i / fs.blockSize = off / fs.blockSize ∧ _) from fun hc => hb hc.1), if_neg hb]
    by_cases hlast : off + fs.blockSize ≤ i
    · rw [if_pos hlast, if_pos hlast]
    -- the block behind the first one: the buffer has bytes of the first
    rw [if_neg hlast, if_neg hlast]
    have hle : off / fs.blockSize + 1 ≤ i / fs.blockSize :=
      lt_of_le_of_ne (Nat.div_le_div_right (by omega)) (Ne.symm hb)
    have hmul := Nat.mul_le_mul_right fs.blockSize hle
    have heq : i / fs.blockSize = off / fs.blockSize + 1 := by
      by_contra hne
      have := Nat.mul_le_mul_right fs.blockSize (show off / fs.blockSize + 2 ≤ i / fs.blockSize by omega)
      rw [Nat.add_mul] at this
      omega
    rw [heq, Nat.add_mul, Nat.one_mul] at h1
    rw [roundBuf_loaded (by omega) hp]
    congr 1
    omega

/-- **The content after a write is the law's, if and only if the tail is kept.** -/
theorem content_law_iff (h : fs.Ok) (hf : FileOk fs m inode) (hsize : off + n ≤ fs.sizeOf m inode)
    (hw : ext2WriteFile fs io m inode src off n = some ((n : ℤ), m')) :
    (∀ i < fs.sizeOf m inode, fs.content m' inode i = patch (fs.content m inode) off n src i) ↔
      TailKept fs io m inode src off n := by
  constructor
  · intro hlaw
    by_cases hn : n = 0
    · exact Or.inl hn
    by_cases hone : off / fs.blockSize = (off + n - 1) / fs.blockSize ∧ 0 < off % fs.blockSize
    · exact Or.inr (Or.inl hone)
    refine Or.inr (Or.inr fun i h1 h2 h3 => ?_)
    have ht : Touched fs off n (i / fs.blockSize) := h3 ▸ inRange_last (by omega)
    have hi := hlaw i h2
    rw [(content_after h hf hsize hw h2).1 ht, staged_behind h h1, h3, if_neg fun hc => hone ⟨hc.1.symm, hc.2⟩] at hi
    unfold patch at hi
    rw [hi, if_neg (by omega)]
  · intro htail i hi
    obtain ⟨htouched, hrest⟩ := content_after h hf hsize hw hi
    by_cases ht : Touched fs off n (i / fs.blockSize)
    · rw [htouched ht]
      have ht' := touched_iff.1 ht
      rcases Nat.lt_or_ge i off with hlt | hge
      · rw [staged_before h ht hlt]
        unfold patch
        rw [if_neg (by omega)]
      rcases Nat.lt_or_ge i (off + n) with hlt | hge'
      · unfold staged patch
        rw [if_pos ⟨hge, hlt⟩, if_pos ⟨hge, hlt⟩]
      · have hlast : i / fs.blockSize = (off + n - 1) / fs.blockSize := by
          refine le_antisymm ?_ (Nat.div_le_div_right (by omega))
          rw [Nat.le_div_iff_mul_le h.block_pos]
          omega
        rw [staged_behind h hge']
        unfold patch
        rw [if_neg (show ¬ (off ≤ i ∧ i < off + n) by omega)]
        split_ifs with hone
        · rfl
        rcases htail with hn | hone' | hkept
        · omega
        · exact absurd ⟨hlast.trans hone'.1.symm, hone'.2⟩ hone
        · exact (hkept i hge' hi hlast).symm
    · rw [hrest ht]
      unfold patch
      rw [if_neg]
      rintro ⟨h1, h2⟩
      refine ht (touched_iff.2 ⟨by omega, Nat.div_le_div_right h1, ?_⟩)
      exact lt_of_le_of_lt (Nat.div_mul_le_self _ _) h2

/-- A read that succeeded before the write succeeds after it. -/
theorem reads_kept (h : fs.Ok) (hf : FileOk fs m inode) (hsize : off + n ≤ fs.sizeOf m inode)
    (hframe : ∀ x, (∀ k, Touched fs off n k → ¬ fs.InBlock (fs.fileBlock m (fs.inodeAt m inode) k) x) →
      m' x = m x) {io' : Io} {off' n' : ℕ} (hr : fs.Reads io' m inode off' n') :
    fs.Reads io' m' inode off' n' := by
  obtain ⟨hblk, hsame⟩ := inode_kept h hf hsize hframe
  refine ⟨hr.inode_gt, ?_, ?_, hr.mem, fun k hk => ?_⟩
  · obtain ⟨h1, h2, h3, h4⟩ := hr.opens
    exact ⟨h1, h2, h3, hblk ▸ h4⟩
  · have hs : fs.sizeOf m' inode = fs.sizeOf m inode := hsame.size
    rw [hs]
    exact hr.size
  · obtain ⟨h1, h2, h3⟩ := hr.blocks k hk
    have hlt : k * fs.blockSize < fs.sizeOf m inode :=
      touched_lt (hr.range_le h hk.1).2 hk
    unfold Ext2Fs.Readable
    rw [fileBlock_kept h hf hsize hframe hlt]
    refine ⟨?_, h2, h3⟩
    unfold Ext2Fs.opensMap at h1 ⊢
    rw [hsame.singlyIndirect]
    exact h1

/-- **The write-then-read law holds if and only if the tail is kept.** -/
theorem write_law_iff (h : fs.Ok) (hf : FileOk fs m inode) (hsize : off + n ≤ fs.sizeOf m inode)
    (hw : ext2WriteFile fs io m inode src off n = some ((n : ℤ), m')) :
    WriteLaw fs m m' inode src off n ↔ TailKept fs io m inode src off n := by
  rw [← content_law_iff h hf hsize hw]
  refine ⟨fun hl => hl.content, fun hc => ?_⟩
  have hframe := (write_leaves h hf hsize hw).1
  refine ⟨(inode_kept h hf hsize hframe).2.size, hc, hframe, ?_⟩
  rintro io' off' n' ⟨l, hl⟩
  have hr : fs.Reads io' m inode off' n' := by
    by_contra hno
    obtain ⟨e, l', he, hcases⟩ := (ext2ReadFile_eq h).2 hno
    have hfst := congrArg Prod.fst (Option.some.inj (he.symm.trans hl))
    have hpos : 0 < e := by rcases hcases with rfl | rfl | rfl <;> decide
    dsimp only at hfst
    omega
  rw [(ext2ReadFile_eq h).1 (reads_kept h hf hsize hframe hr)]
  congr 2
  apply bytes_congr
  intro i hi
  have := (hr.range_le h (by omega)).2
  exact hc _ (by omega)

/-! ## A file of four bytes -/

/-- Blocks of 1024 bytes; the file is the inode 3, and its only block is 10. -/
def smallFs : Ext2Fs := ⟨⟨⟨DISK_TYPE_IDE, 1000, ⟨0, 1000⟩⟩, 0, 100⟩, 8, 64, 2, 1024, 1⟩

def smallImage : Mem := fun x =>
  if x = 2 * 1024 + 8 then 5                -- the inode table
  else if x = 5 * 1024 + 256 + 4 then 4     -- the size of the file
  else if x = 5 * 1024 + 256 + 40 then 10   -- its block
  else 0

/-- New memory is not zero. -/
def dirtyIo : Io := ⟨fun _ _ => none, fun _ => false, fun _ => 255⟩

theorem smallFs_ok : smallFs.Ok where
  drive := ⟨by decide, by decide, by decide, by decide⟩
  dev := ⟨⟨DISK_TYPE_IDE, ⟨0, 1000⟩, rfl⟩, by decide⟩
  pow := ⟨0, rfl⟩
  small := by decide
  inodes_pos := by decide
  inodes_lt := by decide
  table_lt := by decide
  groups_lt := by decide

theorem smallImage_size : smallFs.sizeOf smallImage 3 = 4 := by decide +kernel

theorem smallImage_block : smallFs.fileBlock smallImage (smallFs.inodeAt smallImage 3) 0 = 10 := by decide +kernel

theorem smallImage_ok : FileOk smallFs smallImage 3 := by
  have hk : ∀ k, k * smallFs.blockSize < smallFs.sizeOf smallImage 3 → k = 0 := by
    intro k hk
    rw [smallImage_size, show smallFs.blockSize = 1024 from rfl] at hk
    omega
  refine ⟨fun k h => ?_, ⟨fun j k hj hk' _ => ?_, fun j k hj _ h12 => ?_⟩, fun k h => ?_, fun k h => ?_⟩
  · rw [hk k h, smallImage_block]
    decide
  · rw [hk j hj, hk k hk']
  · rw [hk j hj] at h12
    exact absurd h12 (by decide)
  · rw [hk k h, smallImage_block]
    decide
  · rw [hk k h, smallImage_block]
    decide +kernel

theorem write_law_whole_file : ∃ m', ext2WriteFile smallFs dirtyIo smallImage 3 (fun _ => 7) 0 4 = some (4, m') ∧
    WriteLaw smallFs smallImage m' 3 (fun _ => 7) 0 4 := by
  obtain ⟨m', hw⟩ : ∃ m', ext2WriteFile smallFs dirtyIo smallImage 3 (fun _ => 7) 0 4 = some (4, m') :=
    ⟨_, rfl⟩
  refine ⟨m', hw, (write_law_iff smallFs_ok smallImage_ok (by rw [smallImage_size]) hw).2 ?_⟩
  -- the range ends with the file
  refine Or.inr (Or.inr fun i h1 h2 => ?_)
  rw [smallImage_size] at h2
  omega

/-- One byte is written, and the next byte of the file becomes what new memory held. -/
theorem write_spoils_tail : ∃ m', ext2WriteFile smallFs dirtyIo smallImage 3 (fun _ => 7) 0 1 = some (1, m') ∧
    smallFs.Ok ∧ FileOk smallFs smallImage 3 ∧ 0 + 1 ≤ smallFs.sizeOf smallImage 3 ∧
    ¬ WriteLaw smallFs smallImage m' 3 (fun _ => 7) 0 1 := by
  obtain ⟨m', hw⟩ : ∃ m', ext2WriteFile smallFs dirtyIo smallImage 3 (fun _ => 7) 0 1 = some (1, m') :=
    ⟨_, rfl⟩
  have hsize : 0 + 1 ≤ smallFs.sizeOf smallImage 3 := by rw [smallImage_size]; decide
  refine ⟨m', hw, smallFs_ok, smallImage_ok, hsize, fun hlaw => ?_⟩
  have h1 : 1 < smallFs.sizeOf smallImage 3 := by rw [smallImage_size]; decide
  have hc := hlaw.content 1 h1
  rw [(content_after smallFs_ok smallImage_ok hsize hw h1).1 (touched_iff.2 (by decide))] at hc
  revert hc
  decide +kernel

end Nettapus
