import Nettapus.Proof.Ext2Write

/-!
# Writes that stop

`ext2_write_file` stops at an error of the device, which may have taken some sectors of the block, and where the block map
cannot be read. `writeLoop_partial` follows the loop whatever happens in it, and `ext2WriteFile_partial` puts it together:
a beginning of the range is written, of the length that the call returns if it returns one; nothing else changes, if the
tail is kept; and on a device that lets all blocks of the file through it is the whole range.
-/

namespace Nettapus

open Bytes Ext2Fs

variable {fs : Ext2Fs} {io : Io} {m m' buf src d : Mem} {node : Ext2Inode}
variable {inode off n block fuel b c k : ℕ}

/-! ## A part of a block -/

/-- **A write that may stop** fills the first sectors from the buffer. -/
theorem Drive.Accepted.write_part {dr : Drive} {lba amount : ℕ} (hd : dr.Accepted) (hdev : dr.dev.Ok) (hl : lba < 2 ^ 60)
    (h0 : 0 < amount) (h1 : amount < 0xFFFF) (io : Io) (m buf : Mem) : ∃ j ≤ amount, ∀ x, (driveWriteSectors dr io m buf lba amount).2 x =
      if 512 * (lba + dr.startingSector) ≤ x ∧ x < 512 * (lba + dr.startingSector + j) then
        buf (x - 512 * (lba + dr.startingSector)) else m x := by
  have hnone : ∀ x, m x = if 512 * (lba + dr.startingSector) ≤ x ∧ x < 512 * (lba + dr.startingSector + 0) then
      buf (x - 512 * (lba + dr.startingSector)) else m x := fun x => (if_neg (by omega)).symm
  rcases hd.request_cases hdev hl h0 h1 with ⟨-, hne⟩ | hr
  · refine ⟨0, Nat.zero_le _, ?_⟩
    unfold driveWriteSectors
    split
    · exact absurd ‹_› (hne _)
    · exact hnone
  · unfold driveWriteSectors idePioWrite48
    rw [hr]
    dsimp only
    by_cases href : pioRefuses dr.dev.sp (lba + dr.startingSector) amount
    · rw [if_pos href]
      exact ⟨0, Nat.zero_le _, hnone⟩
    · rw [if_neg href]
      have hle : pioCount io (lba + dr.startingSector) amount ≤ amount := pioCount_le h0
      have h48 := hd.not_refuses hdev hl h1 href
      exact ⟨_, hle, pioOut_apply (by omega)⟩

/-- The device after the first `c` bytes of the block `b` were written. -/
def writtenPart (fs : Ext2Fs) (m : Mem) (b c : ℕ) (buf : Mem) : Mem :=
  fun x => if fs.base + b * fs.blockSize ≤ x ∧ x < fs.base + b * fs.blockSize + c then
    buf (x - (fs.base + b * fs.blockSize)) else m x

theorem writtenPart_full : writtenPart fs m b fs.blockSize buf = written fs m b buf := by
  unfold writtenPart written
  rw [Nat.add_mul, Nat.one_mul, Nat.add_assoc]

theorem writtenPart_of_not_inBlock {x : ℕ} (hc : c ≤ fs.blockSize) (hx : ¬ fs.InBlock b x) :
    writtenPart fs m b c buf x = m x := by
  unfold Ext2Fs.InBlock at hx
  unfold writtenPart
  rw [Nat.add_mul] at hx
  exact if_neg (by omega)

/-- **Writing a block, whatever the device does.** -/
theorem ext2WriteBlocks_part (h : fs.Ok) (hb : b < 2 ^ 38) (io : Io) (m buf : Mem) : ∃ c ≤ fs.blockSize,
    (ext2WriteBlocks fs io m buf b 1).2 = writtenPart fs m b c buf := by
  obtain ⟨-, h2, h3, h4, h5, h6⟩ := h.block_arith hb
  obtain ⟨j, hj, hw⟩ := h.drive.write_part h.dev h2 h4 h5 io m buf
  refine ⟨512 * j, by omega, ?_⟩
  funext x
  unfold ext2WriteBlocks writtenPart Ext2Fs.base
  dsimp only
  rw [hw x]
  have e1 : 512 * (u64 (b * fs.blockSize) / 512 + fs.dev.startingSector) =
      512 * fs.dev.startingSector + b * fs.blockSize := by omega
  have e2 : 512 * (u64 (b * fs.blockSize) / 512 + fs.dev.startingSector + j) =
      512 * fs.dev.startingSector + b * fs.blockSize + 512 * j := by omega
  rw [e1, e2]

/-! ## A round -/

/-- The bytes of a file with the block map `blk`. -/
def Ext2Fs.filed (fs : Ext2Fs) (m : Mem) (blk : ℕ → ℕ) : Mem :=
  fun q => fs.blockAt m (blk (q / fs.blockSize)) (q % fs.blockSize)

theorem filed_block {blk : ℕ → ℕ} {p : ℕ} (hp : p < fs.blockSize) :
    fs.filed m blk (block * fs.blockSize + p) = fs.blockAt m (blk block) p := by
  unfold Ext2Fs.filed
  rw [block_mod hp, Nat.mul_comm, Nat.mul_add_div (by omega), Nat.div_eq_of_lt hp, Nat.add_zero]

theorem blockAt_writtenPart_self {p : ℕ} :
    fs.blockAt (writtenPart fs m b c buf) b p = if p < c then buf p else fs.blockAt m b p := by
  unfold blockAt writtenPart
  by_cases hpc : p < c
  · rw [if_pos hpc, if_pos (by omega), Nat.add_sub_cancel_left]
  · rw [if_neg hpc, if_neg (by omega)]

theorem blockAt_writtenPart_of_ne {b' p : ℕ} (hb : b' ≠ b) (hc : c ≤ fs.blockSize) (hp : p < fs.blockSize) :
    fs.blockAt (writtenPart fs m b c buf) b' p = fs.blockAt m b' p :=
  writtenPart_of_not_inBlock hc (block_disjoint hb hp)

/-- **What a round leaves in the file**: a beginning of what it copies, if the buffer has the old bytes around it. -/
theorem filed_writtenPart {blk : ℕ → ℕ} {size q : ℕ} (h : fs.Ok) (hmap : MapOk fs node blk size)
    (hblock : block * fs.blockSize < size) (hc : c ≤ fs.blockSize) (hk : off + k ≤ fs.blockSize)
    (hold : ∀ p < fs.blockSize, block * fs.blockSize + p < size → p < off ∨ off + k ≤ p →
      d p = fs.blockAt m (blk block) p) (hq : q < size) :
    fs.filed (writtenPart fs m (blk block) c (patch d off k src)) blk q =
      patch (fs.filed m blk) (block * fs.blockSize + off) (min k (c - off)) src q := by
  obtain ⟨j, p, hp, rfl⟩ : ∃ j p, p < fs.blockSize ∧ q = j * fs.blockSize + p :=
    ⟨_, _, Nat.mod_lt q h.block_pos, (Nat.div_add_mod' q fs.blockSize).symm⟩
  unfold patch
  rw [filed_block hp, filed_block hp]
  by_cases hb : j = block
  · subst hb
    rw [blockAt_writtenPart_self]
    by_cases hpc : p < c
    · rw [if_pos hpc]
      by_cases hin : off ≤ p ∧ p < off + k
      · rw [if_pos hin, if_pos (by omega)]
        congr 1
        omega
      · rw [if_neg hin, if_neg (by omega), hold p hp hq (by omega)]
    · rw [if_neg hpc, if_neg (by omega)]
  · have hne : blk j ≠ blk block := fun he => hb (hmap.inj _ _ (by omega) hblock he)
    rw [blockAt_writtenPart_of_ne hne hc hp, if_neg]
    rintro ⟨h1, h2⟩
    rcases Nat.lt_or_gt_of_ne hb with hlt | hlt
    · have := Nat.mul_le_mul_right fs.blockSize (show j + 1 ≤ block from hlt)
      rw [Nat.add_mul] at this
      omega
    · have := Nat.mul_le_mul_right fs.blockSize (show block + 1 ≤ j from hlt)
      rw [Nat.add_mul] at this
      omega

/-- What a round of a write does: nothing, a part of the block and an error, or the block and the next round. -/
theorem writeLoop_cases (h : fs.Ok) (hn : 0 < n) (io : Io) (node : Ext2Inode) (m buf src : Mem) (fuel off block w : ℕ) :
    (∃ r : ℤ, writeLoop fs io node (fuel + 1) m buf src off n block w = some (r, m) ∧ (0 ≤ r → r = w) ∧
      ¬ fs.Readable io m node block) ∨
    (∃ c ≤ fs.blockSize, writeLoop fs io node (fuel + 1) m buf src off n block w =
      some (-(ERR_DISK : ℤ), writtenPart fs m (fs.fileBlock m node block) c
        (patch (roundBuf fs m (fs.fileBlock m node block) off buf) off (toCopy fs off n) src)) ∧
      ¬ fs.Readable io m node block) ∨
    writeLoop fs io node (fuel + 1) m buf src off n block w = writeLoop fs io node fuel
      (written fs m (fs.fileBlock m node block)
        (patch (roundBuf fs m (fs.fileBlock m node block) off buf) off (toCopy fs off n) src))
      (patch (roundBuf fs m (fs.fileBlock m node block) off buf) off (toCopy fs off n) src)
      (fun x => src (toCopy fs off n + x)) 0 (n - toCopy fs off n) (block + 1) (w + toCopy fs off n) := by
  rw [writeLoop, if_neg (by omega)]
  dsimp only
  unfold Ext2Fs.Readable
  by_cases hmap : fs.opensMap io node block = true
  swap
  · rw [ext2BlockInInode_eq h, if_neg hmap, if_pos rfl]
    exact .inl ⟨w, rfl, fun _ => rfl, fun hr => hmap hr.1⟩
  rw [ext2BlockInInode_eq h, if_pos hmap]
  by_cases h0 : fs.fileBlock m node block = 0
  · rw [if_pos h0]
    exact .inl ⟨w, rfl, fun _ => rfl, fun hr => hr.2.1 h0⟩
  rw [if_neg h0]
  have hlt : fs.fileBlock m node block < 2 ^ 38 := fileBlock_lt.trans (by decide)
  generalize fs.fileBlock m node block = b at h0 hlt
  have hload : (if off > 0 then ext2LoadBlocks fs io m buf b 1 else some buf) = some (roundBuf fs m b off buf) ∨
      ((if off > 0 then ext2LoadBlocks fs io m buf b 1 else some buf) = none ∧ fs.loads io b ≠ true) := by
    unfold roundBuf
    by_cases hoff : off > 0
    · rw [if_pos hoff, if_pos hoff, ext2LoadBlocks_eq h hlt]
      split_ifs with hl
      · exact .inl rfl
      · exact .inr ⟨rfl, hl⟩
    · rw [if_neg hoff, if_neg hoff]
      exact .inl rfl
  rcases hload with hl | ⟨hl, hnot⟩
  swap
  · rw [hl]
    exact .inl ⟨_, rfl, fun hr => absurd hr (by decide), fun hr => hnot hr.2.2⟩
  rw [hl]
  dsimp only
  generalize patch (roundBuf fs m b off buf) off (toCopy fs off n) src = d
  by_cases hs : fs.stores io b = true
  · rw [(ext2WriteBlocks_eq h hlt d).1 hs, if_neg (not_not_intro rfl)]
    exact .inr (.inr rfl)
  · obtain ⟨c, hc, hw⟩ := ext2WriteBlocks_part h hlt io m d
    rw [if_pos ((ext2WriteBlocks_eq h hlt d).2 hs), hw]
    rw [stores_eq_loads] at hs
    exact .inr (.inl ⟨c, hc, rfl, fun hr => hs hr.2.2⟩)

/-! ## The loop -/

/-- The buffer `d` of the first round makes the bytes behind the range, in its last block, what they are. -/
def TailHeld (fs : Ext2Fs) (m : Mem) (blk : ℕ → ℕ) (size off n : ℕ) (src d : Mem) : Prop :=
  ∀ q, off + n ≤ q → q < size → q / fs.blockSize = (off + n - 1) / fs.blockSize → staged fs off n src d q = fs.filed m blk q

/-- The loop ends with the result `r` and the device `m'`, and `j` of the `n` bytes are written. -/
structure Stopped (fs : Ext2Fs) (io : Io) (node : Ext2Inode) (blk : ℕ → ℕ) (size : ℕ) (m m' buf src : Mem)
    (block off n w : ℕ) (r : ℤ) (j : ℕ) : Prop where
  le : j ≤ n
  status : 0 ≤ r → r = ((w + j : ℕ) : ℤ)
  full : (∀ k, fs.InRange block off n k → fs.Readable io m node k) → r = ((w + n : ℕ) : ℤ)
  frame : ∀ x, (∀ k, fs.InRange block off n k → ¬ fs.InBlock (blk k) x) → m' x = m x
  data : (0 < n → TailHeld fs m blk size (block * fs.blockSize + off) n src (roundBuf fs m (blk block) off buf)) →
    ∀ q < size, fs.filed m' blk q = patch (fs.filed m blk) (block * fs.blockSize + off) j src q

theorem patch_zero (buf : Mem) (off : ℕ) (src : Mem) : patch buf off 0 src = buf := by
  funext x
  unfold patch
  exact if_neg (by omega)

theorem patch_congr {x : ℕ} (hx : buf x = d x) : patch buf off n src x = patch d off n src x := by
  unfold patch
  rw [hx]

/-- One write behind another. -/
theorem patch_patch (buf src : Mem) (a k j : ℕ) :
    patch (patch buf a k src) (a + k) j (fun x => src (k + x)) = patch buf a (k + j) src := by
  funext x
  unfold patch
  by_cases h1 : a + k ≤ x ∧ x < a + k + j
  · rw [if_pos h1, if_pos (by omega)]
    dsimp only
    congr 1
    omega
  · rw [if_neg h1]
    by_cases h2 : a ≤ x ∧ x < a + k
    · rw [if_pos h2, if_pos (by omega)]
    · rw [if_neg h2, if_neg (by omega)]

/-- The buffer of a round has the old bytes around what is copied. -/
theorem roundBuf_old {blk : ℕ → ℕ} {size : ℕ} (hoff : off < fs.blockSize) (hn : 0 < n)
    (htail : TailHeld fs m blk size (block * fs.blockSize + off) n src (roundBuf fs m (blk block) off buf)) {p : ℕ}
    (hp : p < fs.blockSize) (hq : block * fs.blockSize + p < size) (hout : p < off ∨ off + toCopy fs off n ≤ p) :
    roundBuf fs m (blk block) off buf p = fs.blockAt m (blk block) p := by
  obtain ⟨h1, h2, h3, h4⟩ := toCopy_spec hoff hn
  rcases hout with hlt | hge
  · unfold roundBuf overlay
    rw [if_pos (by omega), if_pos hp]
  · -- the range ends in this block
    have hk : toCopy fs off n = n := h4.resolve_right (by omega)
    rw [hk] at hge
    have hlast : (block * fs.blockSize + p) / fs.blockSize = (block * fs.blockSize + off + n - 1) / fs.blockSize := by
      rw [show block * fs.blockSize + off + n - 1 = block * fs.blockSize + (off + n - 1) by omega, Nat.mul_comm block,
        Nat.mul_add_div (by omega), Nat.mul_add_div (by omega), Nat.div_eq_of_lt hp, Nat.div_eq_of_lt (by omega)]
    have hheld := htail (block * fs.blockSize + p) (by omega) hq hlast
    rw [staged_first hoff hn hp, filed_block hp] at hheld
    unfold patch at hheld
    rwa [if_neg (by omega)] at hheld

/-- Nothing is written. -/
theorem Stopped.nothing {blk : ℕ → ℕ} {size w : ℕ} {r : ℤ} (hr : 0 ≤ r → r = w)
    (hfull : (∀ k, fs.InRange block off n k → fs.Readable io m node k) → r = ((w + n : ℕ) : ℤ)) :
    Stopped fs io node blk size m m buf src block off n w r 0 where
  le := Nat.zero_le n
  status := hr
  full := hfull
  frame _ _ := rfl
  data _ q _ := by rw [patch_zero]

/-- A round, and what the loop does behind it. -/
theorem Stopped.behind {blk : ℕ → ℕ} {size w j : ℕ} {r : ℤ} (h : fs.Ok) (hmap : MapOk fs node blk size)
    (hoff : off < fs.blockSize) (hn : 0 < n) (hend : block * fs.blockSize + off + n ≤ size)
    (hblk : ∀ j, j * fs.blockSize < size → fs.fileBlock m node j = blk j)
    (hs : Stopped fs io node blk size
      (written fs m (blk block) (patch (roundBuf fs m (blk block) off buf) off (toCopy fs off n) src)) m'
      (patch (roundBuf fs m (blk block) off buf) off (toCopy fs off n) src) (fun x => src (toCopy fs off n + x))
      (block + 1) 0 (n - toCopy fs off n) (w + toCopy fs off n) r j) :
    Stopped fs io node blk size m m' buf src block off n w r (toCopy fs off n + j) := by
  obtain ⟨h1, h2, h3, h4⟩ := toCopy_spec hoff hn
  have hfirst := (inRange_step hoff hn block).2 (Or.inl rfl)
  have hsz : block * fs.blockSize < size := by omega
  have hold : TailHeld fs m blk size (block * fs.blockSize + off) n src (roundBuf fs m (blk block) off buf) →
      ∀ p < fs.blockSize, block * fs.blockSize + p < size → p < off ∨ off + toCopy fs off n ≤ p →
        roundBuf fs m (blk block) off buf p = fs.blockAt m (blk block) p :=
    fun ht p hp hpq hout => roundBuf_old hoff hn ht hp hpq hout
  generalize hk : toCopy fs off n = k at *
  generalize hd : roundBuf fs m (blk block) off buf = d at *
  have hblk' := hmap.written (m := m) hsz hblk (patch d off k src)
  have hmul : (block + 1) * fs.blockSize = block * fs.blockSize + fs.blockSize := by rw [Nat.add_mul, Nat.one_mul]
  rw [← writtenPart_full] at hs hblk'
  have hrest : ∀ i, fs.InRange (block + 1) 0 (n - k) i → fs.InRange block off n i :=
    fun i hi => (inRange_step hoff hn i).2 (.inr (hk ▸ hi))
  refine ⟨?_, fun hr => ?_, fun hall => ?_, fun x hx => ?_, fun htail q hq => ?_⟩
  · have := hs.le
    omega
  · have := hs.status hr
    omega
  · have hread : ∀ i, fs.InRange (block + 1) 0 (n - k) i →
        fs.Readable io (writtenPart fs m (blk block) fs.blockSize (patch d off k src)) node i := by
      intro i hi
      have hin := hrest i hi
      have hi' : i * fs.blockSize < size := by
        have := hin.2.2
        omega
      have hr := hall i hin
      unfold Ext2Fs.Readable at hr ⊢
      rwa [hblk' i hi', ← hblk i hi']
    have := hs.full hread
    omega
  · rw [hs.frame x fun i hi => hx i (hrest i hi), writtenPart_of_not_inBlock le_rfl (hx block hfirst)]
  · have ht := htail hn
    rw [hd] at ht
    have hround : ∀ q < size, fs.filed (writtenPart fs m (blk block) fs.blockSize (patch d off k src)) blk q =
        patch (fs.filed m blk) (block * fs.blockSize + off) k src q := by
      intro q hq
      rw [filed_writtenPart h hmap hsz le_rfl h3 (hold ht) hq, Nat.min_eq_left (by omega)]
    rcases Nat.eq_zero_or_pos (n - k) with hlast | hmore
    · obtain rfl : j = 0 := by have := hs.le; omega
      rw [hs.data (fun hpos => absurd hlast hpos.ne') q hq, patch_zero, Nat.add_zero]
      exact hround q hq
    · have hfull : off + k = fs.blockSize := h4.resolve_left (by omega)
      have hat : (block + 1) * fs.blockSize + 0 = block * fs.blockSize + off + k := by omega
      rw [hs.data (fun _ p hp hpq hpe => ?_) q hq, hat, ← patch_patch]
      · exact patch_congr (hround q hq)
      · -- the bytes behind the range are the same ones
        have hst : staged fs ((block + 1) * fs.blockSize) (n - toCopy fs off n) (fun x => src (toCopy fs off n + x))
            (patch d off (toCopy fs off n) src) p = staged fs (block * fs.blockSize + off) n src d p :=
          staged_rest hoff (hk ▸ hmore) (by omega)
        have hkept : patch (fs.filed m blk) (block * fs.blockSize + off) k src p = fs.filed m blk p :=
          if_neg (by omega)
        rw [hround p hpq, hkept, ← ht p (by omega) hpq (by rw [hpe]; congr 1; omega), ← hst, hk, Nat.add_zero]
        rfl

/-- **The loop of `ext2_write_file`, whatever happens.** -/
theorem writeLoop_partial (h : fs.Ok) {blk : ℕ → ℕ} {size : ℕ} (hmap : MapOk fs node blk size) :
    ∀ {fuel : ℕ} {m buf src : Mem} {off n block w : ℕ}, off < fs.blockSize → n ≤ fuel →
    (0 < n → block * fs.blockSize + off + n ≤ size) → (∀ j, j * fs.blockSize < size → fs.fileBlock m node j = blk j) →
    ∃ (r : ℤ) (m' : Mem) (j : ℕ), writeLoop fs io node fuel m buf src off n block w = some (r, m') ∧
      Stopped fs io node blk size m m' buf src block off n w r j := by
  intro fuel
  induction fuel with
  | zero =>
    intro m buf src off n block w hoff hf hsize hblk
    obtain rfl : n = 0 := by omega
    exact ⟨w, m, 0, by rw [writeLoop, if_pos rfl], .nothing (fun _ => rfl) fun _ => rfl⟩
  | succ fuel ih =>
    intro m buf src off n block w hoff hf hsize hblk
    rcases Nat.eq_zero_or_pos n with rfl | hn
    · exact ⟨w, m, 0, by rw [writeLoop, if_pos rfl], .nothing (fun _ => rfl) fun _ => rfl⟩
    obtain ⟨h1, h2, h3, h4⟩ := toCopy_spec hoff hn
    have hfirst := (inRange_step hoff hn block).2 (Or.inl rfl)
    have hend := hsize hn
    have hsz : block * fs.blockSize < size := by omega
    have hround := writeLoop_cases h hn io node m buf src fuel off block w
    rw [hblk block hsz] at hround
    rcases hround with ⟨r, hw, hr, hnot⟩ | ⟨c, hc, hw, hnot⟩ | hw
    · exact ⟨r, m, 0, hw, .nothing hr fun hall => absurd (hall block hfirst) hnot⟩
    · refine ⟨_, _, min (toCopy fs off n) (c - off), hw, by omega, fun hr => absurd hr (by decide),
        fun hall => absurd (hall block hfirst) hnot, fun x hx => writtenPart_of_not_inBlock hc (hx block hfirst),
        fun htail q hq => ?_⟩
      apply filed_writtenPart h hmap hsz hc h3 _ hq
      intro p hp hpq hout
      exact roundBuf_old hoff hn (htail hn) hp hpq hout
    · rw [hw]
      have hmul : (block + 1) * fs.blockSize = block * fs.blockSize + fs.blockSize := by rw [Nat.add_mul, Nat.one_mul]
      obtain ⟨r, m', j, hw', hs⟩ := @ih _ (patch (roundBuf fs m (blk block) off buf) off (toCopy fs off n) src)
        (fun x => src (toCopy fs off n + x)) 0 (n - toCopy fs off n) (block + 1) (w + toCopy fs off n) h.block_pos
        (by omega) (fun _ => by omega) (hmap.written hsz hblk _)
      exact ⟨r, m', _, hw', hs.behind h hmap hoff hn hend hblk⟩

/-! ## `ext2_write_file` -/

/-- The device lets all blocks of the file through, and there is memory. -/
structure Ext2Fs.Sound (fs : Ext2Fs) (io : Io) (m : Mem) (inode : ℕ) : Prop where
  inode_gt : 2 < inode
  opens : fs.opensInode io m inode
  mem : io.noMem fs.blockSize = false
  blocks : ∀ k, k * fs.blockSize < fs.sizeOf m inode → fs.Readable io m (fs.inodeAt m inode) k

/-- A write of `n` bytes ends with the result `r` and the device `m'`, and `j` of them are written. -/
structure WriteEnd (fs : Ext2Fs) (io : Io) (m m' : Mem) (inode : ℕ) (src : Mem) (off n : ℕ) (r : ℤ) (j : ℕ) : Prop where
  le : j ≤ n
  status : 0 ≤ r → r = (j : ℤ)
  full : fs.Sound io m inode → off + n ≤ fs.sizeOf m inode → r = (n : ℤ)
  refused : fs.sizeOf m inode < off + n → r < 0 ∧ m' = m
  frame : ∀ x, (∀ k, k * fs.blockSize < fs.sizeOf m inode →
    ¬ fs.InBlock (fs.fileBlock m (fs.inodeAt m inode) k) x) → m' x = m x
  data : TailKept fs io m inode src off n →
    ∀ i < fs.sizeOf m inode, fs.content m' inode i = patch (fs.content m inode) off j src i

/-- Nothing is written. -/
theorem WriteEnd.none {r : ℤ} (hr : r < 0) (hnot : fs.Sound io m inode → ¬ off + n ≤ fs.sizeOf m inode) :
    WriteEnd fs io m m inode src off n r 0 where
  le := Nat.zero_le n
  status h0 := absurd h0 (by omega)
  full hs hle := absurd hle (hnot hs)
  refused _ := ⟨hr, rfl⟩
  frame _ _ := rfl
  data _ i _ := by rw [patch_zero]

theorem TailKept.held (h : fs.Ok) (hn : 0 < n) (ht : TailKept fs io m inode src off n) :
    TailHeld fs m (fs.fileBlock m (fs.inodeAt m inode)) (fs.sizeOf m inode) off n src
      (roundBuf fs m (fs.fileBlock m (fs.inodeAt m inode) (off / fs.blockSize)) (off % fs.blockSize) io.garbage) := by
  intro q hge hq hlast
  rw [staged_behind h hge]
  split_ifs with hone
  · rfl
  · rcases ht with hn0 | hone' | hkept
    · omega
    · exact absurd ⟨hlast.trans hone'.1.symm, hone'.2⟩ hone
    · exact (hkept q hge hq hlast).symm

/-- **A write, whatever happens.** -/
theorem ext2WriteFile_partial (h : fs.Ok) (hf : FileOk fs m inode) (hlt : off + n < 2 ^ 64) (io : Io) (src : Mem) :
    ∃ (r : ℤ) (m' : Mem) (j : ℕ), ext2WriteFile fs io m inode src off n = some (r, m') ∧
      WriteEnd fs io m m' inode src off n r j := by
  unfold ext2WriteFile
  by_cases hi : inode < 2
  · rw [if_pos hi]
    exact ⟨_, m, 0, rfl, .none (by decide) fun hs => absurd hs.inode_gt (by omega)⟩
  rw [if_neg hi]
  by_cases ho : fs.opensInode io m inode
  swap
  · rw [(ext2LoadInode_eq h).2 ho]
    exact ⟨_, m, 0, rfl, .none (by decide) fun hs => absurd hs.opens ho⟩
  obtain ⟨node, hnode, hsame⟩ := (ext2LoadInode_eq h).1 ho
  rw [hnode]
  dsimp only
  rw [u64_of_lt hlt, show node.size = fs.sizeOf m inode from hsame.size]
  by_cases hsize : off + n > fs.sizeOf m inode
  · rw [if_pos hsize]
    exact ⟨_, m, 0, rfl, .none (by decide) fun _ => by omega⟩
  rw [if_neg hsize]
  by_cases hm : io.noMem fs.blockSize = true
  · rw [if_pos hm]
    exact ⟨_, m, 0, rfl, .none (by decide) fun hs => absurd (hs.mem.symm.trans hm) (by decide)⟩
  rw [if_neg hm]
  have hle : off + n ≤ fs.sizeOf m inode := by omega
  have hmap : MapOk fs node (fs.fileBlock m (fs.inodeAt m inode)) (fs.sizeOf m inode) :=
    ⟨hf.map.inj, fun j k hj hk h12 => by rw [hsame.singlyIndirect]; exact hf.map.indirect j k hj hk h12⟩
  have hloop : ∃ (r : ℤ) (m' : Mem) (j : ℕ),
      writeLoop fs io node n m io.garbage src (off % fs.blockSize) n (off / fs.blockSize) 0 = some (r, m') ∧
        Stopped fs io node (fs.fileBlock m (fs.inodeAt m inode)) (fs.sizeOf m inode) m m' io.garbage src
          (off / fs.blockSize) (off % fs.blockSize) n 0 r j :=
    writeLoop_partial h hmap (Nat.mod_lt off h.block_pos) le_rfl (fun _ => by rw [off_eq]; exact hle)
      fun j _ => hsame.fileBlock
  obtain ⟨r, m', j, hw, hs⟩ := hloop
  refine ⟨r, m', j, hw, hs.le, fun hr => ?_, fun hsound _ => ?_, fun hgt => absurd hgt (by omega), fun x hx => ?_,
    fun htail i hi => ?_⟩
  · rw [hs.status hr, Nat.zero_add]
  · rw [hs.full fun k hk => (readable_same hsame k).2 (hsound.blocks k (touched_lt hle hk)), Nat.zero_add]
  · exact hs.frame x fun k hk => hx k (touched_lt hle hk)
  · have hdata := hs.data (fun hn => by rw [off_eq]; exact htail.held h hn) i hi
    rw [off_eq] at hdata
    have hk : i / fs.blockSize * fs.blockSize < fs.sizeOf m inode := lt_of_le_of_lt (Nat.div_mul_le_self _ _) hi
    have hblock := fileBlock_kept h hf hle hs.frame hk
    calc fs.content m' inode i = fs.filed m' (fs.fileBlock m (fs.inodeAt m inode)) i := by
          unfold Ext2Fs.content Ext2Fs.mapped Ext2Fs.filed
          rw [hblock]
      _ = patch (fs.content m inode) off j src i := hdata

end Nettapus
