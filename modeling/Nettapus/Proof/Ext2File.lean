import Nettapus.Proof.Ext2

/-!
# Reading and writing an ext2 file

`Ext2Fs.content` is the content of a file, as the disk has it. A successful
`ext2_read_file` returns a range of it (`ext2ReadFile_eq`).

`ext2_write_file` loads the old block only when the write starts behind the first byte of the
block. `writeLoop_spec` says what the loop leaves in the blocks it wrote: the new bytes
in the range, and outside it what the buffer held.
-/

namespace Nettapus

open Bytes Ext2Fs

variable {fs : Ext2Fs} {io : Io} {m m' buf src : Mem} {node : Ext2Inode}
variable {inode off n block fuel : ℕ} {out : List UInt8}

namespace Ext2Fs

/-- The bytes that the block map of an inode leads to. -/
def mapped (fs : Ext2Fs) (m : Mem) (node : Ext2Inode) : Mem :=
  fun i => fs.blockAt m (fs.fileBlock m node (i / fs.blockSize)) (i % fs.blockSize)

/-- The content of a file. -/
def content (fs : Ext2Fs) (m : Mem) (inode : ℕ) : Mem := fs.mapped m (fs.inodeAt m inode)

def sizeOf (fs : Ext2Fs) (m : Mem) (inode : ℕ) : ℕ := (fs.inodeAt m inode).size

/-- The block `k` of an inode is there, and can be read. -/
def Readable (fs : Ext2Fs) (io : Io) (m : Mem) (node : Ext2Inode) (k : ℕ) : Prop :=
  fs.opensMap io node k = true ∧ fs.fileBlock m node k ≠ 0 ∧ fs.loads io (fs.fileBlock m node k) = true

/-- The blocks of the range of `n` bytes at the byte `off` of the block `block`. -/
def InRange (fs : Ext2Fs) (block off n k : ℕ) : Prop :=
  0 < n ∧ block ≤ k ∧ k * fs.blockSize < block * fs.blockSize + off + n

/-- The byte `x` of the device is in the block `b`. -/
def InBlock (fs : Ext2Fs) (b x : ℕ) : Prop :=
  fs.base + b * fs.blockSize ≤ x ∧ x < fs.base + (b + 1) * fs.blockSize

end Ext2Fs

theorem Ext2Fs.Ok.block_pos (h : fs.Ok) : 0 < fs.blockSize := by
  have := (h.block_arith (show 0 < 2 ^ 38 by decide)).1
  omega

/-! ## A round of the loops -/

/-- What a round copies: up to the end of the block, or the rest. -/
theorem toCopy_spec (hoff : off < fs.blockSize) (hn : 0 < n) :
    0 < toCopy fs off n ∧ toCopy fs off n ≤ n ∧ off + toCopy fs off n ≤ fs.blockSize ∧
      (toCopy fs off n = n ∨ off + toCopy fs off n = fs.blockSize) := by
  unfold toCopy
  split_ifs
  · omega
  · omega

/-- The rest of a range after the first round. -/
theorem inRange_step (hoff : off < fs.blockSize) (hn : 0 < n) (k : ℕ) :
    fs.InRange block off n k ↔ k = block ∨ fs.InRange (block + 1) 0 (n - toCopy fs off n) k := by
  obtain ⟨h1, h2, h3, h4⟩ := toCopy_spec hoff hn
  unfold Ext2Fs.InRange
  rw [Nat.add_mul, Nat.one_mul]
  constructor
  · rintro ⟨-, hk, hlt⟩
    by_cases he : k = block
    · exact Or.inl he
    · have hle := Nat.mul_le_mul_right fs.blockSize (show block + 1 ≤ k by omega)
      rw [Nat.add_mul, Nat.one_mul] at hle
      exact Or.inr ⟨by omega, by omega, by omega⟩
  · rintro (rfl | ⟨hr, hk, hlt⟩)
    · exact ⟨hn, le_rfl, by omega⟩
    · have hle := Nat.mul_le_mul_right fs.blockSize hk
      rw [Nat.add_mul, Nat.one_mul] at hle
      exact ⟨hn, by omega, by omega⟩

theorem not_inRange_zero {k : ℕ} : ¬ fs.InRange block off 0 k := fun h => absurd h.1 (by decide)

theorem mapped_block {p : ℕ} (hp : p < fs.blockSize) :
    fs.mapped m node (block * fs.blockSize + p) = fs.blockAt m (fs.fileBlock m node block) p := by
  unfold Ext2Fs.mapped
  rw [Nat.mul_comm, Nat.mul_add_div (by omega), Nat.div_eq_of_lt hp, Nat.add_zero, Nat.mul_add_mod,
    Nat.mod_eq_of_lt hp]

/-! ## `ext2_read_file` -/

theorem readLoop_step (h : fs.Ok) (hoff : off < fs.blockSize) (hn : 0 < n) :
    (fs.Readable io m node block → readLoop fs io m node (fuel + 1) buf off n block out =
      readLoop fs io m node fuel (overlay fs m (fs.fileBlock m node block) buf) 0 (n - toCopy fs off n)
        (block + 1) (out ++ bytes (fs.mapped m node) (block * fs.blockSize + off) (toCopy fs off n))) ∧
    (¬ fs.Readable io m node block →
      readLoop fs io m node (fuel + 1) buf off n block out = some (-(ERR_DISK : ℤ), out)) := by
  obtain ⟨-, -, h3, -⟩ := toCopy_spec hoff hn
  rw [readLoop, if_neg (by omega)]
  dsimp only
  rw [ext2BlockInInode_eq h]
  unfold Ext2Fs.Readable
  by_cases hmap : fs.opensMap io node block = true
  · rw [if_pos hmap]
    by_cases h0 : fs.fileBlock m node block = 0
    · rw [if_pos h0]
      exact ⟨fun hc => absurd h0 hc.2.1, fun _ => rfl⟩
    rw [if_neg h0, ext2LoadBlocks_eq h (fileBlock_lt.trans (by decide))]
    by_cases hl : fs.loads io (fs.fileBlock m node block) = true
    · rw [if_pos hl]
      refine ⟨fun _ => ?_, fun hc => absurd ⟨hmap, h0, hl⟩ hc⟩
      dsimp only
      congr 2
      apply bytes_congr
      intro i hi
      rw [Nat.add_assoc, mapped_block (by omega)]
      unfold overlay
      rw [if_pos (by omega)]
    · rw [if_neg hl]
      exact ⟨fun hc => absurd hc.2.2 hl, fun _ => rfl⟩
  · rw [if_neg hmap, if_pos rfl]
    exact ⟨fun hc => absurd hc.1 hmap, fun _ => rfl⟩

/-- **The loop of `ext2_read_file`**: the range of the file, or an error. -/
theorem readLoop_spec (node : Ext2Inode) (h : fs.Ok) : ∀ {fuel : ℕ} {buf : Mem} {off n : ℕ} (block : ℕ) (out : List UInt8),
    off < fs.blockSize → n ≤ fuel →
    ((∀ k, fs.InRange block off n k → fs.Readable io m node k) →
      readLoop fs io m node fuel buf off n block out =
        some (((out.length + n : ℕ) : ℤ), out ++ bytes (fs.mapped m node) (block * fs.blockSize + off) n)) ∧
    (¬ (∀ k, fs.InRange block off n k → fs.Readable io m node k) →
      ∃ l, readLoop fs io m node fuel buf off n block out = some (-(ERR_DISK : ℤ), l)) := by
  intro fuel
  induction fuel with
  | zero =>
    intro buf off n block out hoff hf
    obtain rfl : n = 0 := by omega
    refine ⟨fun _ => ?_, fun hc => absurd (fun k hk => absurd hk not_inRange_zero) hc⟩
    simp [readLoop, bytes]
  | succ fuel ih =>
    intro buf off n block out hoff hf
    rcases Nat.eq_zero_or_pos n with rfl | hn
    · refine ⟨fun _ => ?_, fun hc => absurd (fun k hk => absurd hk not_inRange_zero) hc⟩
      simp [readLoop, bytes]
    obtain ⟨h1, h2, h3, h4⟩ := toCopy_spec hoff hn
    obtain ⟨hs, hf'⟩ := readLoop_step (m := m) h hoff hn
    have hr : (∀ k, fs.InRange block off n k → fs.Readable io m node k) ↔ fs.Readable io m node block ∧
        ∀ k, fs.InRange (block + 1) 0 (n - toCopy fs off n) k → fs.Readable io m node k := by
      constructor
      · intro hall
        exact ⟨hall _ ((inRange_step hoff hn _).2 (Or.inl rfl)),
          fun k hk => hall k ((inRange_step hoff hn k).2 (Or.inr hk))⟩
      · rintro ⟨hb, hall⟩ k hk
        rcases (inRange_step hoff hn k).1 hk with rfl | hk
        · exact hb
        · exact hall k hk
    rw [hr]
    by_cases hb : fs.Readable io m node block
    · rw [hs hb]
      obtain ⟨ih1, ih2⟩ := ih (n := n - toCopy fs off n) _ _ h.block_pos (by omega)
      constructor
      · rintro ⟨-, hall⟩
        rw [ih1 hall]
        have hlen : (bytes (fs.mapped m node) (block * fs.blockSize + off) (toCopy fs off n)).length =
            toCopy fs off n := by simp [bytes]
        rw [List.length_append, hlen, show out.length + toCopy fs off n + (n - toCopy fs off n) =
          out.length + n by omega, List.append_assoc]
        congr 3
        obtain ⟨r, hr⟩ : ∃ r, n = toCopy fs off n + r := ⟨n - toCopy fs off n, by omega⟩
        rw [show n - toCopy fs off n = r by omega]
        conv_rhs => rw [hr, bytes_add]
        rcases Nat.eq_zero_or_pos r with rfl | hr0
        · simp [bytes]
        · -- the next round starts at the next block
          rw [show (block + 1) * fs.blockSize + 0 = block * fs.blockSize + off + toCopy fs off n by
            rw [Nat.add_mul]; omega]
      · intro hnot
        exact ih2 fun hall => hnot ⟨hb, hall⟩
    · exact ⟨fun hc => absurd hc.1 hb, fun _ => ⟨out, hf' hb⟩⟩

/-- What decides whether a read succeeds. -/
structure Ext2Fs.Reads (fs : Ext2Fs) (io : Io) (m : Mem) (inode off n : ℕ) : Prop where
  inode_gt : 2 < inode
  opens : fs.opensInode io m inode
  size : u64 (off + n) ≤ fs.sizeOf m inode
  mem : io.noMem fs.blockSize = false
  blocks : ∀ k, fs.InRange (off / fs.blockSize) (off % fs.blockSize) n k →
    fs.Readable io m (fs.inodeAt m inode) k

theorem mapped_same {node' : Ext2Inode} (h : node.Same node') : fs.mapped m node = fs.mapped m node' := by
  funext i
  unfold Ext2Fs.mapped
  rw [h.fileBlock]

theorem readable_same {node' : Ext2Inode} (h : node.Same node') (k : ℕ) :
    fs.Readable io m node k ↔ fs.Readable io m node' k := by
  unfold Ext2Fs.Readable Ext2Fs.opensMap
  rw [h.fileBlock, h.singlyIndirect]

/-- **What `ext2_read_file` returns**: the range of the file, or an error. -/
theorem ext2ReadFile_eq (h : fs.Ok) :
    (fs.Reads io m inode off n →
      ext2ReadFile fs io m inode off n = some ((n : ℤ), bytes (fs.content m inode) off n)) ∧
    (¬ fs.Reads io m inode off n → ∃ (e : ℕ) (l : List UInt8),
      ext2ReadFile fs io m inode off n = some (-(e : ℤ), l) ∧
      (e = ERR_INVALID_PARAM ∨ e = ERR_DISK ∨ e = ERR_OUT_OF_MEM)) := by
  have hdm : off / fs.blockSize * fs.blockSize + off % fs.blockSize = off := by
    rw [Nat.mul_comm]; exact Nat.div_add_mod off fs.blockSize
  unfold ext2ReadFile
  by_cases hi : inode ≤ 2
  · rw [if_pos hi]
    exact ⟨fun hr => absurd hr.inode_gt (not_lt.2 hi), fun _ => ⟨_, _, rfl, Or.inl rfl⟩⟩
  rw [if_neg hi]
  by_cases ho : fs.opensInode io m inode
  · obtain ⟨node, hnode, hsame⟩ := (ext2LoadInode_eq h).1 ho
    rw [hnode]
    dsimp only
    rw [show node.size = fs.sizeOf m inode from hsame.size]
    by_cases hs : u64 (off + n) > fs.sizeOf m inode
    · rw [if_pos hs]
      exact ⟨fun hr => absurd hr.size (not_le.2 hs), fun _ => ⟨_, _, rfl, Or.inl rfl⟩⟩
    rw [if_neg hs]
    by_cases hm : io.noMem fs.blockSize = true
    · rw [if_pos hm]
      exact ⟨fun hr => absurd (hr.mem.symm.trans hm) (by decide), fun _ => ⟨_, _, rfl, Or.inr (Or.inr rfl)⟩⟩
    rw [if_neg hm]
    have hmem : io.noMem fs.blockSize = false := by simpa using hm
    obtain ⟨h1, h2⟩ := readLoop_spec (m := m) node h (off / fs.blockSize) [] (Nat.mod_lt off h.block_pos) (le_refl n)
    simp only [readable_same hsame, mapped_same hsame, hdm, List.length_nil, List.nil_append,
      Nat.zero_add] at h1 h2
    constructor
    · intro hr
      exact h1 hr.blocks
    · intro hr
      obtain ⟨l, hl⟩ := h2 fun hb => hr ⟨by omega, ho, not_lt.1 hs, hmem, hb⟩
      exact ⟨_, _, hl, Or.inr (Or.inl rfl)⟩
  · rw [(ext2LoadInode_eq h).2 ho]
    exact ⟨fun hr => absurd hr.opens ho, fun _ => ⟨_, _, rfl, Or.inr (Or.inl rfl)⟩⟩

theorem Ext2Fs.Ok.fileBlock_bound (h : fs.Ok) {k : ℕ} (hk : fs.fileBlock m node k ≠ 0) : k < fs.blockSize / 4 := by
  have h1 := (h.block_arith (show 0 < 2 ^ 38 by decide)).1
  unfold Ext2Fs.fileBlock at hk
  split_ifs at hk with h2 h3
  · omega
  · exact h3
  · exact absurd rfl hk

/-- The last block of a range. -/
theorem inRange_last (hn : 0 < n) :
    fs.InRange (off / fs.blockSize) (off % fs.blockSize) n ((off + n - 1) / fs.blockSize) := by
  refine ⟨hn, Nat.div_le_div_right (by omega), ?_⟩
  have h1 := Nat.div_mul_le_self (off + n - 1) fs.blockSize
  have h2 := Nat.div_add_mod off fs.blockSize
  rw [Nat.mul_comm] at h2
  omega

/-- A range whose blocks are there is far from the end of the 64-bit numbers. -/
theorem Ext2Fs.Ok.range_lt (h : fs.Ok)
    (hk : fs.fileBlock m node ((off + n - 1) / fs.blockSize) ≠ 0) : off + n < 2 ^ 50 := by
  have h1 := h.fileBlock_bound hk
  have h2 := h.small
  have h3 := Nat.lt_mul_div_succ (off + n - 1) h.block_pos
  have h4 : fs.blockSize * ((off + n - 1) / fs.blockSize + 1) ≤ 2 ^ 25 * 2 ^ 23 :=
    Nat.mul_le_mul (by omega) (by omega)
  omega

theorem Ext2Fs.Reads.range_le (h : fs.Ok) (hr : fs.Reads io m inode off n) (hn : 0 < n) :
    off + n < 2 ^ 50 ∧ off + n ≤ fs.sizeOf m inode := by
  have h1 := h.range_lt (hr.blocks _ (inRange_last hn)).2.1
  have h2 := hr.size
  rw [u64_of_lt (by omega)] at h2
  exact ⟨h1, h2⟩

/-! ## `ext2_write_file` -/

/-- What the buffer holds when a round copies to it. -/
def roundBuf (fs : Ext2Fs) (m : Mem) (b off : ℕ) (buf : Mem) : Mem := if 0 < off then overlay fs m b buf else buf

/-- A round of a write that succeeds. -/
theorem writeLoop_step (h : fs.Ok) (hn : 0 < n) {w : ℕ}
    (hw : writeLoop fs io node (fuel + 1) m buf src off n block w = some (((w + n : ℕ) : ℤ), m')) :
    fs.fileBlock m node block ≠ 0 ∧
    writeLoop fs io node fuel
      (written fs m (fs.fileBlock m node block)
        (patch (roundBuf fs m (fs.fileBlock m node block) off buf) off (toCopy fs off n) src))
      (patch (roundBuf fs m (fs.fileBlock m node block) off buf) off (toCopy fs off n) src)
      (fun x => src (toCopy fs off n + x)) 0 (n - toCopy fs off n) (block + 1) (w + toCopy fs off n) =
      some (((w + n : ℕ) : ℤ), m') := by
  have hneg : ∀ x : Mem, some (-(ERR_DISK : ℤ), x) ≠ some (((w + n : ℕ) : ℤ), m') := by
    intro x hx
    have := congrArg Prod.fst (Option.some.inj hx)
    simp only [ERR_DISK] at this
    omega
  rw [writeLoop, if_neg (by omega)] at hw
  dsimp only at hw
  by_cases h0 : ext2BlockInInode fs io m node block = 0
  · rw [if_pos h0] at hw
    have := congrArg Prod.fst (Option.some.inj hw)
    dsimp only at this
    omega
  rw [if_neg h0] at hw
  have hb : ext2BlockInInode fs io m node block = fs.fileBlock m node block := by
    rw [ext2BlockInInode_eq h] at h0 ⊢
    split_ifs at h0 ⊢ with hm
    · rfl
    · exact absurd rfl h0
  rw [hb] at hw h0
  have hlt : fs.fileBlock m node block < 2 ^ 38 := fileBlock_lt.trans (by decide)
  have hload : (if off > 0 then ext2LoadBlocks fs io m buf (fs.fileBlock m node block) 1 else some buf) =
      none ∨ (if off > 0 then ext2LoadBlocks fs io m buf (fs.fileBlock m node block) 1 else some buf) =
      some (roundBuf fs m (fs.fileBlock m node block) off buf) := by
    unfold roundBuf
    by_cases hoff : off > 0
    · rw [if_pos hoff, if_pos hoff, ext2LoadBlocks_eq h hlt]
      split_ifs
      · exact Or.inr rfl
      · exact Or.inl rfl
    · rw [if_neg hoff, if_neg hoff]
      exact Or.inr rfl
  rcases hload with hl | hl
  · rw [hl] at hw
    exact absurd hw (hneg _)
  · rw [hl] at hw
    dsimp only at hw
    by_cases hs : fs.stores io (fs.fileBlock m node block) = true
    · rw [(ext2WriteBlocks_eq h hlt _).1 hs, if_neg (not_not_intro rfl)] at hw
      exact ⟨h0, hw⟩
    · rw [if_pos ((ext2WriteBlocks_eq h hlt _).2 hs)] at hw
      exact absurd hw (hneg _)

/-- What a write of the `n` bytes of `src` at `off` leaves at the byte `q` of the file, in a block that
it touches; `d` is the buffer of the first round. -/
def staged (fs : Ext2Fs) (off n : ℕ) (src d : Mem) (q : ℕ) : UInt8 :=
  if off ≤ q ∧ q < off + n then src (q - off)
  -- behind the range: what the round before copied, or what it found in the buffer
  else if off + fs.blockSize ≤ q then src (q - fs.blockSize - off)
  else d (q % fs.blockSize)

theorem block_mod {p : ℕ} (hp : p < fs.blockSize) : (block * fs.blockSize + p) % fs.blockSize = p := by
  rw [Nat.mul_comm, Nat.mul_add_mod, Nat.mod_eq_of_lt hp]

/-- The block of the first round. -/
theorem staged_first {d : Mem} {p : ℕ} (hoff : off < fs.blockSize) (hn : 0 < n) (hp : p < fs.blockSize) :
    staged fs (block * fs.blockSize + off) n src d (block * fs.blockSize + p) =
      patch d off (toCopy fs off n) src p := by
  obtain ⟨h1, h2, h3, h4⟩ := toCopy_spec hoff hn
  unfold staged patch
  by_cases hin : off ≤ p ∧ p < off + toCopy fs off n
  · rw [if_pos (by omega), if_pos hin]
    congr 1
    omega
  · rw [if_neg (by omega), if_neg hin, if_neg (by omega), block_mod hp]

/-- The blocks of the other rounds. -/
theorem staged_rest {d : Mem} {q : ℕ} (hoff : off < fs.blockSize) (hn : 0 < n - toCopy fs off n)
    (hq : (block + 1) * fs.blockSize ≤ q) :
    staged fs ((block + 1) * fs.blockSize) (n - toCopy fs off n) (fun x => src (toCopy fs off n + x))
        (patch d off (toCopy fs off n) src) q =
      staged fs (block * fs.blockSize + off) n src d q := by
  obtain ⟨h1, h2, h3, h4⟩ := toCopy_spec hoff (show 0 < n by omega)
  have hb : (block + 1) * fs.blockSize = block * fs.blockSize + fs.blockSize := by rw [Nat.add_mul, Nat.one_mul]
  unfold staged
  by_cases hin : (block + 1) * fs.blockSize ≤ q ∧ q < (block + 1) * fs.blockSize + (n - toCopy fs off n)
  · rw [if_pos hin, if_pos (by omega)]
    dsimp only
    congr 1
    omega
  rw [if_neg hin]
  by_cases hlast : (block + 1) * fs.blockSize + fs.blockSize ≤ q
  · rw [if_pos hlast, if_neg (by omega), if_pos (by omega)]
    dsimp only
    congr 1
    omega
  -- the second block: the buffer is what the first round made of it
  rw [if_neg hlast, if_neg (by omega)]
  obtain ⟨p, rfl⟩ := Nat.exists_eq_add_of_le hq
  have hp : p < fs.blockSize := by omega
  rw [block_mod hp]
  unfold patch
  by_cases hp2 : off ≤ p
  · rw [if_pos (by omega), if_pos (by omega)]
    congr 1
    omega
  · rw [if_neg (by omega), if_neg (by omega)]

/-- The blocks `blk k` of a range are different, and none is the block of the block map. -/
structure MapOk (fs : Ext2Fs) (node : Ext2Inode) (blk : ℕ → ℕ) (size : ℕ) : Prop where
  inj : ∀ j k, j * fs.blockSize < size → k * fs.blockSize < size → blk j = blk k → j = k
  indirect : ∀ j k, j * fs.blockSize < size → k * fs.blockSize < size → 12 ≤ j → blk k ≠ node.singlyIndirect

/-- A write to a block of a file leaves the block map. -/
theorem MapOk.written {blk : ℕ → ℕ} {size k : ℕ} (h : MapOk fs node blk size) (hk : k * fs.blockSize < size)
    (hblk : ∀ j, j * fs.blockSize < size → fs.fileBlock m node j = blk j) (buf : Mem) :
    ∀ j, j * fs.blockSize < size → fs.fileBlock (written fs m (blk k) buf) node j = blk j := by
  intro j hj
  rw [← hblk j hj]
  apply fileBlock_congr
  rcases Nat.lt_or_ge j 12 with h12 | h12
  · exact Or.inl h12
  · exact Or.inr fun i hi => blockAt_written_of_ne (h.indirect j k hj hk h12).symm hi

theorem written_of_not_inBlock {b x : ℕ} (hx : ¬ fs.InBlock b x) : written fs m b buf x = m x := by
  unfold written
  exact if_neg hx

/-- **The loop of `ext2_write_file`**, when it gets through. -/
theorem writeLoop_spec (h : fs.Ok) {blk : ℕ → ℕ} {size : ℕ} (hmap : MapOk fs node blk size) :
    ∀ {fuel : ℕ} {m buf src : Mem} {off n block w : ℕ}, off < fs.blockSize → n ≤ fuel →
    (∀ k, fs.InRange block off n k → k * fs.blockSize < size) →
    (∀ j, j * fs.blockSize < size → fs.fileBlock m node j = blk j) →
    writeLoop fs io node fuel m buf src off n block w = some (((w + n : ℕ) : ℤ), m') →
    (∀ x, (∀ k, fs.InRange block off n k → ¬ fs.InBlock (blk k) x) → m' x = m x) ∧
      ∀ k p, fs.InRange block off n k → p < fs.blockSize → fs.blockAt m' (blk k) p =
        staged fs (block * fs.blockSize + off) n src (roundBuf fs m (blk block) off buf)
          (k * fs.blockSize + p) := by
  intro fuel
  induction fuel with
  | zero =>
    intro m buf src off n block w hoff hf hsize hblk hw
    obtain rfl : n = 0 := by omega
    rw [writeLoop, if_pos rfl] at hw
    obtain rfl : m = m' := congrArg Prod.snd (Option.some.inj hw)
    exact ⟨fun _ _ => rfl, fun k p hk => absurd hk not_inRange_zero⟩
  | succ fuel ih =>
    intro m buf src off n block w hoff hf hsize hblk hw
    rcases Nat.eq_zero_or_pos n with rfl | hn
    · rw [writeLoop, if_pos rfl] at hw
      obtain rfl : m = m' := congrArg Prod.snd (Option.some.inj hw)
      exact ⟨fun _ _ => rfl, fun k p hk => absurd hk not_inRange_zero⟩
    obtain ⟨h1, h2, h3, h4⟩ := toCopy_spec hoff hn
    obtain ⟨-, hw'⟩ := writeLoop_step h hn hw
    have hfirst := (inRange_step hoff hn block).2 (Or.inl rfl)
    have hsz := hsize block hfirst
    rw [hblk block hsz] at hw'
    generalize hd : roundBuf fs m (blk block) off buf = d at hw' ⊢
    have hadd : w + n = w + toCopy fs off n + (n - toCopy fs off n) := by omega
    rw [hadd] at hw'
    obtain ⟨iho, ihi⟩ := ih h.block_pos (by omega)
      (fun k hk => hsize k ((inRange_step hoff hn k).2 (Or.inr hk))) (hmap.written hsz hblk _) hw'
    constructor
    · intro x hx
      rw [iho x fun k hk => hx k ((inRange_step hoff hn k).2 (Or.inr hk)),
        written_of_not_inBlock (hx block hfirst)]
    · intro k p hk hp
      rcases (inRange_step hoff hn k).1 hk with rfl | hk'
      · -- the later rounds leave the block of this one
        have hkeep := iho (fs.base + blk k * fs.blockSize + p) fun j hj => by
          have hne : blk k ≠ blk j := by
            intro he
            have := hmap.inj k j hsz (hsize j ((inRange_step hoff hn j).2 (Or.inr hj))) he
            have := hj.2.1
            omega
          exact block_disjoint hne hp
        rw [staged_first hoff hn hp]
        unfold blockAt
        rw [hkeep]
        exact blockAt_written_self hp
      · have hle := Nat.mul_le_mul_right fs.blockSize hk'.2.1
        rw [ihi k p hk' hp, Nat.add_zero]
        exact staged_rest hoff hk'.1 (by omega)

end Nettapus
