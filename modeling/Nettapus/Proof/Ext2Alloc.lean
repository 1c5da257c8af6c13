import Nettapus.Proof.Ext2Bitmap
import Mathlib.Data.Finset.Max

/-!
# `ext2_alloc_blocks`

The groups are asked one after the other for what is still missing; `granted` is what they give, as pairs of a group
and a bit. A group whose counter is below the missing number gives nothing. `allocBlocksLoop_spec` says that the
bits of these pairs are set on the disk, and that the addresses are computed from them, whether or not there are
enough of them.

`alloc_blocks_iff`: when the addresses are those of the blocks, and a call that fails changes nothing.
-/

namespace Nettapus

open Bytes Ext2Fs

variable {fs : Ext2Fs} {io : Io} {m m' m₁ buf : Mem} {g i j k n b count sbn : ℕ}

/-! ## What the groups give -/

/-- The bit `j` of the block bitmap of the group `g` is clear. The bitmap is where the image `m₀` has it. -/
def BlockFree (fs : Ext2Fs) (m₀ m : Mem) (g j : ℕ) : Bool := bitClear (fs.blockAt m (fs.desAt m₀ g).blockBitmapAddr) j

/-- What the group `g` gives of `count` blocks. -/
def grants (fs : Ext2Fs) (m : Mem) (g count : ℕ) : List ℕ :=
  if count > (fs.desAt m g).freeBlockCount then []
  else ((List.range fs.blocksInGroup).filter (BlockFree fs m m g)).take count

/-- What the groups from `i` on, `k` of them, give of `count` blocks. -/
def granted (fs : Ext2Fs) (m : Mem) : ℕ → ℕ → ℕ → List (ℕ × ℕ)
  | 0, _, _ => []
  | k + 1, i, count =>
    (grants fs m i count).map (Prod.mk i) ++ granted fs m k (i + 1) (count - (grants fs m i count).length)

theorem grants_length_le : (grants fs m g count).length ≤ count := by
  unfold grants
  split_ifs
  · exact Nat.zero_le count
  · exact List.length_take_le _ _

theorem grants_nodup : (grants fs m g count).Nodup := by
  unfold grants
  split_ifs
  · exact List.nodup_nil
  · exact (List.nodup_range.filter _).sublist (List.take_sublist _ _)

theorem mem_grants (h : j ∈ grants fs m g count) : j < fs.blocksInGroup ∧ BlockFree fs m m g j = true := by
  unfold grants at h
  split_ifs at h
  · cases h
  · obtain ⟨h1, h2⟩ := List.mem_filter.1 (List.mem_of_mem_take h)
    exact ⟨List.mem_range.1 h1, h2⟩

theorem grants_zero : grants fs m g 0 = [] := by
  unfold grants
  rw [if_neg (Nat.not_lt_zero _), List.take_zero]

theorem granted_zero : ∀ k i, granted fs m k i 0 = [] := by
  intro k
  induction k with
  | zero => exact fun _ => rfl
  | succ k ih =>
    intro i
    unfold granted
    rw [grants_zero, Nat.zero_sub, ih]
    rfl

/-- A pair that is given is a clear bit of one of the groups. -/
theorem mem_granted : ∀ {k i count : ℕ} {p : ℕ × ℕ}, p ∈ granted fs m k i count →
    i ≤ p.1 ∧ p.1 < i + k ∧ p.2 < fs.blocksInGroup ∧ BlockFree fs m m p.1 p.2 = true := by
  intro k
  induction k with
  | zero => intro i count p h; cases h
  | succ k ih =>
    intro i count p h
    rcases List.mem_append.1 h with h | h
    · obtain ⟨j, hj, rfl⟩ := List.mem_map.1 h
      obtain ⟨h1, h2⟩ := mem_grants hj
      exact ⟨le_rfl, by omega, h1, h2⟩
    · obtain ⟨h1, h2, h3⟩ := ih h
      exact ⟨by omega, by omega, h3⟩

theorem granted_nodup : ∀ k i count, (granted fs m k i count).Nodup := by
  intro k
  induction k with
  | zero => exact fun _ _ => List.nodup_nil
  | succ k ih =>
    intro i count
    refine List.nodup_append'.2 ⟨grants_nodup.map fun a b h => (Prod.mk.inj h).2, ih _ _, fun p hp hp' => ?_⟩
    obtain ⟨j, -, rfl⟩ := List.mem_map.1 hp
    -- the other groups come after this one
    have hle := (mem_granted hp').1
    dsimp only at hle
    omega

/-! ## The loop -/

theorem bitClear_foldl_setBit (js : List ℕ) : ∀ buf : Mem,
    bitClear (js.foldl setBit buf) k = (!decide (k ∈ js) && bitClear buf k) := by
  induction js with
  | nil => intro buf; rfl
  | cons j js ih =>
    intro buf
    rw [List.foldl_cons, ih, bitClear_setBit, ← Bool.and_assoc, ← Bool.not_or]
    congr 2
    rw [Bool.or_comm, ← Bool.decide_or]
    exact decide_eq_decide.2 List.mem_cons.symm

/-- The block bitmaps are different blocks, and none is in the table of the group descriptors. -/
structure Ext2Fs.BitmapsApart (fs : Ext2Fs) (m : Mem) : Prop where
  bitmaps : ∀ g < fs.groupCount, ∀ g' < fs.groupCount, g ≠ g' →
    (fs.desAt m g).blockBitmapAddr ≠ (fs.desAt m g').blockBitmapAddr
  descriptors : ∀ g < fs.groupCount, ¬ fs.InDesTable (fs.desAt m g).blockBitmapAddr

/-- The device lets the descriptors and the bitmaps be loaded. -/
structure Ext2Fs.NoDiskError (fs : Ext2Fs) (io : Io) (m : Mem) : Prop where
  descriptor : ∀ g < fs.groupCount, fs.loads io (fs.groupBlock g) = true
  load : ∀ g < fs.groupCount, fs.loads io (fs.desAt m g).blockBitmapAddr = true

/-- The descriptors are those of the image `m`, and so are the bitmaps from the group `i` on. -/
structure AgreesFrom (fs : Ext2Fs) (m m₁ : Mem) (i : ℕ) : Prop where
  descriptor : ∀ g < fs.groupCount, SameBlock fs m₁ m (fs.groupBlock g)
  bitmap : ∀ g < fs.groupCount, i ≤ g → SameBlock fs m₁ m (fs.desAt m g).blockBitmapAddr

theorem blockBitmapAddr_lt : (fs.desAt m g).blockBitmapAddr < 2 ^ 38 := (load_lt _ 4 _).trans (by decide)

/-- The descriptor that is loaded is the one of the image. -/
theorem AgreesFrom.loadGroupDes (h : fs.Ok) (ha : AgreesFrom fs m m₁ i) (hg : g < fs.groupCount)
    (ho : fs.opens io (fs.groupBlock g) = true) :
    ∃ gd, ext2LoadGroupDes fs io m₁ g = some gd ∧ gd.blockBitmapAddr = (fs.desAt m g).blockBitmapAddr ∧
      gd.freeBlockCount = (fs.desAt m g).freeBlockCount := by
  obtain ⟨gd, hgd, hsame⟩ := (ext2LoadGroupDes_eq (m := m₁) h hg.le).1 ho
  have hdes : GroupDes.Same gd (fs.desAt m g) := fun x hx => by
    have hslot := h.slot_des g
    exact (hsame x hx).trans (ha.descriptor g hg _ (by omega))
  exact ⟨gd, hgd, hdes.field (by decide), hdes.field (by decide)⟩

/-- What a group gives is written back, and the groups behind it are as they were. -/
theorem AgreesFrom.written (ha : AgreesFrom fs m m₁ i) (hb : fs.BitmapsApart m) (hi : i < fs.groupCount) :
    AgreesFrom fs m (written fs m₁ (fs.desAt m i).blockBitmapAddr buf) (i + 1) := by
  refine ⟨fun g hg x hx => ?_, fun g hg hle x hx => ?_⟩
  · have hne : fs.groupBlock g ≠ (fs.desAt m i).blockBitmapAddr := fun he => hb.descriptors i hi ⟨g, hg, he.symm⟩
    exact (blockAt_written_of_ne hne hx).trans (ha.descriptor g hg x hx)
  · have hne := hb.bitmaps g hg i hi (by omega)
    exact (blockAt_written_of_ne hne hx).trans (ha.bitmap g hg (by omega) x hx)

/-- The bits that the loop takes from a group. -/
theorem AgreesFrom.grants (ha : AgreesFrom fs m m₁ i) (hi : i < fs.groupCount) (hle : fs.blocksInGroup ≤ 8 * fs.blockSize)
    (hc : ¬ count > (fs.desAt m i).freeBlockCount) :
    ((List.range fs.blocksInGroup).filter (bitClear (overlay fs m₁ (fs.desAt m i).blockBitmapAddr buf))).take count =
      grants fs m i count := by
  unfold Nettapus.grants
  rw [if_neg hc]
  congr 1
  refine List.filter_congr fun j hj => ?_
  have hlt := List.mem_range.1 hj
  rw [bitClear_overlay (by omega)]
  exact bitClear_congr (ha.bitmap i hi le_rfl _ (by omega))

/-- The address that is computed for a bit. -/
def blockNumber (fs : Ext2Fs) (p : ℕ × ℕ) : ℕ := p.1 * fs.blocksInGroup + p.2

theorem addresses_eq (js : List ℕ) : (js.map fun j => u64 (i * fs.blocksInGroup + j) % 2 ^ 32) =
    (js.map (Prod.mk i)).map fun p => blockNumber fs p % 2 ^ 32 := by
  rw [List.map_map]
  refine List.map_congr_left fun j _ => ?_
  exact Nat.mod_mod_of_dvd _ (by decide)

/-- The bits after a group has given the bits `js`. -/
theorem blockFree_written (hb : fs.BitmapsApart m) (hi : i < fs.groupCount) (js : List ℕ) (m₁ buf : Mem)
    (hg : g < fs.groupCount) (hj : j < 8 * fs.blockSize) :
    BlockFree fs m (written fs m₁ (fs.desAt m i).blockBitmapAddr
      (js.foldl setBit (overlay fs m₁ (fs.desAt m i).blockBitmapAddr buf))) g j =
      (!decide ((g, j) ∈ js.map (Prod.mk i)) && BlockFree fs m m₁ g j) := by
  unfold BlockFree
  rw [bitClear_written hj]
  by_cases hgi : g = i
  · rw [hgi, if_pos rfl, bitClear_foldl_setBit, bitClear_overlay hj]
    congr 2
    refine decide_eq_decide.2 ⟨fun h => List.mem_map_of_mem h, fun h => ?_⟩
    obtain ⟨j', hj', he⟩ := List.mem_map.1 h
    rw [← (Prod.mk.inj he).2]
    exact hj'
  · have hnot : (g, j) ∉ js.map (Prod.mk i) := fun h => by
      obtain ⟨j', -, he⟩ := List.mem_map.1 h
      exact hgi (Prod.mk.inj he).1.symm
    rw [if_neg (hb.bitmaps g hg i hi hgi), decide_eq_false hnot]
    rfl

theorem AgreesFrom.next (ha : AgreesFrom fs m m₁ i) : AgreesFrom fs m m₁ (i + 1) :=
  ⟨ha.descriptor, fun g hg hle => ha.bitmap g hg (by omega)⟩

/-- **The loop of `ext2_alloc_blocks`**, when a bitmap is read at all. -/
theorem allocBlocksLoop_spec (h : fs.Ok) (hm : io.noMem fs.blockSize = false) (hb : fs.BitmapsApart m)
    (hio : fs.NoDiskError io m) (hle : fs.blocksInGroup ≤ 8 * fs.blockSize)
    (hone : bitmapBlocks fs fs.blocksInGroup = 1) :
    ∀ k i count buf m₁ ret, i + k = fs.groupCount → 0 < count → AgreesFrom fs m m₁ i → ∃ m',
      allocBlocksLoop fs io k i count buf m₁ ret =
        (if (granted fs m k i count).length = count then GENERIC_SUCCESS else ERR_NO_RESULT,
          ret ++ (granted fs m k i count).map fun p => blockNumber fs p % 2 ^ 32, m') ∧
      ∀ g < fs.groupCount, ∀ j < 8 * fs.blockSize,
        BlockFree fs m m' g j = (!decide ((g, j) ∈ granted fs m k i count) && BlockFree fs m m₁ g j) := by
  have hopens : ∀ {b}, fs.loads io b = true → fs.opens io b = true := fun hl => by
    unfold Ext2Fs.opens
    rw [hm, hl]
    rfl
  intro k
  induction k with
  | zero =>
    intro i count buf m₁ ret _ hc _
    refine ⟨m₁, ?_, fun g _ j _ => rfl⟩
    unfold allocBlocksLoop granted
    rw [if_neg (show ¬ ([] : List (ℕ × ℕ)).length = count from fun h0 => by rw [← h0] at hc; exact absurd hc (by decide)),
      List.map_nil, List.append_nil]
  | succ k ih =>
    intro i count buf m₁ ret hik hc ha
    have hi : i < fs.groupCount := by omega
    obtain ⟨gd, hgd, haddr, hfree⟩ := ha.loadGroupDes h hi (hopens (hio.descriptor i hi))
    unfold allocBlocksLoop
    rw [hgd]
    dsimp only
    rw [haddr, hfree]
    by_cases hcg : count > (fs.desAt m i).freeBlockCount
    · -- the group is passed over
      have hnil : grants fs m i count = [] := if_pos hcg
      have hgr : granted fs m (k + 1) i count = granted fs m k (i + 1) count := by
        rw [granted, hnil]
        rfl
      rw [if_pos hcg, hgr]
      exact ih (i + 1) count buf m₁ ret (by omega) hc ha.next
    rw [if_neg hcg, hone, loadBitmap_one h blockBitmapAddr_lt, if_pos (hopens (hio.load i hi))]
    dsimp only
    have hst : fs.stores io (fs.desAt m i).blockBitmapAddr = true := stores_eq_loads.trans (hio.load i hi)
    rw [ha.grants hi hle hcg, (ext2WriteBlocks_eq h blockBitmapAddr_lt _).1 hst, addresses_eq]
    have hbits := fun g (hg : g < fs.groupCount) j (hj : j < 8 * fs.blockSize) =>
      blockFree_written hb hi (grants fs m i count) m₁ buf hg hj
    by_cases hlast : count = (grants fs m i count).length
    · have hgr : granted fs m (k + 1) i count = (grants fs m i count).map (Prod.mk i) := by
        rw [granted, ← hlast, Nat.sub_self, granted_zero, List.append_nil]
      rw [if_pos hlast, hgr, List.length_map, if_pos hlast.symm]
      exact ⟨_, rfl, hbits⟩
    · have hlt : (grants fs m i count).length < count := lt_of_le_of_ne grants_length_le (Ne.symm hlast)
      obtain ⟨m', he, hrest⟩ := ih (i + 1) (count - (grants fs m i count).length)
        ((grants fs m i count).foldl setBit (overlay fs m₁ (fs.desAt m i).blockBitmapAddr buf)) _
        (ret ++ ((grants fs m i count).map (Prod.mk i)).map fun p => blockNumber fs p % 2 ^ 32)
        (by omega) (by omega) (ha.written hb hi)
      refine ⟨m', ?_, fun g hg j hj => ?_⟩
      · rw [if_neg hlast, he, granted, List.length_append, List.length_map, List.map_append, List.append_assoc]
        congr 1
        exact if_congr (by omega) rfl rfl
      · rw [hrest g hg j hj, hbits g hg j hj, granted, ← Bool.and_assoc, ← Bool.not_or]
        congr 2
        rw [Bool.or_comm, ← Bool.decide_or]
        exact decide_eq_decide.2 List.mem_append.symm

/-- If no bitmap is read, nothing happens. -/
theorem allocBlocksLoop_none (hno : ∀ m buf b, loadBitmap fs io m buf b (bitmapBlocks fs fs.blocksInGroup) = none) :
    ∀ k i buf ret, allocBlocksLoop fs io k i count buf m ret = (ERR_NO_RESULT, ret, m) := by
  intro k
  induction k with
  | zero => exact fun _ _ _ => rfl
  | succ k ih =>
    intro i buf ret
    unfold allocBlocksLoop
    cases hgd : ext2LoadGroupDes fs io m i with
    | none => rfl
    | some gd =>
      dsimp only
      rw [hno]
      split_ifs
      · exact ih (i + 1) buf ret
      · rfl

/-! ## All or nothing -/

/-- By the format the bit `j` of the group `g` is the block `super_block_num + g * blocks_in_group + j`. A call that
succeeds gives `count` different blocks that were free and are used now, and changes no other bit; a call that fails
changes none. -/
def AllocBlocksLaw (fs : Ext2Fs) (sbn : ℕ) (m : Mem) (count : ℕ) (r : ℕ × List ℕ × Mem) : Prop :=
  (r.1 = GENERIC_SUCCESS →
    r.2.1.length = count ∧ r.2.1.Nodup ∧
    (∀ a ∈ r.2.1, ∃ g < fs.groupCount, ∃ j < fs.blocksInGroup, a = sbn + g * fs.blocksInGroup + j ∧
      BlockFree fs m m g j = true ∧ BlockFree fs m r.2.2 g j = false) ∧
    ∀ g < fs.groupCount, ∀ j < fs.blocksInGroup, sbn + g * fs.blocksInGroup + j ∉ r.2.1 →
      BlockFree fs m r.2.2 g j = BlockFree fs m m g j) ∧
  (r.1 ≠ GENERIC_SUCCESS → ∀ g < fs.groupCount, ∀ j < 8 * fs.blockSize,
    BlockFree fs m r.2.2 g j = BlockFree fs m m g j)

/-- A call that does nothing is as it should be. -/
theorem allocBlocksLaw_nothing {ret : List ℕ} : AllocBlocksLaw fs sbn m count (ERR_NO_RESULT, ret, m) :=
  ⟨fun he : ERR_NO_RESULT = GENERIC_SUCCESS => absurd he (by decide), fun _ _ _ _ _ => rfl⟩

theorem blockNumber_inj {p q : ℕ × ℕ} (hp : p.2 < fs.blocksInGroup) (hq : q.2 < fs.blocksInGroup)
    (he : blockNumber fs p = blockNumber fs q) : p = q := by
  unfold blockNumber at he
  have h1 : p.1 = q.1 := by
    have hdiv : ∀ {p : ℕ × ℕ}, p.2 < fs.blocksInGroup → (p.1 * fs.blocksInGroup + p.2) / fs.blocksInGroup = p.1 :=
      fun hlt => by rw [Nat.mul_comm, Nat.mul_add_div (by omega), Nat.div_eq_of_lt hlt, Nat.add_zero]
    rw [← hdiv hp, he, hdiv hq]
  rw [h1] at he
  exact Prod.ext h1 (by omega)

/-- The bits `T` were clear in `m` and are set in `m'`, and the other bits are the same. -/
structure Takes (fs : Ext2Fs) (m m' : Mem) (T : List (ℕ × ℕ)) : Prop where
  mem : ∀ p ∈ T, p.1 < fs.groupCount ∧ p.2 < fs.blocksInGroup ∧ BlockFree fs m m p.1 p.2 = true
  nodup : T.Nodup
  bits : ∀ g < fs.groupCount, ∀ j < 8 * fs.blockSize,
    BlockFree fs m m' g j = (!decide ((g, j) ∈ T) && BlockFree fs m m g j)

section Takes

variable {T : List (ℕ × ℕ)} {p : ℕ × ℕ}

theorem Takes.used (ht : Takes fs m m' T) (hle : fs.blocksInGroup ≤ 8 * fs.blockSize) (hp : p ∈ T) :
    BlockFree fs m m' p.1 p.2 = false := by
  obtain ⟨h1, h2, -⟩ := ht.mem p hp
  rw [ht.bits p.1 h1 p.2 (by omega), decide_eq_true hp]
  rfl

theorem Takes.same (ht : Takes fs m m' T) (hg : g < fs.groupCount) (hj : j < 8 * fs.blockSize) (hn : (g, j) ∉ T) :
    BlockFree fs m m' g j = BlockFree fs m m g j := by
  rw [ht.bits g hg j hj, decide_eq_false hn]
  rfl

/-- A call that fails is as it should be if it has taken nothing. -/
theorem Takes.law_failure {ret : List ℕ} (ht : Takes fs m m' T) (hle : fs.blocksInGroup ≤ 8 * fs.blockSize) :
    AllocBlocksLaw fs sbn m count (ERR_NO_RESULT, ret, m') ↔ T = [] := by
  have hne : ERR_NO_RESULT ≠ GENERIC_SUCCESS := by decide
  constructor
  · intro hlaw
    refine List.eq_nil_iff_forall_not_mem.2 fun p hp => ?_
    obtain ⟨h1, h2, h3⟩ := ht.mem p hp
    have heq := hlaw.2 hne p.1 h1 p.2 (by omega)
    rw [ht.used hle hp, h3] at heq
    cases heq
  · intro hnil
    refine ⟨fun he => absurd he hne, fun _ g hg j hj => ht.same hg hj ?_⟩
    rw [hnil]
    exact List.not_mem_nil

/-- A call that succeeds is as it should be if the blocks are counted from 0 and their numbers fit in 32 bits. -/
theorem Takes.law_success (ht : Takes fs m m' T) (hle : fs.blocksInGroup ≤ 8 * fs.blockSize) (hlen : T.length = count)
    (h0 : T ≠ []) :
    AllocBlocksLaw fs sbn m count (GENERIC_SUCCESS, T.map (fun p => blockNumber fs p % 2 ^ 32), m') ↔
      sbn = 0 ∧ ∀ p ∈ T, blockNumber fs p < 2 ^ 32 := by
  constructor
  · intro hlaw
    obtain ⟨-, -, -, hframe⟩ := hlaw.1 rfl
    -- the largest number of a bit that was taken
    obtain ⟨p, hp, hmax⟩ := T.toFinset.exists_max_image (blockNumber fs) (by simpa using h0)
    rw [List.mem_toFinset] at hp
    obtain ⟨h1, h2, h3⟩ := ht.mem p hp
    have hin : sbn + p.1 * fs.blocksInGroup + p.2 ∈ T.map fun p => blockNumber fs p % 2 ^ 32 := by
      by_contra hn
      have heq := hframe p.1 h1 p.2 h2 hn
      rw [ht.used hle hp, h3] at heq
      cases heq
    obtain ⟨q, hq, he⟩ := List.mem_map.1 hin
    have hqp := hmax q (List.mem_toFinset.2 hq)
    have hmod : blockNumber fs q % 2 ^ 32 ≤ blockNumber fs q := Nat.mod_le _ _
    have hlt : blockNumber fs q % 2 ^ 32 < 2 ^ 32 := Nat.mod_lt _ (by decide)
    have hnum : blockNumber fs p = p.1 * fs.blocksInGroup + p.2 := rfl
    refine ⟨by omega, fun r hr => ?_⟩
    have hrp := hmax r (List.mem_toFinset.2 hr)
    omega
  · rintro ⟨rfl, hlt⟩
    have hret : T.map (fun p => blockNumber fs p % 2 ^ 32) = T.map (blockNumber fs) :=
      List.map_congr_left fun p hp => Nat.mod_eq_of_lt (hlt p hp)
    rw [hret]
    refine ⟨fun _ => ⟨by rw [List.length_map]; exact hlen, ?_, fun a ha => ?_, fun g hg j hj hn => ?_⟩,
      fun he => absurd rfl he⟩
    · exact ht.nodup.map_on fun p hp q hq he => blockNumber_inj (ht.mem p hp).2.1 (ht.mem q hq).2.1 he
    · obtain ⟨p, hp, rfl⟩ := List.mem_map.1 ha
      obtain ⟨h1, h2, h3⟩ := ht.mem p hp
      exact ⟨p.1, h1, p.2, h2, by rw [Nat.zero_add]; rfl, h3, ht.used hle hp⟩
    · refine ht.same hg (by omega) fun hin => hn (List.mem_map.2 ⟨(g, j), hin, ?_⟩)
      rw [Nat.zero_add]
      rfl

end Takes

/-- **Exactly the blocks that were asked for, or none.** A call is as it should be exactly if: there is no memory for a
bitmap or none is read; or no group has the blocks and a clear bit; or the groups give all the blocks, the first
block of the file system is the block 0, and the numbers of the blocks fit in 32 bits. -/
theorem alloc_blocks_iff (h : fs.Sized) (hk : io.Kernel) (hb : fs.BitmapsApart m) (hio : fs.NoDiskError io m)
    (hpos : 1 ≤ fs.blocksInGroup) (hle : fs.blocksInGroup ≤ 8 * fs.blockSize) (hc : 1 ≤ count) :
    AllocBlocksLaw fs sbn m count (ext2AllocBlocks fs io m count) ↔
      io.noMem fs.blockSize = true ∨ (fs.blockSize ∣ fs.blocksInGroup ∧ fs.blocksInGroup < 8 * fs.blockSize) ∨
      granted fs m fs.groupCount 0 count = [] ∨
      ((granted fs m fs.groupCount 0 count).length = count ∧ sbn = 0 ∧
        ∀ p ∈ granted fs m fs.groupCount 0 count, blockNumber fs p < 2 ^ 32) := by
  by_cases hno : io.noMem fs.blockSize = true ∨ (fs.blockSize ∣ fs.blocksInGroup ∧ fs.blocksInGroup < 8 * fs.blockSize)
  · -- no bitmap is read
    have hnone : ∀ m buf b, loadBitmap fs io m buf b (bitmapBlocks fs fs.blocksInGroup) = none := by
      intro m buf b
      rcases bitmapBlocks_le hpos hle with h0 | h1
      · rw [h0, loadBitmap_zero hk]
      · rcases hno with hm | hd
        · rw [h1]
          unfold loadBitmap
          rw [Nat.one_mul, u64_of_lt h.size_lt]
          exact if_pos hm
        · rw [bitmapBlocks_eq hpos hle, if_pos hd] at h1
          cases h1
    unfold ext2AllocBlocks
    rw [allocBlocksLoop_none hnone]
    exact ⟨fun _ => hno.elim Or.inl fun hd => Or.inr (Or.inl hd), fun _ => allocBlocksLaw_nothing⟩
  obtain ⟨hm, hd⟩ := not_or.1 hno
  rw [or_iff_right hm, or_iff_right hd]
  have hm' : io.noMem fs.blockSize = false := by simpa using hm
  have hok := h.ok hk hm'
  have hone : bitmapBlocks fs fs.blocksInGroup = 1 := by rw [bitmapBlocks_eq hpos hle, if_neg hd]
  obtain ⟨m', he, hbits⟩ := allocBlocksLoop_spec hok hm' hb hio hle hone fs.groupCount 0 count io.garbage m []
    (Nat.zero_add _) hc ⟨fun _ _ _ _ => rfl, fun _ _ _ _ _ => rfl⟩
  have ht : Takes fs m m' (granted fs m fs.groupCount 0 count) := by
    refine ⟨fun p hp => ?_, granted_nodup _ _ _, hbits⟩
    obtain ⟨-, h1, h2⟩ := mem_granted hp
    exact ⟨by omega, h2⟩
  unfold ext2AllocBlocks
  rw [he, List.nil_append]
  by_cases hlen : (granted fs m fs.groupCount 0 count).length = count
  · have h0 : granted fs m fs.groupCount 0 count ≠ [] := fun hnil => by
      rw [hnil] at hlen
      exact absurd hlen.symm (by simpa using Nat.ne_of_gt hc)
    rw [if_pos hlen, ht.law_success hle hlen h0, or_iff_right h0, and_iff_right hlen]
  · rw [if_neg hlen, ht.law_failure hle]
    exact ⟨Or.inl, fun hor => hor.resolve_right fun hall => hlen hall.1⟩

/-- An image in which the first four blocks of the bitmap are in use. -/
def blockImage : Mem := fun x =>
  if x = 2 * 1024 then 3              -- the block bitmap
  else if x = 2 * 1024 + 12 then 60   -- the free blocks
  else if x = 3 * 1024 then 0x0F
  else 0

theorem blockImage_addr : (smallFs.desAt blockImage 0).blockBitmapAddr = 3 := by decide +kernel

theorem blockImage_apart : smallFs.BitmapsApart blockImage where
  bitmaps := fun g hg g' hg' hne => by
    have hc : smallFs.groupCount = 1 := rfl
    omega
  descriptors := by
    rintro g hg ⟨g', hg', he⟩
    have hc : smallFs.groupCount = 1 := rfl
    obtain rfl : g = 0 := by omega
    obtain rfl : g' = 0 := by omega
    rw [blockImage_addr] at he
    exact absurd he (by decide)

theorem blockImage_noError : smallFs.NoDiskError Io.calm blockImage := by
  have hc : smallFs.groupCount = 1 := rfl
  refine ⟨fun g hg => ?_, fun g hg => ?_⟩
  · obtain rfl : g = 0 := by omega
    decide +kernel
  · obtain rfl : g = 0 := by omega
    rw [blockImage_addr]
    decide +kernel

/-- A block of a file system that starts with the block 0. -/
theorem alloc_blocks_small :
    AllocBlocksLaw smallFs 0 blockImage 1 (ext2AllocBlocks smallFs Io.calm blockImage 1) := by
  have hgr : granted smallFs blockImage smallFs.groupCount 0 1 = [(0, 4)] := by decide +kernel
  refine (alloc_blocks_iff smallFs_ok.sized Io.calm_kernel blockImage_apart blockImage_noError (by decide) (by decide)
    le_rfl).2 (Or.inr (Or.inr (Or.inr ⟨by rw [hgr]; rfl, rfl, fun p hp => ?_⟩)))
  rw [hgr] at hp
  obtain rfl := List.mem_singleton.1 hp
  decide

/-- **A block in use is given out**: blocks of 1024 bytes are counted from 1, and the bit of the block 5 is set for the
address 4. -/
theorem alloc_blocks_in_use : (ext2AllocBlocks smallFs Io.calm blockImage 1).1 = GENERIC_SUCCESS ∧
    (ext2AllocBlocks smallFs Io.calm blockImage 1).2.1 = [4] ∧
    BlockFree smallFs blockImage blockImage 0 3 = false ∧
    smallFs.BitmapsApart blockImage ∧ smallFs.NoDiskError Io.calm blockImage ∧
    ¬ AllocBlocksLaw smallFs 1 blockImage 1 (ext2AllocBlocks smallFs Io.calm blockImage 1) := by
  have hst : (ext2AllocBlocks smallFs Io.calm blockImage 1).1 = GENERIC_SUCCESS := by decide +kernel
  have hret : (ext2AllocBlocks smallFs Io.calm blockImage 1).2.1 = [4] := by decide +kernel
  have hused : BlockFree smallFs blockImage blockImage 0 3 = false := by decide +kernel
  refine ⟨hst, hret, hused, blockImage_apart, blockImage_noError, fun hlaw => ?_⟩
  obtain ⟨-, -, hall, -⟩ := hlaw.1 hst
  rw [hret] at hall
  obtain ⟨g, hg, j, hj, he, hfree, -⟩ := hall 4 List.mem_cons_self
  have hc : smallFs.groupCount = 1 := rfl
  have hbpg : smallFs.blocksInGroup = 64 := rfl
  rw [hbpg] at he
  obtain ⟨rfl, rfl⟩ : g = 0 ∧ j = 3 := by omega
  rw [hused] at hfree
  cases hfree

end Nettapus
