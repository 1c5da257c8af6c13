import Nettapus.Proof.Ext2Init
import Nettapus.Proof.Ext2Listing
import Nettapus.Proof.Path

/-!
# The lookup of a path

`ext2_open_at` of a path that is put together from two is the lookup of the second one from where the first one leads:
`openSteps_append` for the steps, and `open_at_append` for the paths. The result 0 is an error only because there is
no inode 0 (`no_inode_zero`). That a lookup comes to an end is where the records of the directories matter
(`TiledDirs`).
-/

namespace Nettapus

open Bytes Ext2Fs Segments

variable {fs : Ext2Fs} {io : Io} {m : Mem} {node : Ext2Inode} {dev : Drive} {sb : Ext2Superblock} {special : Option Ext2Fs}
variable {d k num : ℕ} {a b path name : List UInt8} {xs ys : List (List UInt8)} {prev : UInt8}

/-! ## The inode 0 -/

/-- **There is no inode 0**: its group is behind the last one, whatever the superblock says. -/
theorem no_inode_zero (h : fs.Ok) (hinit : fsOfSuperblock dev sb special = .ret GENERIC_SUCCESS (some fs)) :
    ext2LoadInode fs io m 0 = none := by
  refine (ext2LoadInode_eq h).2 fun hopen => ?_
  have hgroup := hopen.2.1
  rcases fsOfSuperblock_cases dev sb special with
    ⟨-, he⟩ | ⟨-, -, he⟩ | ⟨-, -, -, -, he⟩ | ⟨-, hne, -, -, g, t, hg, -, he⟩
  · rw [he] at hinit
    cases hinit
  · rw [he] at hinit
    cases hinit
  · rw [he] at hinit
    exact absurd (InitResult.ret.inj hinit).1 (by decide)
  · rw [he] at hinit
    obtain rfl := Option.some.inj (InitResult.ret.inj hinit).2
    have hle := groupsOf_le hg
    have hcount : sb.inodeCount < 2 ^ 32 := load_lt _ 4 _
    have hpos : 0 < sb.inodesInGroup := Nat.pos_of_ne_zero hne
    have hsmall : sb.inodesInGroup < 2 ^ 32 := load_lt _ 4 _
    have hlast : sub64 0 1 = 2 ^ 64 - 1 := by decide
    unfold inodeGroup at hgroup
    rw [hlast] at hgroup
    dsimp only at hgroup
    -- the last number of 64 bits has a group that is far behind the last one
    have hbig : (2 ^ 64 - 1 : ℕ) = 2 ^ 32 * (2 ^ 32 - 1) + (2 ^ 32 - 1) := by decide
    have h1 : 2 ^ 32 + 1 ≤ (2 ^ 64 - 1) / sb.inodesInGroup := by
      rw [Nat.le_div_iff_mul_le hpos, hbig]
      calc (2 ^ 32 + 1) * sb.inodesInGroup ≤ (2 ^ 32 + 1) * (2 ^ 32 - 1) := Nat.mul_le_mul_left _ (by omega)
        _ ≤ 2 ^ 32 * (2 ^ 32 - 1) + (2 ^ 32 - 1) := by decide
    omega

/-! ## Steps -/

/-- The inode that `ext2_open_at` begins with. -/
def startInode (fs : Ext2Fs) (io : Io) (m : Mem) (d : ℕ) : Ext2Inode :=
  (ext2LoadInode fs io m d).getD ⟨io.garbage⟩

theorem startInode_of_load (h : ext2LoadInode fs io m d = some node) : startInode fs io m d = node := by
  unfold startInode
  rw [h]
  rfl

/-- **Steps one after the other**, from an inode that is loaded. -/
theorem openSteps_append (h0 : ext2LoadInode fs io m 0 = none) (ys : List (List UInt8)) :
    ∀ (xs : List (List UInt8)) (node : Ext2Inode) (num : ℕ), ext2LoadInode fs io m num = some node →
      openSteps fs io m (xs ++ ys) node num = (openSteps fs io m xs node num).bind fun k =>
        if k = 0 then some 0 else openSteps fs io m ys (startInode fs io m k) k := by
  intro xs
  induction xs with
  | nil =>
    intro node num hload
    have hnum : num ≠ 0 := by
      rintro rfl
      exact absurd (h0.symm.trans hload) (by simp)
    rw [List.nil_append, openSteps, Option.bind_some, if_neg hnum, startInode_of_load hload]
  | cons x xs ih =>
    intro node num hload
    rw [List.cons_append, openSteps, openSteps]
    cases ext2SearchDir fs io m node x with
    | none => rfl
    | some found =>
      rw [Option.bind_some, Option.bind_some]
      cases found with
      | none => rfl
      | some entry =>
        dsimp only
        cases hnext : ext2LoadInode fs io m entry.inode with
        | none => rfl
        | some next => exact ih next entry.inode hnext

/-- The lookup of a path with short segments. The path `/` is not an exception. -/
theorem ext2OpenAt_eq (hmem : ∀ s, io.noMem s = false) (prev : UInt8) (d : ℕ)
    (hshort : ∀ c ∈ segments slash path, c.length ≤ 0xFF) :
    ext2OpenAt fs io m prev d path = openSteps fs io m (segments slash path) (startInode fs io m d) d := by
  unfold ext2OpenAt
  by_cases hroot : path = [slash]
  · rw [if_pos hroot, hroot, segments_cons_self, segments_nil, openSteps]
  · rw [if_neg hroot, hmem, if_neg (by decide), fsParsePath_eq prev hshort, Option.bind_some]
    rfl

/-! ## Lookups that end -/

/-- **The directories are tiled**: whatever the driver takes for a directory has blocks that are filled by their records. -/
def TiledDirs (fs : Ext2Fs) (io : Io) (m : Mem) : Prop :=
  ∀ n node, ext2LoadInode fs io m n = some node → node.typePerm &&& 0x4000 ≠ 0 → ∀ k, fs.fileBlock m node k ≠ 0 →
    ∃ offs, Tiles fs.blockSize (fs.blockAt m (fs.fileBlock m node k)) 0 offs

/-- A search ends at the first block that is not there or does not load, or at the record. -/
theorem searchLoop_returns (h : fs.Ok) (hmem : ∀ s, io.noMem s = false)
    (ht : ∀ k, fs.fileBlock m node k ≠ 0 → ∃ offs, Tiles fs.blockSize (fs.blockAt m (fs.fileBlock m node k)) 0 offs) :
    ∀ {fuel block : ℕ} {dir : Mem}, 0 < fuel → fs.blockSize / 4 < fuel + block →
      ∃ r, searchLoop fs io m name node fuel block dir = some r := by
  intro fuel
  induction fuel with
  | zero => exact fun h0 => absurd h0 (lt_irrefl 0)
  | succ fuel ih =>
    intro block dir _ hfuel
    rw [searchLoop]
    by_cases hzero : ext2BlockInInode fs io m node block = 0
    · rw [if_pos hzero]
      exact ⟨none, rfl⟩
    rw [if_neg hzero]
    rw [ext2BlockInInode_eq h] at hzero ⊢
    by_cases hmap : fs.opensMap io node block = true
    · -- a block of the directory
      rw [if_pos hmap] at hzero ⊢
      rw [hmem, if_neg (by decide), ext2LoadBlocks_eq h (fileBlock_lt.trans (by decide))]
      by_cases hload : fs.loads io (fs.fileBlock m node block) = true
      · obtain ⟨offs, htiles⟩ := ht block hzero
        have htiles' : Tiles fs.blockSize (overlay fs m (fs.fileBlock m node block) dir) 0 offs :=
          htiles.congr fun x hx => (overlay_eq hx).symm
        have hlen := htiles'.length_le
        have hbound := h.fileBlock_bound hzero
        rw [if_pos hload]
        dsimp only
        rw [searchBlock_spec htiles' (by omega) (by omega), Option.bind_some]
        cases offs.find? fun j => cString (entryName (overlay fs m (fs.fileBlock m node block) dir) j) = name with
        | none => exact ih (by omega) (by omega)
        | some j =>
          dsimp only
          rw [hmem, if_neg (by decide)]
          exact ⟨_, rfl⟩
      · rw [if_neg hload]
        exact ⟨none, rfl⟩
    · rw [if_neg hmap] at hzero
      exact absurd rfl hzero

theorem ext2SearchDir_returns (h : fs.Ok) (hmem : ∀ s, io.noMem s = false) (ht : TiledDirs fs io m)
    (hload : ext2LoadInode fs io m num = some node) (name : List UInt8) :
    ∃ r, ext2SearchDir fs io m node name = some r := by
  unfold ext2SearchDir
  split_ifs with hdir
  · exact ⟨none, rfl⟩
  · exact searchLoop_returns h hmem (ht num node hload hdir) (by omega) (by omega)

/-- **A lookup ends**, if the directories are tiled. -/
theorem openSteps_returns (h : fs.Ok) (hmem : ∀ s, io.noMem s = false) (ht : TiledDirs fs io m) :
    ∀ (xs : List (List UInt8)) (node : Ext2Inode) (num : ℕ), ext2LoadInode fs io m num = some node →
      ∃ k, openSteps fs io m xs node num = some k := by
  intro xs
  induction xs with
  | nil => exact fun _ num _ => ⟨num, rfl⟩
  | cons x xs ih =>
    intro node num hload
    obtain ⟨found, hfound⟩ := ext2SearchDir_returns h hmem ht hload x
    rw [openSteps, hfound, Option.bind_some]
    cases found with
    | none => exact ⟨0, rfl⟩
    | some entry =>
      dsimp only
      cases hnext : ext2LoadInode fs io m entry.inode with
      | none => exact ⟨0, rfl⟩
      | some next => exact ih next entry.inode hnext

/-! ## Paths -/

/-- **A path that is put together from two** leads to where the second one leads from the end of the first one, and to an
error if the first one does. If the directories are tiled, all these lookups end. -/
theorem open_at_append (h : fs.Ok) (hinit : fsOfSuperblock dev sb special = .ret GENERIC_SUCCESS (some fs))
    (hmem : ∀ s, io.noMem s = false) (hload : ext2LoadInode fs io m d = some node)
    (ha : ∀ c ∈ segments slash a, c.length ≤ 0xFF) (hb : ∀ c ∈ segments slash b, c.length ≤ 0xFF)
    (prev prev' prev'' : UInt8) :
    ext2OpenAt fs io m prev' d (a ++ slash :: b) = ((ext2OpenAt fs io m prev d a).bind fun k =>
      if k = 0 then some 0 else ext2OpenAt fs io m prev'' k b) ∧
    (TiledDirs fs io m → ∃ k r, ext2OpenAt fs io m prev d a = some k ∧
      ext2OpenAt fs io m prev' d (a ++ slash :: b) = some r ∧
      (k ≠ 0 → ext2OpenAt fs io m prev'' k b = some r) ∧ (k = 0 → r = 0)) := by
  have h0 : ext2LoadInode fs io m 0 = none := no_inode_zero h hinit
  have hshort : ∀ c ∈ segments slash (a ++ slash :: b), c.length ≤ 0xFF := by
    rw [segments_append, List.forall_mem_append]
    exact ⟨ha, hb⟩
  have hlaw : ext2OpenAt fs io m prev' d (a ++ slash :: b) = (ext2OpenAt fs io m prev d a).bind fun k =>
      if k = 0 then some 0 else ext2OpenAt fs io m prev'' k b := by
    rw [ext2OpenAt_eq hmem prev' d hshort, ext2OpenAt_eq hmem prev d ha, segments_append, startInode_of_load hload,
      openSteps_append h0 _ _ _ _ hload]
    congr 1
    funext k
    rw [ext2OpenAt_eq hmem prev'' k hb]
  refine ⟨hlaw, fun ht => ?_⟩
  obtain ⟨k, hk⟩ := openSteps_returns h hmem ht (segments slash a) node d hload
  obtain ⟨r, hr⟩ := openSteps_returns h hmem ht (segments slash (a ++ slash :: b)) node d hload
  rw [← startInode_of_load hload, ← ext2OpenAt_eq hmem prev d ha] at hk
  rw [← startInode_of_load hload, ← ext2OpenAt_eq hmem prev' d hshort] at hr
  rw [hr, hk, Option.bind_some] at hlaw
  refine ⟨k, r, hk, hr, fun hne => ?_, fun hz => ?_⟩
  · rw [if_neg hne] at hlaw
    exact hlaw.symm
  · rw [if_pos hz] at hlaw
    exact Option.some.inj hlaw

/-- The fields of an inode are at a place that its group and its index give. -/
theorem inodeAt_congr {n n' : ℕ} (hg : inodeGroup fs n = inodeGroup fs n') (hi : inodeIndex fs n = inodeIndex fs n') :
    fs.inodeAt m n = fs.inodeAt m n' := by
  unfold Ext2Fs.inodeAt Ext2Fs.inodeBlock Ext2Fs.desBlock
  rw [hg, hi]

/-- The inode 2 is the only directory of this image. -/
theorem shortDir_tiled : TiledDirs smallFs Io.quiet (dirImage shortName) := by
  have htypes : ∀ g < 2, ∀ i < 8, ¬ (g = 0 ∧ i = 1) →
      load (fun x => smallFs.blockAt (dirImage shortName)
        (load (smallFs.blockAt (dirImage shortName) (g / (smallFs.blockSize / groupDesSize) + smallFs.groupDesTableBlock))
          (g % (smallFs.blockSize / groupDesSize) * groupDesSize + 8) 4 + i * inodeSize / smallFs.blockSize)
        (i % (smallFs.blockSize / inodeSize) * inodeSize + x)) 0 2 &&& 0x4000 = 0 := by decide +kernel
  intro n node hload hdir k hk
  obtain ⟨hopen, hsame⟩ := smallFs_ok.loadInode_same hload
  have htype : node.typePerm = (smallFs.inodeAt (dirImage shortName) n).typePerm := hsame.field (by decide)
  have hg : inodeGroup smallFs n < 2 := Nat.lt_succ_of_le hopen.2.1
  have hi : inodeIndex smallFs n < 8 := Nat.mod_lt _ (by decide)
  obtain ⟨h0, h1⟩ : inodeGroup smallFs n = 0 ∧ inodeIndex smallFs n = 1 := by
    by_contra hne
    rw [htype] at hdir
    exact hdir (htypes _ hg _ hi hne)
  have hroot := (smallFs_ok.loadInode_same shortDir_ok.load).2
  rw [inodeAt_congr (h0.trans (by decide : (0 : ℕ) = inodeGroup smallFs 2)) (h1.trans (by decide : 1 = inodeIndex smallFs 2))]
    at hsame
  have hblock : smallFs.fileBlock (dirImage shortName) node k =
      smallFs.fileBlock (dirImage shortName) (dirNode shortName) k := hsame.fileBlock.trans hroot.fileBlock.symm
  rw [hblock] at hk ⊢
  exact ⟨_, shortDir_ok.tiled k hk⟩

/-- `a/e`, where `a` is a file with the inode 11. -/
theorem open_at_append_file : ext2OpenAt smallFs Io.quiet (dirImage shortName) 0 2 [97] = some 11 ∧
    ∃ r, ext2OpenAt smallFs Io.quiet (dirImage shortName) 0 2 ([97] ++ slash :: [101]) = some r ∧
      ext2OpenAt smallFs Io.quiet (dirImage shortName) 0 11 [101] = some r := by
  have hfile : ext2OpenAt smallFs Io.quiet (dirImage shortName) 0 2 [97] = some 11 := by decide +kernel
  have hinit : fsOfSuperblock smallFs.dev (smallFs.dev.superblock (superImage 0 0)) none =
      .ret GENERIC_SUCCESS (some smallFs) := by decide +kernel
  obtain ⟨k, r, hk, hr, hgo, -⟩ := (open_at_append smallFs_ok hinit (fun _ => rfl) shortDir_ok.load
    (by decide : ∀ c ∈ segments slash [97], c.length ≤ 0xFF) (by decide : ∀ c ∈ segments slash [101], c.length ≤ 0xFF)
    0 0 0).2 shortDir_tiled
  obtain rfl := Option.some.inj (hfile.symm.trans hk)
  exact ⟨hfile, r, hr, hgo (by decide)⟩

end Nettapus
