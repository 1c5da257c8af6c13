import Nettapus.Code.Ext2Mknod
import Nettapus.Proof.Ext2Listing

/-!
# Making a node

`CreateLaw` is what a caller of `ext2_mknod` expects: the number of a new inode, found again under its name,
and everything else as it was. The function has no such result: on every path it returns 0, also on the one
without errors (`ext2Mknod_result`).
-/

namespace Nettapus

open Bytes Ext2Fs

variable {fs : Ext2Fs} {io : Io} {m m' : Mem}

/-- The inode `n` is marked as used in the bitmap of its group. -/
def InodeUsed (fs : Ext2Fs) (io : Io) (m : Mem) (n : ℕ) : Prop :=
  ∃ gdes, ext2LoadGroupDes fs io m (inodeGroup fs n) = some gdes ∧
    bitClear (fs.blockAt m gdes.inodeBitmapAddr) (inodeIndex fs n) = false

/-- A directory in which a node of this name can be made: there is room for a record, and a free inode and a free
block are left. -/
structure CanCreate (fs : Ext2Fs) (io : Io) (m : Mem) (parentInode : ℕ) (node : Ext2Inode) (offs : ℕ → List ℕ)
    (fileName : List UInt8) : Prop where
  dir : DirOk fs io m parentInode node offs
  room : ∃ p ∈ records fs m node offs,
    (entryAt fs m node p).nameLen + 8 + 3 + (fileName.length + 8 + 3) ≤ (entryAt fs m node p).size
  inode : ∃ i < fs.groupCount, ∃ gdes, ext2LoadGroupDes fs io m i = some gdes ∧ 0 < gdes.freeInodeCount ∧
    ∃ j < fs.inodesInGroup, bitClear (fs.blockAt m gdes.inodeBitmapAddr) j = true
  block : ∃ i < fs.groupCount, ∃ gdes, ext2LoadGroupDes fs io m i = some gdes ∧ 0 < gdes.freeBlockCount ∧
    ∃ j < fs.blocksInGroup, bitClear (fs.blockAt m gdes.blockBitmapAddr) j = true
  length : 1 ≤ fileName.length ∧ fileName.length ≤ 255
  chars : (0 : UInt8) ∉ fileName ∧ slash ∉ fileName
  new : ∀ p ∈ live fs m node offs, nameAt fs m node p ≠ fileName

/-- What the call should do. -/
def CreateLaw (fs : Ext2Fs) (io : Io) (m : Mem) (parentInode : ℕ) (fileName : List UInt8) (typePerm uid gid : ℕ) :
    Prop :=
  ∃ n m', ext2Mknod fs io m parentInode fileName typePerm uid gid = some (n, m') ∧ n ≠ 0 ∧
    ¬ InodeUsed fs io m n ∧
    (∀ prev, ext2OpenAt fs io m' prev parentInode fileName = some n) ∧
    (∀ prev path k, ext2OpenAt fs io m prev 2 path = some k → k ≠ 0 →
      ext2OpenAt fs io m' prev 2 path = some k ∧ fs.sizeOf m' k = fs.sizeOf m k ∧
        ∀ i < fs.sizeOf m k, fs.content m' k i = fs.content m k i) ∧
    ∀ k, fs.fileBlock m' (fs.inodeAt m' parentInode) k ≠ 0 → ∃ offs,
      Tiles fs.blockSize (fs.blockAt m' (fs.fileBlock m' (fs.inodeAt m' parentInode) k)) 0 offs

/-- **Every result of `ext2_mknod` is 0**, which is also what it returns on an error. -/
theorem ext2Mknod_result {parentInode typePerm uid gid n : ℕ} {fileName : List UInt8}
    (h : ext2Mknod fs io m parentInode fileName typePerm uid gid = some (n, m')) : n = 0 := by
  unfold ext2Mknod at h
  dsimp only at h
  by_cases h1 : parentInode < 2
  · rw [if_pos h1] at h
    exact (congrArg Prod.fst (Option.some.inj h)).symm
  rw [if_neg h1] at h
  by_cases h2 : io.noMem inodeSize = true
  · rw [if_pos h2] at h
    exact absurd h (by simp)
  rw [if_neg h2] at h
  split at h
  · exact (congrArg Prod.fst (Option.some.inj h)).symm
  · obtain ⟨i, -, hi⟩ := Option.map_eq_some_iff.1 h
    split at hi
    · exact (congrArg Prod.fst hi).symm
    · split at hi
      · exact (congrArg Prod.fst hi).symm
      · exact (congrArg Prod.fst hi).symm

/-- **No call does what is expected of it.** -/
theorem create_law_never (fs : Ext2Fs) (io : Io) (m : Mem) (parentInode : ℕ) (fileName : List UInt8)
    (typePerm uid gid : ℕ) : ¬ CreateLaw fs io m parentInode fileName typePerm uid gid := by
  rintro ⟨n, m', h, hn, -⟩
  exact hn (ext2Mknod_result h)

/-- The name of the new node. -/
def newName : List UInt8 := [110, 101, 119]

theorem shortDir_canCreate : CanCreate smallFs Io.quiet (dirImage shortName) 2 (dirNode shortName) dirOffs newName where
  dir := shortDir_ok
  room := ⟨(0, 12), by decide +kernel, by decide +kernel⟩
  inode := ⟨0, by decide, _, rfl, by decide +kernel, 2, by decide, by decide +kernel⟩
  block := ⟨0, by decide, _, rfl, by decide +kernel, 21, by decide, by decide +kernel⟩
  length := by decide
  chars := by decide
  new := by decide +kernel

/-- The root directory has room, and 0 is returned. The new name is not found afterwards: its record went behind
the buffer. -/
theorem mknod_returns_zero : smallFs.Ok ∧
    CanCreate smallFs Io.quiet (dirImage shortName) 2 (dirNode shortName) dirOffs newName ∧
    (∃ m', ext2Mknod smallFs Io.quiet (dirImage shortName) 2 newName 0 0 0 = some (0, m') ∧
      ext2OpenAt smallFs Io.quiet m' 0 2 newName = some 0) ∧
    ¬ CreateLaw smallFs Io.quiet (dirImage shortName) 2 newName 0 0 0 := by
  refine ⟨smallFs_ok, shortDir_canCreate, ?_, fun ⟨n, m', h, hn, _⟩ => hn (ext2Mknod_result h)⟩
  have hrun : (ext2Mknod smallFs Io.quiet (dirImage shortName) 2 newName 0 0 0).bind
      (fun r => (ext2OpenAt smallFs Io.quiet r.2 0 2 newName).map fun k => (r.1, k)) = some (0, 0) := by
    decide +kernel
  obtain ⟨⟨n, m'⟩, h, hk⟩ := Option.bind_eq_some_iff.1 hrun
  obtain ⟨k, hopen, hpair⟩ := Option.map_eq_some_iff.1 hk
  obtain ⟨rfl, rfl⟩ := Prod.mk.inj hpair
  exact ⟨m', h, hopen⟩

end Nettapus
