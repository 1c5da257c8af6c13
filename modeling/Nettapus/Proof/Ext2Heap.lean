import Nettapus.Proof.HeapFit
import Nettapus.Proof.Ext2File

/-!
# Block sizes that the heap allows

`drive_read_sectors` does nothing for `0xFFFF` sectors and more, and reports success. The driver never gets there:
it loads a block into a buffer of its own, and the heap of the kernel has one megabyte (`Io.Kernel.le`). So a
file system with any block size (`Ext2Fs.Sized`) either has blocks for which there is memory, and is
one to which the lemmas about blocks apply (`Ext2Fs.Sized.ok`), or none of its blocks is ever loaded.
-/

namespace Nettapus

open Bytes Runs Ext2Fs

variable {fs : Ext2Fs} {io : Io} {m : Mem} {b n : ℕ} {node : Ext2Inode}

/-! ## What `kmalloc` has -/

/-- `kmalloc` is the kernel's: it has a block of a size if some state of the heap has one. -/
def Io.Kernel (io : Io) : Prop := ∀ n, io.noMem n = false →
  ∃ s, Reach NewHeap heapStep Any s ∧ ∃ p h', kmalloc s.heap n = some (p, h') ∧ p ≠ NULL

/-- No block of no bytes, and none that is larger than the heap. -/
theorem Io.Kernel.le (hk : io.Kernel) (hn : n ≤ 2 ^ 64 - 4) (hm : io.noMem n = false) : 0 < n ∧ n ≤ 0xFFFE8 := by
  obtain ⟨s, hs, p, h', h1, h2⟩ := hk n hm
  rcases Nat.eq_zero_or_pos n with rfl | h0
  · rw [kmalloc, if_pos rfl] at h1
    exact absurd (congrArg Prod.fst (Option.some.inj h1)).symm h2
  · obtain ⟨F, A, hr⟩ := heapReach_rep hs
    obtain ⟨q, g, h3, h4, -⟩ := firstFit_of_le hr.inv h0 hn
    obtain ⟨rfl, rfl⟩ := Prod.mk.inj (Option.some.inj (h1.symm.trans h3))
    obtain ⟨c, hc, hle⟩ : ∃ c ∈ F, n ≤ c.size := by
      by_contra hno
      push Not at hno
      exact h2 (h4.2 hno)
    have hok := hr.inv.okF c hc
    have h5 := hok.lo
    have h6 := hok.hi
    unfold Chunk.fin heapStop at h6
    omega

theorem Io.Kernel.noMem_zero (hk : io.Kernel) : io.noMem 0 = true := by
  by_contra h
  exact absurd (hk.le (Nat.zero_le _) (by simpa using h)).1 (by decide)

/-- A heap that is free, and a device without errors. -/
def Io.calm : Io := ⟨fun _ _ => none, fun n => n = 0 || 0xFFFE8 < n, fun _ => 0⟩

theorem Io.calm_kernel : Io.calm.Kernel := by
  intro n hn
  have h0 : 0 < n ∧ n ≤ 0xFFFE8 := by
    simp only [Io.calm, Bool.or_eq_false_iff, decide_eq_false_iff_not] at hn
    omega
  have hi : HeapInv clearedHeap [⟨heapStart, 0x100000 - 24⟩] [] := (initHeap_rep _).inv
  obtain ⟨p, h', h1, h2, -⟩ := firstFit_of_le hi h0.1 (by omega)
  refine ⟨⟨clearedHeap, []⟩, .init ⟨_, rfl⟩, p, h', h1, fun hp => ?_⟩
  have hlt : 0x100000 - 24 < n := h2.1 hp _ List.mem_cons_self
  omega

/-! ## File systems of any block size -/

/-- What `ext2_init_fs` makes of a superblock of any block size. -/
structure Ext2Fs.Sized (fs : Ext2Fs) : Prop where
  drive : fs.dev.Accepted
  dev : fs.dev.dev.Ok
  pow : ∃ k, fs.blockSize = 1024 * 2 ^ k
  size_lt : fs.blockSize < 2 ^ 64
  inodes_pos : 0 < fs.inodesInGroup
  inodes_lt : fs.inodesInGroup < 2 ^ 32
  table_lt : fs.groupDesTableBlock < 2 ^ 32
  groups_lt : fs.groupCount < 2 ^ 33

theorem Ext2Fs.Ok.sized (h : fs.Ok) : fs.Sized := by
  have := h.small
  exact ⟨h.drive, h.dev, h.pow, by omega, h.inodes_pos, h.inodes_lt, h.table_lt, h.groups_lt⟩

/-- If there is memory for a block, the block has few sectors. -/
theorem Ext2Fs.Sized.ok (h : fs.Sized) (hk : io.Kernel) (hm : io.noMem fs.blockSize = false) : fs.Ok := by
  obtain ⟨k, hpow⟩ := h.pow
  have hlt := h.size_lt
  have hle := (hk.le (by omega) hm).2
  exact ⟨h.drive, h.dev, h.pow, by omega, h.inodes_pos, h.inodes_lt, h.table_lt, h.groups_lt⟩

/-- Without memory for a block nothing is loaded. -/
theorem loadBlock_noMem (hm : io.noMem fs.blockSize = true) : loadBlock fs io m b = none := if_pos hm

theorem ext2LoadGroupDes_noMem (hm : io.noMem fs.blockSize = true) : ext2LoadGroupDes fs io m n = none := by
  unfold ext2LoadGroupDes
  dsimp only
  rw [loadBlock_noMem hm, Option.map_none, ite_self]

/-- If an inode loads, there was memory for a block. -/
theorem mem_of_loadInode (h : ext2LoadInode fs io m n = some node) : io.noMem fs.blockSize = false := by
  by_contra hm
  unfold ext2LoadInode at h
  dsimp only at h
  rw [ext2LoadGroupDes_noMem (by simpa using hm), Option.bind_none, ite_self] at h
  cases h

theorem Ext2Fs.Sized.ok_of_loadInode (h : fs.Sized) (hk : io.Kernel) (hl : ext2LoadInode fs io m n = some node) :
    fs.Ok := h.ok hk (mem_of_loadInode hl)

/-- The inode that is loaded is the one on the disk. -/
theorem Ext2Fs.Ok.loadInode_same (h : fs.Ok) (hl : ext2LoadInode fs io m n = some node) :
    fs.opensInode io m n ∧ node.Same (fs.inodeAt m n) := by
  by_cases ho : fs.opensInode io m n
  · obtain ⟨node', h1, h2⟩ := (ext2LoadInode_eq h).1 ho
    obtain rfl := Option.some.inj (hl.symm.trans h1)
    exact ⟨ho, h2⟩
  · rw [(ext2LoadInode_eq h).2 ho] at hl
    cases hl

end Nettapus
