import Nettapus.Proof.ElfLoad
import Nettapus.Proof.Seek

/-!
# The copies of `load_elf`

* `WindowCopy`: what `memset` and `kread` write through the window for a segment. `CopiesInside` is what is asked of them:
  they stay in the pages of the segment, which were free, and these end before the kernel's heap.
* `requested`: how much of the file the driver is asked for. It has nothing to do with the pages.
* `copiesInside_iff`: the copies for a segment are inside just if it fits into the window, there are so many free pages in
  a row, and the file does not give it more than it has pages.
* `ElfVisits`: `load_elf` comes to a segment; `ElfVisits.spec` is the state that it is in. `elf_visits`: it comes to all.
* `elf_window_iff`: so it is for every segment that a run comes to.
-/

namespace Nettapus

open Forest Runs

variable {disk : ℕ → DriverRead} {special : FileDescriptor → ℤ → Option (Delivered FileDescriptor)} {fd : ℤ}
variable {node : FileVnode} {content : List UInt8} {s s' v : Loader} {z : Spaces} {r n i pos : ℕ} {e : ElfPhdr}
  {l : List UInt8} {m : MemoryMap}

/-! ## The driver -/

/-- A driver puts no more bytes into the buffer than it is asked for, also if it fails. -/
def Bounded (disk : ℕ → DriverRead) (node : FileVnode) : Prop :=
  ∀ k off n st l, disk k node.inodeNum off n = some (st, l) → l.length ≤ n

theorem readLoop_length {fs : Ext2Fs} {io : Io} {m : Bytes.Mem} {inode : Ext2Inode} :
    ∀ {fuel : ℕ} {dataBuf : Bytes.Mem} {off n block : ℕ} {out : List UInt8} {a : ℤ × List UInt8},
      readLoop fs io m inode fuel dataBuf off n block out = some a → a.2.length ≤ out.length + n := by
  intro fuel
  induction fuel with
  | zero =>
    intro dataBuf off n block out a h
    unfold readLoop at h
    split_ifs at h
    obtain rfl := Option.some.inj h
    exact Nat.le_add_right _ _
  | succ fuel ih =>
    intro dataBuf off n block out a h
    unfold readLoop at h
    split_ifs at h
    · obtain rfl := Option.some.inj h
      exact Nat.le_add_right _ _
    · dsimp only at h
      split_ifs at h
      · obtain rfl := Option.some.inj h
        exact Nat.le_add_right _ _
      · cases hload : ext2LoadBlocks fs io m dataBuf (ext2BlockInInode fs io m inode block) 1 with
        | none =>
          rw [hload] at h
          obtain rfl := Option.some.inj h
          exact Nat.le_add_right _ _
        | some dataBuf' =>
          rw [hload] at h
          have hrest := ih h
          have hle : toCopy fs off n ≤ n := toCopy_le
          rw [List.length_append] at hrest
          have hlen : (Bytes.bytes dataBuf' off (toCopy fs off n)).length = toCopy fs off n := by simp [Bytes.bytes]
          omega

/-- The ext2 driver is one. -/
theorem ext2_bounded (fs : Ext2Fs) (io : ℕ → Io) (m : Bytes.Mem) (node : FileVnode) :
    Bounded (fun k => ext2ReadFile fs (io k) m) node := by
  intro k off n st l h
  unfold ext2ReadFile at h
  dsimp only at h
  by_cases hi : node.inodeNum ≤ 2
  · rw [if_pos hi] at h
    obtain ⟨-, rfl⟩ := Prod.mk.inj (Option.some.inj h)
    exact Nat.zero_le _
  · rw [if_neg hi] at h
    cases hinode : ext2LoadInode fs (io k) m node.inodeNum with
    | none =>
      rw [hinode] at h
      obtain ⟨-, rfl⟩ := Prod.mk.inj (Option.some.inj h)
      exact Nat.zero_le _
    | some inode =>
      rw [hinode] at h
      dsimp only at h
      split_ifs at h
      · obtain ⟨-, rfl⟩ := Prod.mk.inj (Option.some.inj h)
        exact Nat.zero_le _
      · obtain ⟨-, rfl⟩ := Prod.mk.inj (Option.some.inj h)
        exact Nat.zero_le _
      · have hloop := readLoop_length h
        rwa [List.length_nil, Nat.zero_add] at hloop

/-! ## What is read -/

/-- The place after `kseek` to the data of a segment. -/
def seekPos (size pos dataOff : ℕ) : ℕ :=
  if 2 ^ 63 ≤ dataOff then pos else if dataOff ≥ size then size - 1 else dataOff

/-- What the driver is asked for: the data up to the end of the file, or everything if the end is behind 2^64. -/
def requested (size pos sizeFile : ℕ) : ℕ :=
  if sizeFile = 0 then 0 else if 2 ^ 64 ≤ sizeFile + pos then sizeFile else min sizeFile (size - pos)

theorem seekPos_le {size pos dataOff : ℕ} (hpos : pos ≤ size) : seekPos size pos dataOff ≤ size := by
  unfold seekPos
  split_ifs <;> omega

theorem toInt64_neg {a : ℕ} (h : 2 ^ 63 ≤ a) (h' : a < 2 ^ 64) : toInt64 a < 0 := by
  unfold toInt64
  rw [if_neg (by omega)]
  omega

/-- `kseek` to the data of a segment. -/
theorem seek_data {dataOff : ℕ} (hF : Holds disk node content) (hp : AtPos s.fds fd node pos)
    (hpos : 0 < content.length) (hlt : dataOff < 2 ^ 64) : ∃ s', s.seek fd (toInt64 dataOff) = some s' ∧
      s'.spaces = s.spaces ∧ AtPos s'.fds fd node (seekPos content.length pos dataOff) := by
  have hp' := hp
  obtain ⟨⟨node', file, num, p, mode⟩, ho, hn, hm, hpp⟩ := hp
  obtain rfl : node' = some node := hn
  obtain rfl : p = pos := hpp
  have hfd := ho.nonneg
  have hsz := hF.size
  have hlen := hF.lt
  unfold Loader.seek kseek seekPos
  rw [if_neg (by omega), ho.find, Option.map_some, if_neg ho.file]
  by_cases hneg : 2 ^ 63 ≤ dataOff
  · rw [if_pos (toInt64_neg hneg hlt), if_pos hneg]
    exact ⟨_, rfl, rfl, hp'⟩
  · have hint : ¬ toInt64 dataOff < 0 := by
      unfold toInt64
      rw [if_pos (by omega)]
      omega
    rw [if_neg hint, if_neg hneg]
    dsimp only
    rw [toSize_toInt64 hlt, hsz]
    refine ⟨_, rfl, rfl, ?_⟩
    split_ifs with hend
    · rw [sub64_of_le (by omega) (by omega)]
      exact atPos_setFd ho rfl hm _
    · exact atPos_setFd ho rfl hm _

/-- What `vfs_read_file` asks the driver for. -/
theorem vfsReadFile_requested (read : DriverRead) {fdes : FileDescriptor} {sizeFile : ℕ} (hn : fdes.node = some node)
    (hm : fdes.mode = FD_READ) (hle : fdes.pos ≤ node.size) (hsize : node.size < 2 ^ 63) (hlt : sizeFile < 2 ^ 64) :
    (requested node.size fdes.pos sizeFile = 0 ∧
      ∃ st, vfsReadFile read fdes (toInt64 sizeFile) = some ⟨st, [], fdes⟩) ∨
    (requested node.size fdes.pos sizeFile ≠ 0 ∧ ∃ f : ℤ × List UInt8 → FileDescriptor,
      vfsReadFile read fdes (toInt64 sizeFile) =
        (read node.inodeNum fdes.pos (requested node.size fdes.pos sizeFile)).map fun a => ⟨a.1, a.2, f a⟩) := by
  unfold vfsReadFile requested
  rw [hn]
  dsimp only
  by_cases h0 : sizeFile = 0
  · rw [if_pos h0, h0, if_pos (show toInt64 0 = 0 from rfl)]
    exact .inl ⟨rfl, _, rfl⟩
  have hne : toInt64 sizeFile ≠ 0 := by
    intro hz
    have hback := toSize_toInt64 hlt
    rw [hz] at hback
    exact h0 hback.symm
  rw [if_neg h0, if_neg hne, if_neg (not_not_intro hm), toSize_toInt64 hlt]
  by_cases hwrap : 2 ^ 64 ≤ sizeFile + fdes.pos
  · -- the sum of the amount and the position is small again
    have hu : ¬ u64 (sizeFile + fdes.pos) > node.size := by
      unfold u64
      omega
    rw [if_pos hwrap, if_neg hu, if_neg hne, toSize_toInt64 hlt]
    exact .inr ⟨h0, _, rfl⟩
  rw [if_neg hwrap, u64_of_lt (by omega)]
  by_cases hend : sizeFile + fdes.pos > node.size
  · have hint : toInt64 (sub64 node.size fdes.pos) = ((node.size - fdes.pos : ℕ) : ℤ) := by
      rw [sub64_of_le hle (by omega)]
      exact if_pos (by omega)
    rw [if_pos hend, hint, Nat.min_eq_right (by omega)]
    by_cases hk : node.size - fdes.pos = 0
    · rw [if_pos (by omega)]
      exact .inl ⟨hk, _, rfl⟩
    · rw [if_neg (by omega), toSize_of_nonneg (by omega) (by omega), Int.toNat_natCast]
      exact .inr ⟨hk, _, rfl⟩
  · rw [if_neg hend, if_neg hne, toSize_toInt64 hlt, Nat.min_eq_left (by omega)]
    exact .inr ⟨h0, _, rfl⟩

/-- **The read of a segment's data.** -/
theorem read_data (special : FileDescriptor → ℤ → Option (Delivered FileDescriptor)) {sizeFile : ℕ}
    (hF : Holds disk node content) (hp : AtPos s.fds fd node pos) (hle : pos ≤ content.length) (hlt : sizeFile < 2 ^ 64) :
    ∃ d, s.read disk special fd (toInt64 sizeFile) = some d ∧ d.state.spaces = s.spaces ∧
      (requested content.length pos sizeFile = 0 → d.data = []) ∧
      (requested content.length pos sizeFile ≠ 0 → ∃ st,
        disk s.calls node.inodeNum pos (requested content.length pos sizeFile) = some (st, d.data)) := by
  obtain ⟨fdes, ho, hn, hm, rfl⟩ := hp
  have hsz := hF.size
  have hlen := hF.lt
  unfold Loader.read
  rw [kread_eq ho hn, ← hsz]
  rcases vfsReadFile_requested (disk s.calls) hn hm (by omega) (by omega) hlt with ⟨hk, st, hread⟩ | ⟨hk, f, hread⟩
  · rw [hread]
    exact ⟨_, rfl, rfl, fun _ => rfl, fun hne => absurd hk hne⟩
  · obtain ⟨a, ha⟩ : ∃ a, disk s.calls node.inodeNum fdes.pos (requested node.size fdes.pos sizeFile) = some a := by
      rcases hF.serves s.calls fdes.pos _ (Nat.pos_of_ne_zero hk) with ⟨hr, -⟩ | ⟨e, l, -, -, hr⟩
      · exact ⟨_, hr⟩
      · exact ⟨_, hr⟩
    rw [hread, ha]
    exact ⟨_, rfl, rfl, fun hz => absurd hz hk, fun _ => ⟨a.1, rfl⟩⟩

/-! ## The frames -/

/-- There are `n` pages in a row that are not in use. -/
def HasRun (m : MemoryMap) (n : ℕ) : Prop := ∃ b < pageLimit, ∀ t < n, isppUsed m (u64 (b + t)) = 0

/-- `allocpps` takes such a run, if there is one; otherwise it takes none. -/
theorem hasRun_iff : HasRun m n ↔ ∀ t < n, isppUsed m (u64 ((allocpps m n).1 + t)) = 0 := by
  refine ⟨fun ⟨b, hlt, hb⟩ => ?_, fun h => ⟨_, (allocpps_free n).1, h⟩⟩
  rcases allocpps_cases m n with ⟨p, -, heq, hfree, -⟩ | ⟨-, hno⟩
  · rw [heq]
    exact hfree
  · exact absurd hb (hno b hlt)

/-! ## The copies of a segment -/

/-- **What is written through the window** for the segment `e`, from the state `s` on: the address spaces at that time,
and the bytes. -/
inductive WindowCopy (disk : ℕ → DriverRead) (special : FileDescriptor → ℤ → Option (Delivered FileDescriptor)) (fd : ℤ)
    (s : Loader) (r : ℕ) (e : ElfPhdr) : Spaces → List UInt8 → Prop
  | memset {s₁ : Loader} (hmap : s.mapSegment r e = some s₁) :
      WindowCopy disk special fd s r e s₁.spaces (List.replicate e.sizeMem 0)
  | kread {s₁ s₂ : Loader} {z : Spaces} {temp : ℤ} {d : Delivered Loader} (hmap : s.mapSegment r e = some s₁)
      (hset : s₁.spaces.write WINDOW (List.replicate e.sizeMem 0) = some z) (htell : ktell s₁.fds fd = some temp)
      (hseek : ({ s₁ with spaces := z } : Loader).seek fd (toInt64 e.dataOff) = some s₂)
      (hread : s₂.read disk special fd (toInt64 e.sizeFile) = some d) :
      WindowCopy disk special fd s r e d.state.spaces d.data

/-- The frame behind an address. -/
def Spaces.frame (z : Spaces) (va : ℕ) : ℕ := z.vmm.getPageEntry z.cr3 va / 0x1000

/-- **The copies stay inside**, whatever the driver does: they are in the pages of the segment, and these have frames
that were free; and the pages end before the kernel's heap. -/
structure CopiesInside (special : FileDescriptor → ℤ → Option (Delivered FileDescriptor)) (fd : ℤ) (node : FileVnode)
    (content : List UInt8) (s : Loader) (r : ℕ) (e : ElfPhdr) : Prop where
  heap : Spaces.pageCount e.toElfPhdrEntry * 0x1000 ≤ 0x8000000
  inside : ∀ disk z l, Holds disk node content → Bounded disk node → WindowCopy disk special fd s r e z l →
    ∀ x < l.length, x < Spaces.pageCount e.toElfPhdrEntry * 0x1000 ∧ isppUsed s.spaces.mem (z.frame (WINDOW + x)) = 0

/-- **The segment fits**: its pages into the window and into memory, and its data into the pages. Where its pages cannot be
mapped, nothing is copied. -/
structure SegmentInWindow (size pos : ℕ) (s : Loader) (r : ℕ) (e : ElfPhdr) : Prop where
  pages : Spaces.pageCount e.toElfPhdrEntry ≤ 0x8000
  data : s.mapSegment r e ≠ none → HasRun s.spaces.mem (Spaces.pageCount e.toElfPhdrEntry) ∧
    requested size (seekPos size pos e.dataOff) e.sizeFile ≤ Spaces.pageCount e.toElfPhdrEntry * 0x1000

/-- A driver without errors, which puts as many bytes into the buffer as it may if there is no such range. -/
def eagerDisk (content : List UInt8) : ℕ → DriverRead := fun _ _ off n =>
  if off + n ≤ content.length ∧ off + n < 2 ^ 63 then some ((n : ℤ), (content.drop off).take n)
  else some (-2, List.replicate n 0)

theorem eagerDisk_holds (hsize : node.size = content.length) (hlt : content.length < 2 ^ 63) :
    Holds (eagerDisk content) node content := by
  refine ⟨fun _ off n _ => ?_, hsize, hlt⟩
  unfold eagerDisk
  split_ifs with hc
  · exact .inl ⟨rfl, hc.1, hc.2⟩
  · exact .inr ⟨2, _, by decide, by decide, rfl⟩

theorem eagerDisk_length {k inode off : ℕ} {st : ℤ} (h : eagerDisk content k inode off n = some (st, l)) :
    l.length = n := by
  unfold eagerDisk at h
  split_ifs at h with hc
  · obtain ⟨-, rfl⟩ := Prod.mk.inj (Option.some.inj h)
    rw [List.length_take, List.length_drop]
    omega
  · obtain ⟨-, rfl⟩ := Prod.mk.inj (Option.some.inj h)
    exact List.length_replicate

theorem eagerDisk_bounded : Bounded (eagerDisk content) node :=
  fun _ _ _ _ _ h => (eagerDisk_length h).le

/-- The frames behind the window. -/
theorem WindowShows.frame_eq {pp x : ℕ} (h : WindowShows z pp n) (hx : x < n * 0x1000) :
    z.frame (WINDOW + x) = pp + x / 0x1000 := by
  have hr := h.range
  have hw : WINDOW % 2 ^ 48 = windowVp * 0x1000 := by decide
  have hvp : (WINDOW + x) % 2 ^ 48 / 0x1000 = windowVp + x / 0x1000 := by omega
  unfold Spaces.frame
  rw [getPageEntry_eq h.cr3, hvp, h.shows _ (by omega)]
  omega

/-- The window, once the pages of a segment are mapped. -/
theorem mapSegment_shows {s₁ : Loader} (h : SpaceInv s.spaces) (hr : s.spaces.Root r)
    (hcr : s.spaces.Root s.spaces.cr3) (hn : Spaces.pageCount e.toElfPhdrEntry ≤ 0x8000)
    (hmap : s.mapSegment r e = some s₁) : s₁ = { s with spaces := s₁.spaces } ∧
      WindowShows s₁.spaces (Nettapus.allocpps s.spaces.mem (Spaces.pageCount e.toElfPhdrEntry)).1
        (Spaces.pageCount e.toElfPhdrEntry) := by
  obtain ⟨heq, -, hm⟩ := (mapSegment_yields h hr).1 s₁ hmap
  have hlim : pageLimit + 0x8000 ≤ 2 ^ 52 := by decide
  have hpp := (allocpps_free (m := s.spaces.mem) (Spaces.pageCount e.toElfPhdrEntry)).1
  exact ⟨heq, hm.shows hr hcr (by omega)⟩

/-- **A copy**, once the pages are mapped: the window shows them, and what is copied is the memory of the segment or a
part of what was requested. -/
theorem WindowCopy.spec (h : SpaceInv s.spaces) (hr : s.spaces.Root r) (hcr : s.spaces.Root s.spaces.cr3)
    (hF : Holds disk node content) (hB : Bounded disk node) (hp : AtPos s.fds fd node pos) (hpos : pos ≤ content.length)
    (h0 : 0 < content.length) (hoff : e.dataOff < 2 ^ 64) (hfile : e.sizeFile < 2 ^ 64)
    (hn : Spaces.pageCount e.toElfPhdrEntry ≤ 0x8000) (hc : WindowCopy disk special fd s r e z l) :
    s.mapSegment r e ≠ none ∧
      WindowShows z (Nettapus.allocpps s.spaces.mem (Spaces.pageCount e.toElfPhdrEntry)).1
        (Spaces.pageCount e.toElfPhdrEntry) ∧
      (l.length ≤ e.sizeMem ∨ l.length ≤ requested content.length (seekPos content.length pos e.dataOff) e.sizeFile) := by
  cases hc with
  | memset hmap =>
    obtain ⟨-, hshows⟩ := mapSegment_shows h hr hcr hn hmap
    exact ⟨by rw [hmap]; exact nofun, hshows, .inl (List.length_replicate).le⟩
  | @kread s₁ s₂ z temp d hmap hset htell hseek hread =>
    obtain ⟨heq, hshows⟩ := mapSegment_shows h hr hcr hn hmap
    have hz := write_eq _ _ _ _ hset
    have hp₁ : AtPos s₁.fds fd node pos := by
      rw [heq]
      exact hp
    obtain ⟨s₂', hseek', hsp₂, hp₂⟩ := seek_data (s := { s₁ with spaces := z }) hF hp₁ h0 hoff
    obtain rfl := Option.some.inj (hseek.symm.trans hseek')
    obtain ⟨d', hread', hsp, hnone, hsome⟩ := read_data special hF hp₂ (seekPos_le hpos) hfile
    obtain rfl := Option.some.inj (hread.symm.trans hread')
    refine ⟨by rw [hmap]; exact nofun, ?_, .inr ?_⟩
    · rw [hsp, hsp₂]
      dsimp only
      rw [hz]
      exact ⟨hshows.cr3, hshows.shows, hshows.range⟩
    · by_cases hk : requested content.length (seekPos content.length pos e.dataOff) e.sizeFile = 0
      · rw [hnone hk]
        exact Nat.zero_le _
      · obtain ⟨st, hst⟩ := hsome hk
        exact hB _ _ _ _ _ hst

/-- **All that is requested can come.** -/
theorem kread_eager (special : FileDescriptor → ℤ → Option (Delivered FileDescriptor)) {s₁ : Loader}
    (h : SpaceInv s.spaces) (hr : s.spaces.Root r) (hcr : s.spaces.Root s.spaces.cr3)
    (hF : Holds (eagerDisk content) node content) (hp : AtPos s.fds fd node pos) (hpos : pos ≤ content.length)
    (h0 : 0 < content.length) (hoff : e.dataOff < 2 ^ 64) (hfile : e.sizeFile < 2 ^ 64)
    (hn : Spaces.pageCount e.toElfPhdrEntry ≤ 0x8000) (hmap : s.mapSegment r e = some s₁) :
    ∃ z l, WindowCopy (eagerDisk content) special fd s r e z l ∧
      l.length = requested content.length (seekPos content.length pos e.dataOff) e.sizeFile := by
  have hlt := hF.lt
  obtain ⟨heq, hshows⟩ := mapSegment_shows h hr hcr hn hmap
  have hp₁ : AtPos s₁.fds fd node pos := by
    rw [heq]
    exact hp
  have hlen : 0 + (List.replicate e.sizeMem (0 : UInt8)).length ≤ Spaces.pageCount e.toElfPhdrEntry * 0x1000 := by
    rw [List.length_replicate, Nat.zero_add]
    exact sizeMem_le_pageCount _
  obtain ⟨page, hset, -⟩ := write_window (List.replicate e.sizeMem 0) s₁.spaces 0 hshows hlen
  obtain ⟨s₂, hseek, -, hp₂⟩ := seek_data (s := { s₁ with spaces := { s₁.spaces with page := page } }) hF hp₁ h0 hoff
  obtain ⟨d, hread, -, hnone, hsome⟩ := read_data special hF hp₂ (seekPos_le hpos) hfile
  refine ⟨_, _, .kread hmap hset (ktell_spec hp₁ (by omega)) hseek hread, ?_⟩
  by_cases hk : requested content.length (seekPos content.length pos e.dataOff) e.sizeFile = 0
  · rw [hnone hk, hk]
    rfl
  · obtain ⟨st, hst⟩ := hsome hk
    exact eagerDisk_length hst

/-- A page of a segment has a byte of it. -/
theorem lt_sizeMem {e : ElfPhdrEntry} {t : ℕ} (ht : t < Spaces.pageCount e) : t * 0x1000 < e.sizeMem := by
  unfold Spaces.pageCount at ht
  split_ifs at ht <;> omega

/-- **One segment.** -/
theorem copiesInside_iff (h : SpaceInv s.spaces) (hr : s.spaces.Root r) (hcr : s.spaces.Root s.spaces.cr3)
    (hsize : node.size = content.length) (hlt : content.length < 2 ^ 63) (hp : AtPos s.fds fd node pos)
    (hpos : pos ≤ content.length) (h0 : 0 < content.length) (hoff : e.dataOff < 2 ^ 64) (hfile : e.sizeFile < 2 ^ 64) :
    CopiesInside special fd node content s r e ↔ SegmentInWindow content.length pos s r e := by
  have hF : Holds (eagerDisk content) node content := eagerDisk_holds hsize hlt
  have hu : ∀ {t}, t < 0x8000 →
      u64 ((Nettapus.allocpps s.spaces.mem (Spaces.pageCount e.toElfPhdrEntry)).1 + t) =
        (Nettapus.allocpps s.spaces.mem (Spaces.pageCount e.toElfPhdrEntry)).1 + t := by
    intro t ht
    have hlim : pageLimit + 0x8000 ≤ 2 ^ 64 := by decide
    have hpp := (allocpps_free (m := s.spaces.mem) (Spaces.pageCount e.toElfPhdrEntry)).1
    exact u64_of_lt (by omega)
  constructor
  · intro hin
    have hheap := hin.heap
    have hn : Spaces.pageCount e.toElfPhdrEntry ≤ 0x8000 := by omega
    refine ⟨hn, fun hne => ?_⟩
    obtain ⟨s₁, hmap⟩ := Option.ne_none_iff_exists'.1 hne
    obtain ⟨-, hshows⟩ := mapSegment_shows h hr hcr hn hmap
    constructor
    · -- `memset` writes to every page
      refine hasRun_iff.2 fun t ht => ?_
      have hbyte := lt_sizeMem ht
      obtain ⟨-, hfree⟩ := hin.inside _ _ _ hF eagerDisk_bounded (.memset hmap) (t * 0x1000)
        (by rwa [List.length_replicate])
      rw [hshows.frame_eq (by omega), Nat.mul_div_cancel _ (by decide)] at hfree
      rw [hu (by omega)]
      exact hfree
    · obtain ⟨z, l, hcopy, hlen⟩ := kread_eager special h hr hcr hF hp hpos h0 hoff hfile hn hmap
      by_contra hlong
      have hx := (hin.inside _ _ _ hF eagerDisk_bounded hcopy (Spaces.pageCount e.toElfPhdrEntry * 0x1000) (by omega)).1
      exact absurd hx (lt_irrefl _)
  · intro hfit
    have hn := hfit.pages
    refine ⟨by omega, fun disk z l hF hB hcopy x hx => ?_⟩
    obtain ⟨hmap, hshows, hlen⟩ := hcopy.spec h hr hcr hF hB hp hpos h0 hoff hfile hn
    obtain ⟨hrun, hdata⟩ := hfit.data hmap
    have hmem := sizeMem_le_pageCount e.toElfPhdrEntry
    have hin : x < Spaces.pageCount e.toElfPhdrEntry * 0x1000 := by
      rcases hlen with hlen | hlen
      · omega
      · omega
    have hpage : x / 0x1000 < Spaces.pageCount e.toElfPhdrEntry := by omega
    have hfree := hasRun_iff.1 hrun _ hpage
    rw [hu (by omega)] at hfree
    rw [hshows.frame_eq hin]
    exact ⟨hin, hfree⟩

/-! ## The segments that are reached -/

/-- **The second pass comes to a LOAD segment**: from the state `s`, with `n` entries left, it has read the entry `e`, the
`i`-th of them, and its state is `v`. -/
inductive Visits (disk : ℕ → DriverRead) (special : FileDescriptor → ℤ → Option (Delivered FileDescriptor)) (fd : ℤ)
    (r : ℕ) : ℕ → Loader → ℕ → Loader → ElfPhdr → Prop
  | here {n : ℕ} {s : Loader} {d : Delivered Loader} (hread : s.read disk special fd PHDR_SIZE = some d)
      (hst : d.status = PHDR_SIZE) (htype : (elfPhdr d.data).segmentType = 1) :
      Visits disk special fd r (n + 1) s 0 d.state (elfPhdr d.data)
  | next {n i : ℕ} {s s' v : Loader} {d : Delivered Loader} {e : ElfPhdr}
      (hread : s.read disk special fd PHDR_SIZE = some d) (hst : d.status = PHDR_SIZE)
      (hload : d.state.loadSegment disk special fd r (elfPhdr d.data) = some s') (hv : Visits disk special fd r n s' i v e) :
      Visits disk special fd r (n + 1) s (i + 1) v e

/-- **`load_elf` comes to the LOAD segment `e`**, the entry `i` of the table. -/
def ElfVisits (disk : ℕ → DriverRead) (special : FileDescriptor → ℤ → Option (Delivered FileDescriptor)) (fd : ℤ)
    (s : Loader) (r i : ℕ) (v : Loader) (e : ElfPhdr) : Prop :=
  ∃ hdr s', ElfStart disk special fd s r hdr s' ∧ Visits disk special fd r hdr.phdrEntryCount s' i v e

/-- The state of the second pass before the entry at `pos`. -/
structure Passing (fd : ℤ) (node : FileVnode) (s : Loader) (r pos : ℕ) : Prop where
  inv : SpaceInv s.spaces
  root : s.spaces.Root r
  cr3 : s.spaces.Root s.spaces.cr3
  at_pos : AtPos s.fds fd node pos

theorem Passing.congr {pos' : ℕ} (h : Passing fd node s r pos) (hsp : s'.spaces = s.spaces)
    (hat : AtPos s'.fds fd node pos') : Passing fd node s' r pos' := by
  refine ⟨?_, ?_, ?_, hat⟩
  · rw [hsp]
    exact h.inv
  · rw [hsp]
    exact h.root
  · rw [hsp]
    exact h.cr3

/-- An entry is read. -/
theorem Passing.read {d : Delivered Loader} (h : Passing fd node s r pos) (hF : Holds disk node content)
    (hle : pos ≤ content.length) (hread : s.read disk special fd PHDR_SIZE = some d) (hst : d.status = PHDR_SIZE) :
    Passing fd node d.state r (pos + PHDR_SIZE) ∧ elfPhdr d.data = phdrAt content pos ∧
      pos + PHDR_SIZE ≤ content.length := by
  obtain ⟨hsp, he, hlen, hat⟩ := readEntry_spec hF h.at_pos hle hread hst
  exact ⟨h.congr hsp hat, he, hlen⟩

/-- **An entry is passed**, if the file goes on. -/
theorem Passing.load (h : Passing fd node s r pos) (hF : Holds disk node content) (hlt : pos < content.length)
    (hload : s.loadSegment disk special fd r e = some s') : Passing fd node s' r pos := by
  obtain ⟨hmaps, hother, p, hat, hpp⟩ := loadSegment_maps hF h.at_pos hlt.le h.inv h.root hload
  obtain rfl : p = pos := hpp hlt
  by_cases ht : e.segmentType = 1
  · have hL := hmaps ht
    refine ⟨hL.keeps.inv, hL.keeps.root ▸ h.root, ?_, hat⟩
    rw [hL.cr3_eq, hL.keeps.root]
    exact h.cr3
  · exact h.congr (hother ht) hat

/-- **What is known when a segment is reached.** -/
theorem Visits.spec (hF : Holds disk node content) (hv : Visits disk special fd r n s i v e) :
    ∀ {pos}, Passing fd node s r pos → pos + PHDR_SIZE * n ≤ content.length →
      Passing fd node v r (pos + PHDR_SIZE * (i + 1)) ∧ pos + PHDR_SIZE * (i + 1) ≤ content.length ∧
        e = phdrAt content (pos + PHDR_SIZE * i) := by
  induction hv with
  | here hread hst htype =>
    intro pos h hle
    obtain ⟨hd, he, hlen⟩ := h.read hF (by omega) hread hst
    exact ⟨hd, hlen, he⟩
  | @next n i s s' v d e hread hst hload hv ih =>
    intro pos h hle
    rw [Nat.mul_succ] at hle
    obtain ⟨hd, he, hlen⟩ := h.read hF (by omega) hread hst
    -- there is one more entry, so its place is before the end
    have hn : 0 < n := by
      cases hv with
      | here => exact Nat.succ_pos _
      | next => exact Nat.succ_pos _
    have hs' := hd.load hF (by unfold PHDR_SIZE at *; omega) hload
    have hadd : ∀ k, pos + PHDR_SIZE + PHDR_SIZE * k = pos + PHDR_SIZE * (k + 1) := fun k => by
      rw [Nat.mul_succ]
      omega
    have hspec := ih hs' (by omega)
    rwa [hadd, hadd] at hspec

/-- The state in which the second pass begins. -/
theorem ElfStart.passing {hdr : ElfHdr64} (h : SpaceInv s.spaces) (hcr : s.spaces.Root s.spaces.cr3)
    (hF : Holds disk node content) (hp : AtPos s.fds fd node 0) (hs : ElfStart disk special fd s r hdr s') :
    Passing fd node s' r 64 := by
  obtain ⟨-, -, -, -, hcreate, hat⟩ := hs.spec hF hp
  have hC : SpaceCreated s.spaces r s'.spaces := (createAddressSpace_yields h).1 _ hcreate
  refine ⟨hC.space.inv, .inr hC.space.mem, ?_, hat⟩
  rw [hC.cr3_eq]
  exact hC.space.root hcr

/-- **All LOAD segments are reached** by a pass that comes to its end. -/
theorem loadEntries_visits (hF : Holds disk node content) : ∀ n (s : Loader) pos, Passing fd node s r pos →
    pos + PHDR_SIZE * n ≤ content.length → Loader.loadEntries disk special fd r n s = some (true, s') →
    ∀ i < n, (phdrAt content (pos + PHDR_SIZE * i)).segmentType = 1 →
      ∃ v, Visits disk special fd r n s i v (phdrAt content (pos + PHDR_SIZE * i)) := by
  intro n
  induction n with
  | zero =>
    intro s pos _ _ _ i hi
    omega
  | succ n ih =>
    intro s pos h hle hload i hi ht
    rw [Nat.mul_succ] at hle
    unfold Loader.loadEntries at hload
    obtain ⟨d, hread, hrest⟩ := Option.bind_eq_some_iff.1 hload
    split_ifs at hrest with hst
    · cases (Prod.mk.inj (Option.some.inj hrest)).1
    · obtain ⟨hd, he, hlen⟩ := h.read hF (by omega) hread (not_not.1 hst)
      obtain ⟨s₁, hseg, hrest⟩ := Option.bind_eq_some_iff.1 hrest
      cases i with
      | zero =>
        rw [show pos + PHDR_SIZE * 0 = pos from rfl, ← he] at ht ⊢
        exact ⟨_, .here hread (not_not.1 hst) ht⟩
      | succ i =>
        have hs₁ := hd.load hF (by unfold PHDR_SIZE at *; omega) hseg
        rw [show pos + PHDR_SIZE * (i + 1) = pos + PHDR_SIZE + PHDR_SIZE * i by rw [Nat.mul_succ]; omega] at ht ⊢
        obtain ⟨v, hv⟩ := ih s₁ _ hs₁ (by omega) hrest i (by omega) ht
        exact ⟨v, .next hread (not_not.1 hst) hseg hv⟩

/-- `load_elf` comes to all LOAD segments of a file for which it returns an address space. -/
theorem elf_visits {ep : Option ℕ} (h : SpaceInv s.spaces) (hcr : s.spaces.Root s.spaces.cr3)
    (hF : Holds disk node content) (hp : AtPos s.fds fd node 0)
    (hl : Loader.loadElf disk special fd s = some (r, ep, s')) (hr : r ≠ NULL)
    (hi : i < (elfHdr64 (content.take 64)).phdrEntryCount) (ht : (phdrAt content (64 + PHDR_SIZE * i)).segmentType = 1) :
    ∃ v, ElfVisits disk special fd s r i v (phdrAt content (64 + PHDR_SIZE * i)) := by
  obtain ⟨hdr, s₁, hs, -, hload⟩ := loadElf_start hl hr
  obtain ⟨rfl, -, -, hlen, -⟩ := hs.spec hF hp
  obtain ⟨v, hv⟩ := loadEntries_visits hF _ s₁ 64 (hs.passing h hcr hF hp) hlen hload i hi ht
  exact ⟨v, _, s₁, hs, hv⟩

theorem field_lt (data : List UInt8) (off : ℕ) : field data off 8 < 2 ^ 64 := by
  rw [show (2 : ℕ) ^ 64 = 256 ^ 8 by decide]
  exact Bytes.load_lt _ 8 off

/-- **The state in which a segment is reached.** -/
theorem ElfVisits.spec (h : SpaceInv s.spaces) (hcr : s.spaces.Root s.spaces.cr3) (hF : Holds disk node content)
    (hp : AtPos s.fds fd node 0) (hv : ElfVisits disk special fd s r i v e) :
    Passing fd node v r (64 + PHDR_SIZE * (i + 1)) ∧ 64 + PHDR_SIZE * (i + 1) ≤ content.length ∧
      e = phdrAt content (64 + PHDR_SIZE * i) := by
  obtain ⟨hdr, s', hs, hv⟩ := hv
  obtain ⟨-, -, -, hlen, -⟩ := hs.spec hF hp
  exact hv.spec hF (hs.passing h hcr hF hp) hlen

theorem copiesInside_phdrAt (h : Passing fd node v r (64 + PHDR_SIZE * (i + 1))) (hF : Holds disk node content)
    (hlen : 64 + PHDR_SIZE * (i + 1) ≤ content.length) :
    CopiesInside special fd node content v r (phdrAt content (64 + PHDR_SIZE * i)) ↔
      SegmentInWindow content.length (64 + PHDR_SIZE * (i + 1)) v r (phdrAt content (64 + PHDR_SIZE * i)) :=
  copiesInside_iff h.inv h.root h.cr3 hF.size hF.lt h.at_pos hlen (by omega) (field_lt _ 8) (field_lt _ 32)

/-- **The copies of `load_elf` stay inside just if the segment fits**, for every LOAD segment that a run comes to. -/
theorem elf_window_iff (h : SpaceInv s.spaces) (hcr : s.spaces.Root s.spaces.cr3) (hF : Holds disk node content)
    (hp : AtPos s.fds fd node 0) (hv : ElfVisits disk special fd s r i v e) :
    CopiesInside special fd node content v r e ↔ SegmentInWindow content.length (64 + PHDR_SIZE * (i + 1)) v r e := by
  obtain ⟨hat, hpos, rfl⟩ := hv.spec h hcr hF hp
  exact copiesInside_phdrAt hat hF hpos

/-! ## Files -/

/-- An executable with one segment at `0x400000`, whose data is at the beginning of the file. -/
def segmentElf (sizeFile sizeMem : ℕ) : List UInt8 :=
  elfMagic ++ [2, 1, 1, 0] ++ fieldBytes 8 0 ++ fieldBytes 2 2 ++ fieldBytes 2 0x3e ++ fieldBytes 4 1 ++
    fieldBytes 8 0x400000 ++ fieldBytes 8 64 ++ fieldBytes 8 0 ++ fieldBytes 4 0 ++ fieldBytes 2 64 ++ fieldBytes 2 56 ++
    fieldBytes 2 1 ++ fieldBytes 6 0 ++
    (fieldBytes 4 1 ++ fieldBytes 4 5 ++ fieldBytes 8 0 ++ fieldBytes 8 0x400000 ++ fieldBytes 8 0 ++
      fieldBytes 8 sizeFile ++ fieldBytes 8 sizeMem ++ fieldBytes 8 0x1000)

/-- The segment of such a file is reached. -/
theorem segmentElf_visits {a b : ℕ} (hacc : Spaces.accepts (phdrAt (segmentElf a b) 64).toElfPhdrEntry = true) :
    ∃ r v, SpaceCreated heapSpaces r v.spaces ∧ ElfVisits (sampleDisk (segmentElf a b)) (fun _ _ => none) 0
      (sampleLoader (segmentElf a b)) r 0 v (phdrAt (segmentElf a b) 64) := by
  have hlen : (segmentElf a b).length = 120 := rfl
  have hF : Holds (sampleDisk (segmentElf a b)) (sampleNode (segmentElf a b)) (segmentElf a b) := holds_sample (by omega)
  have hE : NoError (sampleDisk (segmentElf a b)) (sampleNode (segmentElf a b)) (segmentElf a b) :=
    noError_sample (by omega)
  have hcount : (elfHdr64 ((segmentElf a b).take 64)).phdrEntryCount = 1 := rfl
  have hall : ∀ e ∈ elfEntries (segmentElf a b), Spaces.accepts e.toElfPhdrEntry = true := by
    intro e he
    unfold elfEntries tableAt at he
    rw [hcount] at he
    obtain rfl := List.mem_singleton.1 he
    exact hacc
  obtain ⟨r, s', hs, hC, hat⟩ := elf_starts (s := sampleLoader (segmentElf a b))
    heapSpaces_inv hF hE (atPos_sample _) rfl (by rw [hcount, hlen]; decide) hall
    (room_heapSpaces (k := 0) (by decide) (by decide)).slots
  obtain ⟨d, h1, h2, h3, h4, -⟩ := readEntry_exact hF hE hat (by rw [hlen]; decide)
  refine ⟨r, d.state, by rw [h4]; exact hC, _, s', hs, ?_⟩
  rw [hcount, ← h3]
  exact .here h1 h2 (by rw [h3]; rfl)

/-- A segment that fits. -/
theorem elf_window_one : ∃ r v e, ElfVisits (sampleDisk (segmentElf 1 1)) (fun _ _ => none) 0
      (sampleLoader (segmentElf 1 1)) r 0 v e ∧
    CopiesInside (fun _ _ => none) 0 (sampleNode (segmentElf 1 1)) (segmentElf 1 1) v r e := by
  obtain ⟨r, v, hC, hv⟩ := segmentElf_visits (a := 1) (b := 1) (by decide +kernel)
  refine ⟨r, v, _, hv, (elf_window_iff heapSpaces_inv cr3_heapSpaces (holds_sample (by decide)) (atPos_sample _) hv).2
    ⟨by decide +kernel, fun _ => ⟨?_, by decide +kernel⟩⟩⟩
  have hroom := hC.room (room_heapSpaces (k := 2 + 1) (c := 13 + 0) (by decide) (by decide))
  refine ⟨0x402, by decide, fun t ht => ?_⟩
  rw [show Spaces.pageCount (phdrAt (segmentElf 1 1) 64).toElfPhdrEntry = 1 by decide +kernel] at ht
  obtain rfl : t = 0 := by omega
  exact hroom.run 0x402 (by decide) (by decide)

/-- **The copies leave the window.** A segment without memory has no pages, but a byte of the file is written to it; and a
segment of `0x8001` pages lies over the kernel's heap. -/
theorem elf_leaves_window : SpaceInv heapSpaces ∧ heapSpaces.Root heapSpaces.cr3 ∧
    Holds (sampleDisk (segmentElf 1 0)) (sampleNode (segmentElf 1 0)) (segmentElf 1 0) ∧
    AtPos (sampleLoader (segmentElf 1 0)).fds 0 (sampleNode (segmentElf 1 0)) 0 ∧
    (∃ r v e, ElfVisits (sampleDisk (segmentElf 1 0)) (fun _ _ => none) 0 (sampleLoader (segmentElf 1 0)) r 0 v e ∧
      ¬ CopiesInside (fun _ _ => none) 0 (sampleNode (segmentElf 1 0)) (segmentElf 1 0) v r e) ∧
    Holds (sampleDisk (segmentElf 1 0x8001000)) (sampleNode (segmentElf 1 0x8001000)) (segmentElf 1 0x8001000) ∧
    AtPos (sampleLoader (segmentElf 1 0x8001000)).fds 0 (sampleNode (segmentElf 1 0x8001000)) 0 ∧
    ∃ r v e, ElfVisits (sampleDisk (segmentElf 1 0x8001000)) (fun _ _ => none) 0
        (sampleLoader (segmentElf 1 0x8001000)) r 0 v e ∧
      ¬ CopiesInside (fun _ _ => none) 0 (sampleNode (segmentElf 1 0x8001000)) (segmentElf 1 0x8001000) v r e := by
  refine ⟨heapSpaces_inv, cr3_heapSpaces, holds_sample (by decide), atPos_sample _, ?_, holds_sample (by decide),
    atPos_sample _, ?_⟩
  · obtain ⟨r, v, hC, hv⟩ := segmentElf_visits (a := 1) (b := 0) (by decide +kernel)
    refine ⟨r, v, _, hv, fun hin => ?_⟩
    have hF : Holds (sampleDisk (segmentElf 1 0)) (sampleNode (segmentElf 1 0)) (segmentElf 1 0) :=
      holds_sample (by decide +kernel)
    obtain ⟨hat, hpos, -⟩ := hv.spec heapSpaces_inv cr3_heapSpaces hF (atPos_sample _)
    have hroom := hC.room (room_heapSpaces (k := 2 + 0) (c := 13 + 12) (by decide) (by decide))
    -- no page is mapped, and this succeeds
    have hzero : Spaces.pageCount (phdrAt (segmentElf 1 0) 64).toElfPhdrEntry = 0 := by decide +kernel
    have hmap : v.mapSegment r (phdrAt (segmentElf 1 0) 64) ≠ none := by
      obtain ⟨s₁, hs₁⟩ := (mapSegment_yields hat.inv hat.root).2 ⟨by rw [hzero]; decide +kernel, by rw [hzero]; decide,
        by rw [hzero]; exact hroom.slots⟩
      rw [hs₁]
      exact nofun
    have hdata := (((copiesInside_phdrAt hat hF hpos).1 hin).data hmap).2
    exact absurd hdata (by decide +kernel)
  · obtain ⟨r, v, -, hv⟩ := segmentElf_visits (a := 1) (b := 0x8001000) (by decide +kernel)
    refine ⟨r, v, _, hv, fun hin => ?_⟩
    have hheap := hin.heap
    rw [show Spaces.pageCount (phdrAt (segmentElf 1 0x8001000) 64).toElfPhdrEntry = 0x8001 by decide +kernel] at hheap
    omega

end Nettapus
