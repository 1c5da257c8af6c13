import Nettapus.Lib.Runs
import Nettapus.Proof.Ext2Heap
import Nettapus.Proof.File

/-!
# Seek and tell

The position of a descriptor after calls of `kread`, `kwrite` and `kseek`. `kseek` takes every position from the end of
the file on back to the last byte; an empty file has none, and the position is then the largest number.

`seek_tell`: without that, and without a write of a negative amount, which makes the driver write the rest of the last
block, the position stays in the file (`fileStep_sits`). A seek to where the file is moves it from the end, and nowhere
else.
-/

namespace Nettapus

open Runs

variable {fs : Ext2Fs} {io : Io} {m src : Bytes.Mem} {inode off n : ℕ}

/-! ## What the driver returns -/

theorem ext2ReadFile_le (h : fs.Ok) {r : ℤ × List UInt8} (hr : ext2ReadFile fs io m inode off n = some r)
    (hpos : 0 < r.1) : (off : ℤ) + r.1 ≤ fs.sizeOf m inode := by
  by_cases hreads : fs.Reads io m inode off n
  · rw [(ext2ReadFile_eq h).1 hreads] at hr
    obtain rfl := Option.some.inj hr
    have := (hreads.range_le h (by dsimp only at hpos; omega)).2
    dsimp only
    omega
  · obtain ⟨e, l, hneg, -⟩ := (ext2ReadFile_eq h).2 hreads
    rw [hneg] at hr
    obtain rfl := Option.some.inj hr
    dsimp only at hpos
    omega

theorem toCopy_le : toCopy fs off n ≤ n := by
  unfold toCopy
  split_ifs <;> omega

/-- A write is at most what was asked for. -/
theorem writeLoop_le {node : Ext2Inode} : ∀ {fuel : ℕ} {m dataBuf src : Bytes.Mem} {off n block written : ℕ}
    {r : ℤ × Bytes.Mem}, writeLoop fs io node fuel m dataBuf src off n block written = some r →
      r.1 ≤ (written : ℤ) + n := by
  intro fuel
  induction fuel with
  | zero =>
    intro m dataBuf src off n block written r h
    unfold writeLoop at h
    split_ifs at h with hn
    obtain rfl := Option.some.inj h
    dsimp only
    omega
  | succ fuel ih =>
    intro m dataBuf src off n block written r h
    unfold writeLoop at h
    dsimp only at h
    have herr : (-(ERR_DISK : ℤ)) ≤ (written : ℤ) + n := by
      unfold ERR_DISK
      omega
    by_cases hn : n = 0
    · rw [if_pos hn] at h
      obtain rfl := Option.some.inj h
      dsimp only
      omega
    rw [if_neg hn] at h
    by_cases hblock : ext2BlockInInode fs io m node block = 0
    · rw [if_pos hblock] at h
      obtain rfl := Option.some.inj h
      dsimp only
      omega
    rw [if_neg hblock] at h
    generalize (if off > 0 then ext2LoadBlocks fs io m dataBuf (ext2BlockInInode fs io m node block) 1
      else some dataBuf) = loaded at h
    cases loaded with
    | none =>
      obtain rfl := Option.some.inj h
      exact herr
    | some dataBuf =>
      dsimp only at h
      split_ifs at h
      · obtain rfl := Option.some.inj h
        exact herr
      · have hrest := ih h
        have hle : toCopy fs off n ≤ n := toCopy_le
        omega

theorem ext2WriteFile_le (h : fs.Ok) {r : ℤ × Bytes.Mem} (hoff : off + n < 2 ^ 64)
    (hr : ext2WriteFile fs io m inode src off n = some r) (hpos : 0 < r.1) :
    (off : ℤ) + r.1 ≤ fs.sizeOf m inode := by
  have herr : ∀ e : ℕ, ¬ (0 : ℤ) < -(e : ℤ) := fun e => by omega
  unfold ext2WriteFile at hr
  by_cases hi : inode < 2
  · rw [if_pos hi] at hr
    obtain rfl := Option.some.inj hr
    exact absurd hpos (herr _)
  rw [if_neg hi] at hr
  cases hload : ext2LoadInode fs io m inode with
  | none =>
    rw [hload] at hr
    obtain rfl := Option.some.inj hr
    exact absurd hpos (herr _)
  | some node =>
    have hsame : node.size = fs.sizeOf m inode := (h.loadInode_same hload).2.size
    rw [hload] at hr
    dsimp only at hr
    rw [u64_of_lt hoff, hsame] at hr
    by_cases hsize : off + n > fs.sizeOf m inode
    · rw [if_pos hsize] at hr
      obtain rfl := Option.some.inj hr
      exact absurd hpos (herr _)
    rw [if_neg hsize] at hr
    split_ifs at hr
    · obtain rfl := Option.some.inj hr
      exact absurd hpos (herr _)
    · have hle := writeLoop_le hr
      omega

/-! ## One call -/

/-- The calls on a file, with what the ext2 driver finds. -/
inductive FileCall
  | read (io : Io) (m : Bytes.Mem) (amount : ℤ)
  | write (io : Io) (m src : Bytes.Mem) (amount : ℤ)
  | seek (pos : ℤ)

/-- The readers of directories and pipes, and the writer of pipes. -/
structure SpecialFns where
  read : FileDescriptor → ℤ → Option (Delivered FileDescriptor)
  write : FileDescriptor → ℤ → Option (ℤ × FileDescriptor)

/-- The descriptors after a call on `fd`. -/
def fileStep (fs : Ext2Fs) (special : SpecialFns) (fd : ℤ) (fds : List FileDescriptor) :
    FileCall → Option (List FileDescriptor)
  | .read io m amount => (kread (ext2ReadFile fs io m) special.read fds fd amount).map (·.state)
  | .write io m src amount =>
    (kwrite (fun inode off n => (ext2WriteFile fs io m inode src off n).map Prod.fst) special.write fds fd
      amount).map Prod.snd
  | .seek pos => (kseek fds fd pos).map Prod.snd

/-- A descriptor of a regular file, at a place in it. -/
structure Sits (fd : ℤ) (node : FileVnode) (fds : List FileDescriptor) (fdes : FileDescriptor) : Prop
    extends Opened fds fd fdes node where
  node_eq : fdes.node = some node
  size_lt : node.size < 2 ^ 64
  pos_le : fdes.pos ≤ node.size

variable {special : SpecialFns} {fd amount : ℤ} {fds fds' : List FileDescriptor} {fdes : FileDescriptor}
  {node : FileVnode} {p : ℕ}

/-- The descriptor moves. -/
theorem Sits.move (h : Sits fd node fds fdes) (hp : p ≤ node.size) :
    Sits fd node (setFd fds fd { fdes with pos := p }) { fdes with pos := p } := by
  have hfd : fdes.fd = fd := find_fd h.find
  exact ⟨⟨h.nonneg, find_setFd h.find hfd, h.file, h.read⟩, h.node_eq, h.size_lt, hp⟩

/-- The amount that the two functions ask for, and that it comes back as it is. -/
theorem toSize_toInt64 (h : n < 2 ^ 64) : toSize (toInt64 n) = n := by
  unfold toSize toInt64
  split_ifs <;> omega

theorem toSize_of_lt {z : ℤ} (h0 : 0 ≤ z) (h1 : z < 2 ^ 64) : (toSize z : ℤ) = z := by
  unfold toSize
  omega

theorem Sits.clipped (h : Sits fd node fds fdes) (hc : u64 (toSize amount + fdes.pos) > node.size) :
    toSize (if u64 (toSize amount + fdes.pos) > node.size then toInt64 (sub64 node.size fdes.pos) else amount) =
      node.size - fdes.pos := by
  have := h.size_lt
  rw [if_pos hc, sub64_of_le h.pos_le h.size_lt, toSize_toInt64 (by omega)]

/-- After a transfer that stays in the file. -/
theorem Sits.advance (h : Sits fd node fds fdes) {status : ℤ} (hle : 0 < status → (fdes.pos : ℤ) + status ≤ node.size) :
    ∃ fdes', Sits fd node
      (setFd fds fd (if status > 0 then { fdes with pos := u64 (fdes.pos + toSize status) } else fdes)) fdes' := by
  have hsize := h.size_lt
  by_cases hpos : status > 0
  · have hle := hle hpos
    have hstatus : (toSize status : ℤ) = status := toSize_of_lt (by omega) (by omega)
    rw [if_pos hpos, u64_of_lt (by omega)]
    exact ⟨_, h.move (by omega)⟩
  · rw [if_neg hpos]
    exact ⟨_, h.move h.pos_le⟩

theorem Sits.kread (h : Sits fd node fds fdes) {read : DriverRead} {r : Delivered (List FileDescriptor)}
    (hread : ∀ off n r, read node.inodeNum off n = some r → 0 < r.1 → (off : ℤ) + r.1 ≤ node.size)
    (hr : kread read special.read fds fd amount = some r) : ∃ fdes', Sits fd node r.state fdes' := by
  rw [kread_eq h.toOpened h.node_eq] at hr
  obtain ⟨d, hd, rfl⟩ := Option.map_eq_some_iff.1 hr
  have hsame : ∃ fdes', Sits fd node (setFd fds fd fdes) fdes' := ⟨_, h.move h.pos_le⟩
  dsimp only
  unfold vfsReadFile at hd
  split at hd
  · obtain rfl := Option.some.inj hd
    exact hsame
  rename_i node' hnode
  obtain rfl : node = node' := Option.some.inj (h.node_eq.symm.trans hnode)
  by_cases hzero : amount = 0
  · rw [if_pos hzero] at hd
    obtain rfl := Option.some.inj hd
    exact hsame
  rw [if_neg hzero] at hd
  by_cases hmode : fdes.mode ≠ FD_READ
  · rw [if_pos hmode] at hd
    obtain rfl := Option.some.inj hd
    exact hsame
  rw [if_neg hmode] at hd
  dsimp only at hd
  generalize (if u64 (toSize amount + fdes.pos) > node.size then toInt64 (sub64 node.size fdes.pos)
    else amount) = toRead at hd
  by_cases heof : toRead = 0
  · rw [if_pos heof] at hd
    obtain rfl := Option.some.inj hd
    exact hsame
  · rw [if_neg heof] at hd
    obtain ⟨q, hq, rfl⟩ := Option.map_eq_some_iff.1 hd
    exact h.advance (hread _ _ q hq)

/-- A write of this amount asks the driver for nothing behind the last address. -/
def WriteFits (fdes : FileDescriptor) (node : FileVnode) (amount : ℤ) : Prop :=
  fdes.pos + toSize amount < 2 ^ 64 ∨ node.size < u64 (toSize amount + fdes.pos)

theorem kwrite_eq {write : DriverWrite} {sw : FileDescriptor → ℤ → Option (ℤ × FileDescriptor)}
    (ho : Opened fds fd fdes node) (hnode : fdes.node = some node) :
    kwrite write sw fds fd amount = (vfsWriteFile write fdes amount).map fun r => (r.1, setFd fds fd r.2) := by
  have hfd := ho.nonneg
  unfold kwrite
  rw [if_neg (by omega), ho.find]
  dsimp only
  rw [if_neg ho.file, hnode]
  dsimp only
  rw [ho.read]

theorem Sits.kwrite (h : Sits fd node fds fdes) {write : DriverWrite} {r : ℤ × List FileDescriptor}
    (hwrite : ∀ off n r, off + n < 2 ^ 64 → write node.inodeNum off n = some r → 0 < r → (off : ℤ) + r ≤ node.size)
    (hfits : WriteFits fdes node amount) (hr : kwrite write special.write fds fd amount = some r) :
    ∃ fdes', Sits fd node r.2 fdes' := by
  rw [kwrite_eq h.toOpened h.node_eq] at hr
  obtain ⟨d, hd, rfl⟩ := Option.map_eq_some_iff.1 hr
  dsimp only
  have hpos := h.pos_le
  have hsize := h.size_lt
  unfold vfsWriteFile at hd
  split at hd
  · obtain rfl := Option.some.inj hd
    exact ⟨_, h.move h.pos_le⟩
  rename_i node' hnode
  obtain rfl : node = node' := Option.some.inj (h.node_eq.symm.trans hnode)
  by_cases hmode : fdes.mode ≠ FD_WRITE
  · rw [if_pos hmode] at hd
    obtain rfl := Option.some.inj hd
    exact ⟨_, h.move h.pos_le⟩
  rw [if_neg hmode] at hd
  obtain ⟨q, hq, rfl⟩ := Option.map_eq_some_iff.1 hd
  refine h.advance (hwrite _ _ q ?_ hq)
  by_cases hc : u64 (toSize amount + fdes.pos) > node.size
  · rw [h.clipped hc]
    omega
  · rw [if_neg hc]
    unfold WriteFits at hfits
    omega

/-- What `kseek` does to a descriptor of a file. -/
theorem kseek_eq (h : Sits fd node fds fdes) (hp : p < 2 ^ 63) : kseek fds fd p =
    some (toInt64 (if p ≥ node.size then sub64 node.size 1 else p),
      setFd fds fd { fdes with pos := if p ≥ node.size then sub64 node.size 1 else p }) := by
  have hfd := h.nonneg
  have hsize : toSize (p : ℤ) = p := by
    rw [toSize_of_nonneg (by omega) (by omega)]
    rfl
  unfold kseek
  rw [if_neg (by omega), if_neg (by omega), h.find, Option.map_some, if_neg h.file]
  split
  · rename_i hnone
    exact absurd (hnone.symm.trans h.node_eq) (Option.some_ne_none _).symm
  · rename_i node' hnode
    obtain rfl : node = node' := Option.some.inj (h.node_eq.symm.trans hnode)
    dsimp only
    rw [hsize]

/-! ## Runs -/

/-- A descriptor of a regular file that was just opened. -/
def FreshFile (fd : ℤ) (node : FileVnode) (fds : List FileDescriptor) : Prop :=
  ∃ fdes, Sits fd node fds fdes ∧ fdes.pos = 0

/-- The calls that keep the position in the file. The file that the driver finds has the size of the vnode. -/
def FileCallOk (fs : Ext2Fs) (fd : ℤ) (node : FileVnode) (fds : List FileDescriptor) : FileCall → Prop
  | .read _ m _ => fs.sizeOf m node.inodeNum = node.size
  | .write _ m _ amount => fs.sizeOf m node.inodeNum = node.size ∧
      ∀ fdes, vfsFindFd fds fd = some fdes → WriteFits fdes node amount
  | .seek pos => 0 ≤ pos → pos < 2 ^ 63 ∧ node.size ≠ 0

/-- **A call keeps the position in the file.** -/
theorem fileStep_sits (hfs : fs.Ok) (h : Sits fd node fds fdes) {call : FileCall} (hok : FileCallOk fs fd node fds call)
    (hstep : fileStep fs special fd fds call = some fds') : ∃ fdes', Sits fd node fds' fdes' := by
  cases call with
  | read io m amount =>
    obtain ⟨r, hr, rfl⟩ := Option.map_eq_some_iff.1 hstep
    refine h.kread (fun off n q hq hpos => ?_) hr
    rw [← (show fs.sizeOf m node.inodeNum = node.size from hok)]
    exact ext2ReadFile_le hfs hq hpos
  | write io m src amount =>
    obtain ⟨r, hr, rfl⟩ := Option.map_eq_some_iff.1 hstep
    refine h.kwrite (fun off n q hoff hq hpos => ?_) (hok.2 fdes h.find) hr
    obtain ⟨q', hq', rfl⟩ := Option.map_eq_some_iff.1 hq
    rw [← hok.1]
    exact ext2WriteFile_le hfs hoff hq' hpos
  | seek pos =>
    obtain ⟨r, hr, rfl⟩ := Option.map_eq_some_iff.1 hstep
    by_cases hpos : 0 ≤ pos
    · obtain ⟨hlt, hne⟩ := hok hpos
      obtain ⟨p, rfl⟩ := Int.eq_ofNat_of_zero_le hpos
      have hlt' : p < 2 ^ 63 := by omega
      rw [kseek_eq h hlt'] at hr
      rw [← Option.some.inj hr]
      have hsize := h.size_lt
      refine ⟨_, h.move ?_⟩
      split_ifs with hge
      · rw [sub64_of_le (by omega) hsize]
        omega
      · omega
    · -- a negative position is refused
      have hsame : kseek fds fd pos = some (-(ERR_INVALID_PARAM : ℤ), fds) := by
        have hfd := h.nonneg
        unfold kseek
        rw [if_neg (by omega), if_pos (by omega)]
      rw [hsame] at hr
      rw [← Option.some.inj hr]
      exact ⟨fdes, h⟩

theorem Sits.fd_eq (h : Sits fd node fds fdes) : fdes.fd = fd := find_fd h.find

/-- A seek to the place where the file is. -/
theorem Sits.kseek_told (h : Sits fd node fds fdes) : ∃ q r fds', ktell fds fd = some q ∧ kseek fds fd q = some (r, fds') ∧
    (vfsFindFd fds' fd = some fdes ↔ fdes.pos < node.size ∨ 2 ^ 63 ≤ fdes.pos) := by
  have hfd := h.nonneg
  have hpos := h.pos_le
  have hsize := h.size_lt
  have htell : ktell fds fd = some (toInt64 fdes.pos) := by
    unfold ktell
    rw [if_neg (by omega), h.find, Option.map_some]
  by_cases hneg : 2 ^ 63 ≤ fdes.pos
  · have hq : toInt64 fdes.pos < 0 := by
      unfold toInt64
      rw [if_neg (by omega)]
      omega
    have hsame : kseek fds fd (toInt64 fdes.pos) = some (-(ERR_INVALID_PARAM : ℤ), fds) := by
      unfold kseek
      rw [if_neg (by omega), if_pos hq]
    exact ⟨_, _, _, htell, hsame, iff_of_true h.find (.inr hneg)⟩
  · have hq : toInt64 fdes.pos = fdes.pos := if_pos (by omega)
    have hseek := kseek_eq h (p := fdes.pos) (by omega)
    rw [← hq] at hseek
    refine ⟨_, _, _, htell, hseek, ?_⟩
    by_cases hend : fdes.pos ≥ node.size
    · rw [if_pos hend]
      refine iff_of_false (fun hfind => ?_) (by omega)
      have hto : sub64 node.size 1 ≠ fdes.pos := by
        unfold sub64
        omega
      generalize sub64 node.size 1 = k at hto hfind
      have hmoved := find_setFd h.find (d := { fdes with pos := k }) h.fd_eq
      exact hto (congrArg FileDescriptor.pos (Option.some.inj (hmoved.symm.trans hfind)))
    · rw [if_neg hend]
      exact iff_of_true (find_setFd h.find h.fd_eq) (.inl (by omega))

/-- The place where a file is after a seek. -/
theorem Sits.told_kseek (h : Sits fd node fds fdes) (hp : p ≤ node.size) (hlt : p < 2 ^ 63) :
    ∃ r fds', kseek fds fd p = some (r, fds') ∧ (ktell fds' fd = some (p : ℤ) ↔ p < node.size) := by
  have hfd := h.nonneg
  have hsize := h.size_lt
  have htell : ∀ k, ktell (setFd fds fd { fdes with pos := k }) fd = some (toInt64 k) := by
    intro k
    have hfind := find_setFd h.find (d := { fdes with pos := k }) h.fd_eq
    unfold ktell
    rw [if_neg (by omega), hfind, Option.map_some]
  refine ⟨_, _, kseek_eq h hlt, ?_⟩
  rw [htell]
  by_cases hend : p ≥ node.size
  · rw [if_pos hend]
    refine iff_of_false (fun he => ?_) (by omega)
    have heq := Option.some.inj he
    unfold sub64 toInt64 at heq
    split_ifs at heq <;> omega
  · rw [if_neg hend]
    have hq : toInt64 p = p := if_pos (by omega)
    exact iff_of_true (congrArg some hq) (by omega)

/-- **Seek and tell.** In every run from a file that was just opened, without a seek in an empty file and without a write
that runs over the last address: the position is in the file; a seek to where the file is leaves it there just if
that is before the end of the file (or is a negative number for `kseek`); and a seek to a place up to the end of the file
goes there just if it is before the end. -/
theorem seek_tell (hfs : fs.Ok)
    (hs : Reach (FreshFile fd node) (fileStep fs special fd) (FileCallOk fs fd node) fds) :
    ∃ fdes, vfsFindFd fds fd = some fdes ∧ fdes.pos ≤ node.size ∧
      (∃ q r fds', ktell fds fd = some q ∧ kseek fds fd q = some (r, fds') ∧
        (vfsFindFd fds' fd = some fdes ↔ fdes.pos < node.size ∨ 2 ^ 63 ≤ fdes.pos)) ∧
      ∀ p : ℕ, p ≤ node.size → p < 2 ^ 63 →
        ∃ r fds', kseek fds fd p = some (r, fds') ∧ (ktell fds' fd = some (p : ℤ) ↔ p < node.size) := by
  obtain ⟨fdes, h⟩ : ∃ fdes, Sits fd node fds fdes := by
    refine hs.inv (I := fun fds => ∃ fdes, Sits fd node fds fdes) ?_ ?_
    · rintro _ ⟨fdes, h, -⟩
      exact ⟨fdes, h⟩
    · rintro _ _ _ ⟨_, h⟩ hok hr
      exact fileStep_sits hfs h hok hr
  exact ⟨fdes, h.find, h.pos_le, h.kseek_told, fun p => h.told_kseek⟩

/-- Nothing but regular files. -/
def noSpecial : SpecialFns := ⟨fun _ _ => none, fun _ _ => none⟩

theorem smallFd_fresh : FreshFile 0 smallNode [smallFd] :=
  ⟨smallFd, ⟨⟨by decide, by decide, by decide, rfl⟩, rfl, by decide, by decide⟩, rfl⟩

/-- A seek to the third byte, and a read up to the end. -/
theorem seek_tell_small : ∃ fds fdes, vfsFindFd fds 0 = some fdes ∧ fdes.pos = 4 ∧
    ∃ q r fds', ktell fds 0 = some q ∧ kseek fds 0 q = some (r, fds') ∧
      (vfsFindFd fds' 0 = some fdes ↔ fdes.pos < 4 ∨ 2 ^ 63 ≤ fdes.pos) := by
  have hseek : fileStep smallFs noSpecial 0 [smallFd] (.seek 2) = some [{ smallFd with pos := 2 }] := by decide
  have hread : fileStep smallFs noSpecial 0 [{ smallFd with pos := 2 }] (.read Io.quiet smallImage 2) =
      some [{ smallFd with pos := 4 }] := by decide +kernel
  have hok : FileCallOk smallFs 0 smallNode [smallFd] (.seek 2) := fun _ => ⟨by decide, by decide⟩
  have hsize : FileCallOk smallFs 0 smallNode [{ smallFd with pos := 2 }] (.read Io.quiet smallImage 2) := smallImage_size
  have hs : Reach (FreshFile 0 smallNode) (fileStep smallFs noSpecial 0) (FileCallOk smallFs 0 smallNode)
      [{ smallFd with pos := 4 }] := .step (.step (.init smallFd_fresh) hok hseek) hsize hread
  obtain ⟨fdes, hfind, -, hq, -⟩ := seek_tell smallFs_ok hs
  exact ⟨_, fdes, hfind, congrArg FileDescriptor.pos (Option.some.inj hfind.symm), hq⟩

/-- An empty file, and a file that is written. -/
def emptyFd : FileDescriptor := ⟨some ⟨3, 0, .vfsReadFile⟩, FILE_NORMAL, 0, 0, FD_READ⟩
def writtenFd : FileDescriptor := ⟨some smallNode, FILE_NORMAL, 0, 1, FD_WRITE⟩

/-- **A seek in an empty file goes to the largest number**, one to the end of a file to its last byte; and a write of
`-1` bytes ends behind the file. -/
theorem seek_lost :
    fileStep smallFs noSpecial 0 [emptyFd] (.seek 0) = some [{ emptyFd with pos := 2 ^ 64 - 1 }] ∧
    (kseek [smallFd] 0 4).bind (fun r => ktell r.2 0) = some 3 ∧
    fileStep smallFs noSpecial 0 [writtenFd] (.write Io.quiet smallImage (fun _ => 0) (-1)) =
      some [{ writtenFd with pos := 1024 }] := by
  refine ⟨by decide, by decide, ?_⟩
  decide +kernel

end Nettapus
