import Nettapus.Code.File
import Nettapus.Proof.Ext2Write

/-!
# Sequential reads

A driver `Serves` a file if a read returns the range that was asked for, or an error. From this
`vfsReadFile_step` says what a call does to the position, and `kreads_spec` what a sequence of calls
delivers: the file from its beginning up to the position.
-/

namespace Nettapus

open Bytes Ext2Fs

/-- A driver reads the file `inode`, whose content is `content`. -/
def Serves (read : DriverRead) (inode : ℕ) (content : List UInt8) : Prop :=
  ∀ off n, 0 < n →
    (read inode off n = some ((n : ℤ), (content.drop off).take n) ∧ off + n ≤ content.length ∧ off + n < 2 ^ 63) ∨
    ∃ (e : ℕ) (l : List UInt8), 0 < e ∧ e ≠ ERR_EOF ∧ read inode off n = some (-(e : ℤ), l)

/-- The content of a file, with its length. -/
def Ext2Fs.fileBytes (fs : Ext2Fs) (m : Mem) (inode : ℕ) : List UInt8 := bytes (fs.content m inode) 0 (fs.sizeOf m inode)

theorem bytes_slice (m : Mem) {off n size : ℕ} (h : off + n ≤ size) :
    ((bytes m 0 size).drop off).take n = bytes m off n := by
  obtain ⟨k, rfl⟩ := Nat.exists_eq_add_of_le h
  have hlen : ∀ a k, (bytes m a k).length = k := fun a k => by simp [bytes]
  rw [Nat.add_assoc, bytes_add, List.drop_left' (hlen 0 off), bytes_add, List.take_left' (hlen _ n), Nat.zero_add]

/-- The ext2 driver reads every file. -/
theorem ext2_serves {fs : Ext2Fs} (h : fs.Ok) (io : Io) (m : Mem) (inode : ℕ) :
    Serves (ext2ReadFile fs io m) inode (fs.fileBytes m inode) := by
  intro off n hn
  by_cases hr : fs.Reads io m inode off n
  · obtain ⟨h1, h2⟩ := hr.range_le h hn
    left
    refine ⟨?_, ?_, by omega⟩
    · unfold Ext2Fs.fileBytes
      rw [(ext2ReadFile_eq h).1 hr, bytes_slice _ h2]
    · simpa [Ext2Fs.fileBytes, bytes] using h2
  · obtain ⟨e, l, he, hcases⟩ := (ext2ReadFile_eq h).2 hr
    right
    refine ⟨e, l, ?_, ?_, he⟩
    · rcases hcases with rfl | rfl | rfl <;> decide
    · rcases hcases with rfl | rfl | rfl <;> decide

/-! ## One call -/

theorem toSize_of_nonneg {z : ℤ} (h0 : 0 ≤ z) (h1 : z < 2 ^ 63) : toSize z = z.toNat := by
  unfold toSize
  rw [Int.emod_eq_of_lt h0 (by omega)]

variable {read : DriverRead} {content : List UInt8} {fdes : FileDescriptor} {node : FileVnode} {amount : ℤ}

/-- A descriptor in the middle of a file. -/
structure Reading (fdes : FileDescriptor) (node : FileVnode) (content : List UInt8) : Prop where
  node_eq : fdes.node = some node
  mode : fdes.mode = FD_READ
  size_lt : node.size < 2 ^ 64
  pos_le : fdes.pos ≤ node.size
  pos_le_length : fdes.pos ≤ content.length
  pos_lt : fdes.pos < 2 ^ 63

/-- **A call of `vfs_read_file`**: the next bytes of the file, or an error that leaves the descriptor. -/
theorem vfsReadFile_step (hf : Reading fdes node content) (hs : Serves read node.inodeNum content)
    (h0 : 0 < amount) (h1 : amount < 2 ^ 63) : ∃ r, vfsReadFile read fdes amount = some r ∧
    (r.status = -ERR_EOF ↔ fdes.pos = node.size) ∧
    ((r.status < 0 ∧ r.state = fdes) ∨
      ∃ n : ℕ, 0 < n ∧ r.status = (n : ℤ) ∧ r.data = (content.drop fdes.pos).take n ∧
        r.state = { fdes with pos := fdes.pos + n } ∧ fdes.pos + n ≤ node.size ∧
        fdes.pos + n ≤ content.length ∧ fdes.pos + n < 2 ^ 63) := by
  have hp := hf.pos_le
  have hlt := hf.pos_lt
  have hsz := hf.size_lt
  unfold vfsReadFile
  rw [hf.node_eq]
  dsimp only
  rw [if_neg (by omega), if_neg (not_not_intro hf.mode), toSize_of_nonneg (by omega) h1, u64_of_lt (by omega),
    sub64_of_le hp hsz]
  -- the amount that is asked of the driver
  obtain ⟨k, hk, hle, heof⟩ : ∃ k : ℕ, (if amount.toNat + fdes.pos > node.size then toInt64 (node.size - fdes.pos)
      else amount) = (k : ℤ) ∧ k < 2 ^ 63 ∧ fdes.pos + k ≤ node.size ∧ (k = 0 ↔ fdes.pos = node.size) := by
    by_cases hc : amount.toNat + fdes.pos > node.size
    · refine ⟨node.size - fdes.pos, ?_, by omega, by omega, by omega⟩
      unfold toInt64
      rw [if_pos hc, if_pos (by omega)]
    · refine ⟨amount.toNat, ?_, by omega, by omega, by omega⟩
      rw [if_neg hc]
      omega
  rw [hk]
  by_cases hk0 : k = 0
  · rw [if_pos (by omega)]
    exact ⟨_, rfl, ⟨fun _ => heof.2.1 hk0, fun _ => rfl⟩, Or.inl ⟨show -(ERR_EOF : ℤ) < 0 by decide, rfl⟩⟩
  have hpos : fdes.pos ≠ node.size := fun hc => hk0 (heof.2.2 hc)
  rw [if_neg (by omega), toSize_of_nonneg (by omega) (by omega), Int.toNat_natCast]
  rcases hs fdes.pos k (by omega) with ⟨hr, hl, hb⟩ | ⟨e, l, he0, hne, hr⟩
  · rw [hr]
    refine ⟨_, rfl, ⟨fun hc => ?_, fun hc => absurd hc hpos⟩, Or.inr ⟨k, by omega, rfl, rfl, ?_, heof.1, hl, hb⟩⟩
    · exact absurd hc (by unfold ERR_EOF; dsimp only; omega)
    · dsimp only
      rw [if_pos (by omega), toSize_of_nonneg (by omega) (by omega), Int.toNat_natCast, u64_of_lt (by omega)]
  · rw [hr]
    refine ⟨_, rfl, ⟨fun hc => ?_, fun hc => absurd hc hpos⟩, Or.inl ⟨?_, ?_⟩⟩
    · dsimp only at hc
      exact absurd (show e = ERR_EOF by omega) hne
    · dsimp only
      omega
    · dsimp only
      rw [if_neg (by omega)]

/-! ## Sequences of calls -/

variable {special : FileDescriptor → ℤ → Option (Delivered FileDescriptor)}
variable {fds : List FileDescriptor} {fd : ℤ}

theorem find_setFd {d : FileDescriptor} (hfind : vfsFindFd fds fd = some fdes) (hd : d.fd = fd) :
    vfsFindFd (setFd fds fd d) fd = some d := by
  induction fds with
  | nil => exact absurd hfind (by simp [vfsFindFd])
  | cons i fds ih =>
    unfold vfsFindFd at hfind ih ⊢
    unfold setFd
    by_cases hi : i.fd = fd
    · rw [if_pos hi, List.find?_cons_of_pos (by simpa using hd)]
    · rw [List.find?_cons_of_neg (by simpa using hi)] at hfind
      rw [if_neg hi, List.find?_cons_of_neg (by simpa using hi)]
      exact ih hfind

theorem find_fd (hfind : vfsFindFd fds fd = some fdes) : fdes.fd = fd := by
  have := List.find?_some hfind
  simpa using this

/-- A descriptor of a regular file, found under its number. -/
structure Opened (fds : List FileDescriptor) (fd : ℤ) (fdes : FileDescriptor) (node : FileVnode) : Prop where
  nonneg : 0 ≤ fd
  find : vfsFindFd fds fd = some fdes
  file : fdes.file ≠ FILE_DIR
  read : node.read = .vfsReadFile

/-- `kread` of a regular file is `vfs_read_file`. -/
theorem kread_eq (ho : Opened fds fd fdes node) (hnode : fdes.node = some node) :
    kread read special fds fd amount =
      (vfsReadFile read fdes amount).map fun r => ⟨r.status, r.data, setFd fds fd r.state⟩ := by
  have hfd := ho.nonneg
  unfold kread
  rw [if_neg (by omega), ho.find]
  dsimp only
  rw [if_neg ho.file, hnode]
  dsimp only
  rw [ho.read]

/-- **A sequence of calls** delivers the file up to the position. -/
theorem kreads_spec (special : FileDescriptor → ℤ → Option (Delivered FileDescriptor)) (calls : List ReadCall)
    (hcalls : ∀ c ∈ calls, 0 < c.amount ∧ c.amount < 2 ^ 63 ∧ Serves c.read node.inodeNum content)
    (ho : Opened fds fd fdes node) (hf : Reading fdes node content) :
    ∃ fds' d, kreads special fd fds (content.take fdes.pos) calls = some (content.take d.pos, fds') ∧
      Opened fds' fd d node ∧ Reading d node content := by
  induction calls generalizing fds fdes with
  | nil => exact ⟨fds, fdes, rfl, ho, hf⟩
  | cons c calls ih =>
    obtain ⟨h0, h1, hs⟩ := hcalls c List.mem_cons_self
    have hrest : ∀ c ∈ calls, 0 < c.amount ∧ c.amount < 2 ^ 63 ∧ Serves c.read node.inodeNum content :=
      fun c hc => hcalls c (List.mem_cons_of_mem _ hc)
    obtain ⟨r, hr, -, hcase⟩ := vfsReadFile_step hf hs h0 h1
    unfold kreads
    rw [kread_eq ho hf.node_eq, hr, Option.map_some, Option.bind_some]
    rcases hcase with ⟨hneg, hstate⟩ | ⟨n, hn, hst, hdata, hstate, hle1, hle2, hlt⟩
    · -- the descriptor stays, and nothing is delivered
      dsimp only
      rw [if_neg (by omega), hstate]
      exact ih hrest ⟨ho.nonneg, find_setFd ho.find (find_fd ho.find), ho.file, ho.read⟩ hf
    · dsimp only
      rw [if_pos (by omega), hstate, hdata, ← List.take_add]
      have hfd : fdes.fd = fd := find_fd ho.find
      have hopened : Opened (setFd fds fd { fdes with pos := fdes.pos + n }) fd { fdes with pos := fdes.pos + n } node :=
        ⟨ho.nonneg, find_setFd ho.find hfd, ho.file, ho.read⟩
      exact ih hrest hopened
        ⟨hf.node_eq, hf.mode, hf.size_lt, hle1, hle2, hlt⟩

/-- What the ext2 driver does during a call, and the call. -/
structure Ext2Call where
  io : Io
  image : Mem
  amount : ℤ

def Ext2Call.call (fs : Ext2Fs) (c : Ext2Call) : ReadCall := ⟨ext2ReadFile fs c.io c.image, c.amount⟩

/-- A call with a positive amount, while the file has the content `content`. -/
def Ext2Call.Ok (fs : Ext2Fs) (inode : ℕ) (content : List UInt8) (c : Ext2Call) : Prop :=
  0 < c.amount ∧ c.amount < 2 ^ 63 ∧ fs.fileBytes c.image inode = content

/-- **Sequential reads.** From a descriptor at the beginning of a file, after any calls with positive
amounts: what was delivered is the beginning of the file, up to the position, which is not behind the end.
Of the next call: an error leaves the descriptor, and the end of the file is reported
exactly at the end. -/
theorem sequential_read {fs : Ext2Fs} (h : fs.Ok) (ho : Opened fds fd fdes node) (hnode : fdes.node = some node)
    (hmode : fdes.mode = FD_READ) (hpos : fdes.pos = 0) (hsize : node.size < 2 ^ 64) (content : List UInt8)
    (calls : List Ext2Call) (hcalls : ∀ c ∈ calls, c.Ok fs node.inodeNum content) :
    ∃ out fds' d, kreads special fd fds [] (calls.map (·.call fs)) = some (out, fds') ∧
      vfsFindFd fds' fd = some d ∧ out <+: content ∧ out.length = d.pos ∧ d.pos ≤ node.size ∧
      ∀ c : Ext2Call, c.Ok fs node.inodeNum content →
        ∃ r, kread (c.call fs).read special fds' fd (c.call fs).amount = some r ∧
          (r.status < 0 → vfsFindFd r.state fd = some d) ∧ (r.status = -ERR_EOF ↔ d.pos = node.size) := by
  have hf : Reading fdes node content := ⟨hnode, hmode, hsize, by omega, by omega, by omega⟩
  have hserves : ∀ c : Ext2Call, c.Ok fs node.inodeNum content → 0 < (c.call fs).amount ∧
      (c.call fs).amount < 2 ^ 63 ∧ Serves (c.call fs).read node.inodeNum content := by
    rintro c ⟨h0, h1, rfl⟩
    exact ⟨h0, h1, ext2_serves h c.io c.image node.inodeNum⟩
  obtain ⟨fds', d, hrun, ho', hf'⟩ := kreads_spec special (calls.map (·.call fs))
    (by
      intro c hc
      obtain ⟨c', hc', rfl⟩ := List.mem_map.1 hc
      exact hserves c' (hcalls c' hc')) ho hf
  rw [hpos, List.take_zero] at hrun
  refine ⟨_, fds', d, hrun, ho'.find, List.take_prefix _ _, ?_, hf'.pos_le, fun c hc => ?_⟩
  · rw [List.length_take]
    exact Nat.min_eq_left hf'.pos_le_length
  · obtain ⟨h0, h1, hs⟩ := hserves c hc
    obtain ⟨r, hr, heof, hcase⟩ := vfsReadFile_step hf' hs h0 h1
    rw [kread_eq ho' hf'.node_eq, hr]
    refine ⟨_, rfl, fun hneg => ?_, heof⟩
    dsimp only at hneg ⊢
    rcases hcase with ⟨-, hstate⟩ | ⟨n, hn, hst, -⟩
    · rw [hstate]
      exact find_setFd ho'.find (find_fd ho'.find)
    · omega

/-- The inode 3 of the small file system. -/
def smallNode : FileVnode := ⟨3, 4, .vfsReadFile⟩

def smallFd : FileDescriptor := ⟨some smallNode, FILE_NORMAL, 0, 0, FD_READ⟩

def smallCalls : List Ext2Call := [⟨Io.quiet, smallImage, 3⟩, ⟨dirtyIo, smallImage, 3⟩]

theorem sequential_read_small : ∃ out fds' d,
    kreads (fun _ _ => none) 0 [smallFd] [] (smallCalls.map (·.call smallFs)) = some (out, fds') ∧
    vfsFindFd fds' 0 = some d ∧ out <+: smallFs.fileBytes smallImage 3 ∧ out.length = d.pos ∧ d.pos ≤ 4 := by
  obtain ⟨out, fds', d, h1, h2, h3, h4, h5, -⟩ := sequential_read
    smallFs_ok (show Opened [smallFd] 0 smallFd smallNode from ⟨by decide, by decide, by decide, rfl⟩) rfl rfl rfl
    (by decide) (smallFs.fileBytes smallImage 3) smallCalls
    (by
      intro c hc
      rcases List.mem_cons.1 hc with rfl | hc
      · exact ⟨by decide, by decide, rfl⟩
      · obtain rfl := List.mem_singleton.1 hc
        exact ⟨by decide, by decide, rfl⟩)
  exact ⟨out, fds', d, h1, h2, h3, h4, h5⟩

end Nettapus
