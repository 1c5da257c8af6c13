import Nettapus.Code.Files
import Nettapus.Lib.FileStore
import Nettapus.Proof.Ext2Image
import Nettapus.Proof.Ext2Map
import Nettapus.Proof.FdNumbers
import Nettapus.Proof.Seek

/-!
# The descriptors of the tasks, and the files

A descriptor of a regular file is at a place in a file of the image (`Placed`). What a call does to such descriptors is said
once for each call: `kopenFd_eq`, `kcloseFd_eq`, `kread_cases`, `kwriteExt2_cases`, `kseek_cases`.
-/

namespace Nettapus

open Bytes Ext2Fs Fresh FileStore

variable {fs : Ext2Fs} {io : Io} {m m' src : Mem} {F : Set ℕ} {s s' : Files} {t : ℕ}
variable {fds : List FileDescriptor} {fd k amount : ℤ} {d d' : FileDescriptor} {node : FileVnode}

/-! ## Lists of descriptors -/

theorem find_mem (h : vfsFindFd fds fd = some d) : d ∈ fds := List.mem_of_find?_eq_some h

theorem setFd_self (h : vfsFindFd fds fd = some d) : setFd fds fd d = fds := by
  induction fds with
  | nil => rfl
  | cons i fds ih =>
    unfold vfsFindFd at h ih
    unfold setFd
    by_cases hi : i.fd = fd
    · rw [List.find?_cons_of_pos (by simpa using hi)] at h
      rw [if_pos hi, Option.some.inj h]
    · rw [List.find?_cons_of_neg (by simpa using hi)] at h
      rw [if_neg hi, ih h]

theorem mem_setFd (h : d' ∈ setFd fds fd d) : d' = d ∨ d' ∈ fds := by
  induction fds with
  | nil => exact .inr h
  | cons i fds ih =>
    unfold setFd at h
    split_ifs at h
    · rcases List.mem_cons.1 h with rfl | h
      · exact .inl rfl
      · exact .inr (List.mem_cons_of_mem _ h)
    · rcases List.mem_cons.1 h with rfl | h
      · exact .inr List.mem_cons_self
      · exact (ih h).imp id (List.mem_cons_of_mem _)

theorem map_setFd (hd : d.fd = fd) : (setFd fds fd d).map (·.fd) = fds.map (·.fd) := by
  induction fds with
  | nil => rfl
  | cons i fds ih =>
    unfold setFd
    split_ifs with hi
    · rw [List.map_cons, List.map_cons, hd, hi]
    · rw [List.map_cons, List.map_cons, ih]

/-- The other numbers are found as before. -/
theorem find_setFd_of_ne (hd : d.fd = fd) (hk : k ≠ fd) : vfsFindFd (setFd fds fd d) k = vfsFindFd fds k := by
  induction fds with
  | nil => rfl
  | cons i fds ih =>
    unfold vfsFindFd at ih ⊢
    unfold setFd
    by_cases hi : i.fd = fd
    · rw [if_pos hi, List.find?_cons_of_neg (by simpa [hd] using hk.symm),
        List.find?_cons_of_neg (by simpa [hi] using hk.symm)]
    · rw [if_neg hi, List.find?_cons, List.find?_cons, ih]

theorem find_append_fresh (hd : d.fd = fd) (hfresh : fd ∉ fds.map (·.fd)) :
    vfsFindFd (fds ++ [d]) k = if k = fd then some d else vfsFindFd fds k := by
  unfold vfsFindFd
  rw [List.find?_append]
  split_ifs with hk
  · subst hk
    have hnone : (fds.find? fun i => i.fd = k) = none := by
      rw [List.find?_eq_none]
      intro i hi hik
      exact hfresh (List.mem_map.2 ⟨i, hi, by simpa using hik⟩)
    rw [hnone, Option.none_or, List.find?_cons_of_pos (by simpa using hd)]
  · rw [List.find?_cons_of_neg (by simpa [hd] using Ne.symm hk), List.find?_nil, Option.or_none]

theorem find_eq_none (h : vfsFindFd fds k = none) : k ∉ fds.map (·.fd) := by
  intro hk
  obtain ⟨i, hi, rfl⟩ := List.mem_map.1 hk
  have := List.find?_eq_none.1 h i hi
  simp at this

/-- **`kopen` of a file that is there**: a descriptor with the least number that is not in use. -/
theorem kopenFd_eq (fds : List FileDescriptor) (newFd : FileDescriptor) : ∃ g : ℕ, IsFresh (fds.map (·.fd)) g ∧
    kopenFd fds (some newFd) = some ((g : ℤ), fds ++ [{ newFd with fd := g }]) := by
  obtain ⟨g, hg, heq⟩ := assignFd_eq fds newFd
  refine ⟨g, hg, ?_⟩
  unfold kopenFd
  dsimp only
  rw [heq _ le_rfl, Option.map_some, List.getLast?_concat]
  rfl

/-- A list with one descriptor less. -/
theorem find_without {pre post : List FileDescriptor} (hnodup : ((pre ++ d :: post).map (·.fd)).Nodup) (hd : d.fd = fd) :
    vfsFindFd (pre ++ post) k = if k = fd then none else vfsFindFd (pre ++ d :: post) k := by
  subst hd
  unfold vfsFindFd
  split_ifs with hk
  · subst hk
    rw [List.map_append, List.map_cons, List.nodup_middle, List.nodup_cons, ← List.map_append] at hnodup
    rw [List.find?_eq_none]
    intro i hi hik
    exact hnodup.1 (List.mem_map.2 ⟨i, hi, by simpa using hik⟩)
  · rw [List.find?_append, List.find?_append, List.find?_cons_of_neg (by simpa using Ne.symm hk)]

/-- **`kclose`**: nothing, or the descriptor is gone. -/
theorem kcloseFd_eq (hnodup : (fds.map (·.fd)).Nodup) (fd : ℤ) :
    ((kcloseFd fds fd).1 < 0 ∧ (kcloseFd fds fd).2 = fds) ∨
    ((kcloseFd fds fd).1 = GENERIC_SUCCESS ∧ (kcloseFd fds fd).2.Sublist fds ∧
      ∀ k, vfsFindFd (kcloseFd fds fd).2 k = if k = fd then none else vfsFindFd fds k) := by
  have herr : (-ERR_INVALID_PARAM : ℤ) < 0 := by decide
  unfold kcloseFd
  by_cases hneg : fd < 0
  · rw [if_pos hneg]
    exact .inl ⟨herr, rfl⟩
  rw [if_neg hneg]
  split
  · exact .inl ⟨herr, rfl⟩
  · exact .inl ⟨herr, rfl⟩
  · rename_i j hj
    refine .inr ⟨rfl, List.eraseIdx_sublist .., fun k => ?_⟩
    obtain ⟨hlt, hfd, -⟩ := List.findIdx?_eq_some_iff_getElem.1 hj
    have hsplit : fds = fds.take (j + 1) ++ fds[j + 1] :: fds.drop (j + 2) := by
      rw [← List.drop_eq_getElem_cons hlt, List.take_append_drop]
    rw [List.eraseIdx_eq_take_drop_succ]
    generalize fds[j + 1] = i at hfd hsplit
    generalize fds.take (j + 1) = pre at hsplit
    generalize fds.drop (j + 2) = post at hsplit
    subst hsplit
    have hfd : i.fd = fd := by simpa using hfd
    exact find_without hnodup hfd

/-! ## One call on a file -/

/-- A descriptor of a regular file. -/
structure IsFile (d : FileDescriptor) (node : FileVnode) : Prop where
  file : d.file ≠ FILE_DIR
  node_eq : d.node = some node
  read : node.read = .vfsReadFile

theorem IsFile.inj {node' : FileVnode} (h : IsFile d node) (h' : IsFile d node') : node' = node :=
  Option.some.inj (h'.node_eq.symm.trans h.node_eq)

/-- A place in a file of the image. -/
structure Placed (fs : Ext2Fs) (F : Set ℕ) (m : Mem) (node : FileVnode) (pos : ℕ) : Prop where
  mem : node.inodeNum ∈ F
  size : node.size = fs.sizeOf m node.inodeNum
  pos_le : pos ≤ node.size

theorem ImageOk.size_lt (h : ImageOk fs F m) (hfs : fs.Ok) {i : ℕ} (hi : i ∈ F) : fs.sizeOf m i < 2 ^ 50 := by
  rcases Nat.eq_zero_or_pos (fs.sizeOf m i) with h0 | hpos
  · omega
  · have hlast : (0 + fs.sizeOf m i - 1) / fs.blockSize * fs.blockSize < fs.sizeOf m i :=
      lt_of_le_of_lt (Nat.div_mul_le_self _ _) (by omega)
    have := hfs.range_lt ((h.fileOk hi).allocated _ hlast)
    omega

/-- The other files stay. -/
theorem ImageOk.fileBytes_ne {a i : ℕ} (h : ImageOk fs F m) (hfs : fs.Ok) (ha : a ∈ F) (hi : i ∈ F)
    (hne : i ≠ a) (hc : ChangedIn fs m m' a) : fs.fileBytes m' i = fs.fileBytes m i := by
  unfold Ext2Fs.fileBytes
  rw [(h.sameMap hfs ha hi hc).size]
  apply bytes_congr
  intro q hq
  rw [Nat.zero_add]
  exact h.content_ne hfs ha hi hne hc hq

/-- The amount that the driver is asked for: up to the end of the file. -/
theorem clip_eq {size pos : ℕ} (hpos : pos ≤ size) (hsize : size < 2 ^ 50) (h0 : 0 ≤ amount) (h1 : amount < 2 ^ 63) :
    (if u64 (toSize amount + pos) > size then toInt64 (sub64 size pos) else amount) =
      ((min amount.toNat (size - pos) : ℕ) : ℤ) := by
  rw [toSize_of_nonneg h0 h1, u64_of_lt (by omega), sub64_of_le hpos (by omega)]
  unfold toInt64
  split_ifs <;> omega

section Call

variable (hfs : fs.Ok) (himg : ImageOk fs F m) (hd : IsFile d node) (hp : Placed fs F m node d.pos)
include hfs himg hd hp

/-- **A read of a file**: the end is reported, or the next bytes are delivered, or the device has failed. -/
theorem vfsReadFile_ext2 (hmode : d.mode = FD_READ) (h0 : 0 < amount) (h1 : amount < 2 ^ 63) (io : Io) :
    (d.pos = node.size ∧ vfsReadFile (ext2ReadFile fs io m) d amount = some ⟨-ERR_EOF, [], d⟩) ∨
    (d.pos < node.size ∧ vfsReadFile (ext2ReadFile fs io m) d amount =
      some ⟨((min amount.toNat (node.size - d.pos) : ℕ) : ℤ),
        bytes (fs.content m node.inodeNum) d.pos (min amount.toNat (node.size - d.pos)),
        { d with pos := d.pos + min amount.toNat (node.size - d.pos) }⟩) ∨
    ∃ (e : ℕ) (l : List UInt8), 0 < e ∧ e ≠ ERR_EOF ∧ ¬ fs.Sound io m node.inodeNum ∧
      vfsReadFile (ext2ReadFile fs io m) d amount = some ⟨-(e : ℤ), l, d⟩ := by
  have hsize := himg.size_lt hfs hp.mem
  have hle := hp.pos_le
  rw [← hp.size] at hsize
  unfold vfsReadFile
  rw [hd.node_eq]
  dsimp only
  rw [if_neg (by omega), if_neg (not_not_intro hmode), clip_eq hle hsize (by omega) h1]
  generalize hk : min amount.toNat (node.size - d.pos) = k
  rcases Nat.eq_zero_or_pos k with rfl | hpos
  · rw [if_pos Nat.cast_zero]
    exact .inl ⟨by omega, rfl⟩
  rw [if_neg (by omega), toSize_of_nonneg (by omega) (by omega), Int.toNat_natCast]
  by_cases hr : fs.Reads io m node.inodeNum d.pos k
  · rw [(ext2ReadFile_eq hfs).1 hr, Option.map_some, if_pos (by omega), toSize_of_nonneg (by omega) (by omega),
      Int.toNat_natCast, u64_of_lt (by omega)]
    exact .inr (.inl ⟨by omega, rfl⟩)
  · obtain ⟨e, l, he, hcases⟩ := (ext2ReadFile_eq hfs).2 hr
    rw [he, Option.map_some, if_neg (by omega)]
    refine .inr (.inr ⟨e, l, ?_, ?_, fun hs => hr ?_, rfl⟩)
    · rcases hcases with rfl | rfl | rfl <;> decide
    · rcases hcases with rfl | rfl | rfl <;> decide
    · refine ⟨hs.inode_gt, hs.opens, ?_, hs.mem, fun j hj => hs.blocks j ?_⟩
      · rw [u64_of_lt (by omega), ← hp.size]
        omega
      · rw [← hp.size]
        have := (touched_iff.1 hj).2.2
        omega

/-- **A write of a file**: a beginning of what fits into it is written. -/
theorem vfsWriteExt2_spec (hmode : d.mode = FD_WRITE) (h0 : 0 ≤ amount) (h1 : amount < 2 ^ 63) (io : Io) (src : Mem) :
    ∃ (r : ℤ) (m' : Mem) (j : ℕ),
      WriteEnd fs io m m' node.inodeNum src d.pos (min amount.toNat (node.size - d.pos)) r j ∧
      vfsWriteExt2 fs io m src d amount = some (r, if r > 0 then { d with pos := d.pos + j } else d, m') := by
  have hsize := himg.size_lt hfs hp.mem
  have hle := hp.pos_le
  rw [← hp.size] at hsize
  unfold vfsWriteExt2
  rw [hd.node_eq]
  dsimp only
  rw [if_neg (not_not_intro hmode), clip_eq hle hsize h0 h1]
  generalize hk : min amount.toNat (node.size - d.pos) = k
  rw [toSize_of_nonneg (by omega) (by omega), Int.toNat_natCast]
  obtain ⟨r, m', j, hw, hend⟩ := ext2WriteFile_partial hfs (himg.fileOk hp.mem)
    (show d.pos + k < 2 ^ 64 by omega) io src
  refine ⟨r, m', j, hend, ?_⟩
  rw [hw, Option.map_some]
  dsimp only
  by_cases hr : r > 0
  · have hj := hend.status (by omega)
    have := hend.le
    rw [if_pos hr, if_pos hr, hj, toSize_of_nonneg (by omega) (by omega), Int.toNat_natCast, u64_of_lt (by omega)]
  · rw [if_neg hr, if_neg hr]

end Call

/-! ## The calls -/

/-- The number is that of a regular file. -/
def FindsFile (fds : List FileDescriptor) (fd : ℤ) (d : FileDescriptor) (node : FileVnode) : Prop :=
  0 ≤ fd ∧ vfsFindFd fds fd = some d ∧ IsFile d node

/-- Where a call on a descriptor goes. -/
inductive Found (fds : List FileDescriptor) (fd : ℤ) : Prop
  | negative (hfd : fd < 0) (hn : ∀ d node, ¬ FindsFile fds fd d node)
  | missing (hfd : ¬ fd < 0) (hfind : vfsFindFd fds fd = none) (hn : ∀ d node, ¬ FindsFile fds fd d node)
  | dir {d : FileDescriptor} (hfd : ¬ fd < 0) (hfind : vfsFindFd fds fd = some d) (hdir : d.file = FILE_DIR)
      (hn : ∀ d node, ¬ FindsFile fds fd d node)
  | noNode {d : FileDescriptor} (hfd : ¬ fd < 0) (hfind : vfsFindFd fds fd = some d) (hdir : d.file ≠ FILE_DIR)
      (hnode : d.node = none) (hn : ∀ d node, ¬ FindsFile fds fd d node)
  | null {d : FileDescriptor} {node : FileVnode} (hfd : ¬ fd < 0) (hfind : vfsFindFd fds fd = some d)
      (hdir : d.file ≠ FILE_DIR) (hnode : d.node = some node) (hread : node.read = .null)
      (hn : ∀ d node, ¬ FindsFile fds fd d node)
  | pipe {d : FileDescriptor} {node : FileVnode} (hfd : ¬ fd < 0) (hfind : vfsFindFd fds fd = some d)
      (hdir : d.file ≠ FILE_DIR) (hnode : d.node = some node) (hread : node.read = .vfsReadPipe)
      (hn : ∀ d node, ¬ FindsFile fds fd d node)
  | file {d : FileDescriptor} {node : FileVnode} (h : FindsFile fds fd d node)

theorem found (fds : List FileDescriptor) (fd : ℤ) : Found fds fd := by
  by_cases hfd : fd < 0
  · exact .negative hfd fun d node h => absurd h.1 (by omega)
  cases hfind : vfsFindFd fds fd with
  | none => exact .missing hfd hfind fun d node h => absurd (hfind.symm.trans h.2.1) (by simp)
  | some d =>
    have hsame : ∀ d' node, FindsFile fds fd d' node → IsFile d node := by
      intro d' node h
      obtain rfl := Option.some.inj (h.2.1.symm.trans hfind)
      exact h.2.2
    by_cases hdir : d.file = FILE_DIR
    · exact .dir hfd hfind hdir fun d' node h => (hsame d' node h).file hdir
    cases hnode : d.node with
    | none => exact .noNode hfd hfind hdir hnode fun d' node h => absurd ((hsame d' node h).node_eq.symm.trans hnode) (by simp)
    | some node =>
      have hread : ∀ d' node', FindsFile fds fd d' node' → node.read = .vfsReadFile := by
        intro d' node' h
        obtain rfl := Option.some.inj ((hsame d' node' h).node_eq.symm.trans hnode)
        exact (hsame d' node' h).read
      cases hr : node.read with
      | null => exact .null hfd hfind hdir hnode hr fun d' node' h => absurd (hr.symm.trans (hread d' node' h)) (by decide)
      | vfsReadPipe =>
        exact .pipe hfd hfind hdir hnode hr fun d' node' h => absurd (hr.symm.trans (hread d' node' h)) (by decide)
      | vfsReadFile => exact .file ⟨by omega, hfind, hdir, hnode, hr⟩

theorem FindsFile.inj {node' : FileVnode} (h : FindsFile fds fd d node) (h' : FindsFile fds fd d' node') : d' = d ∧ node' = node := by
  obtain ⟨-, hf, hd⟩ := h
  obtain ⟨-, hf', hd'⟩ := h'
  obtain rfl := Option.some.inj (hf'.symm.trans hf)
  exact ⟨rfl, hd.inj hd'⟩

/-- `kread` refuses, or goes to `vfs_read_file`. -/
theorem kread_found {read : DriverRead} {r : Delivered (List FileDescriptor)}
    (hr : kread read (fun _ _ => none) fds fd amount = some r) :
    (r = ⟨-ERR_INVALID_PARAM, [], fds⟩ ∧ ∀ d node, ¬ FindsFile fds fd d node) ∨
    ∃ d node q, FindsFile fds fd d node ∧ vfsReadFile read d amount = some q ∧ r = ⟨q.status, q.data, setFd fds fd q.state⟩ := by
  unfold kread at hr
  cases found fds fd with
  | negative hfd hn =>
    rw [if_pos hfd] at hr
    exact .inl ⟨(Option.some.inj hr).symm, hn⟩
  | missing hfd hfind hn =>
    rw [if_neg hfd, hfind] at hr
    exact .inl ⟨(Option.some.inj hr).symm, hn⟩
  | dir hfd hfind hdir hn =>
    rw [if_neg hfd, hfind] at hr
    simp [hdir] at hr
  | noNode hfd hfind hdir hnode hn =>
    rw [if_neg hfd, hfind] at hr
    simp only [hdir, hnode, if_false, Option.map_some, setFd_self hfind] at hr
    exact .inl ⟨(Option.some.inj hr).symm, hn⟩
  | null hfd hfind hdir hnode hread hn =>
    rw [if_neg hfd, hfind] at hr
    simp only [hdir, hnode, hread, if_false, Option.map_some, setFd_self hfind] at hr
    exact .inl ⟨(Option.some.inj hr).symm, hn⟩
  | pipe hfd hfind hdir hnode hread hn =>
    rw [if_neg hfd, hfind] at hr
    simp [hdir, hnode, hread] at hr
  | file h =>
    obtain ⟨hfd, hfind, hd⟩ := h
    rw [if_neg (by omega), hfind] at hr
    simp only [hd.file, hd.node_eq, hd.read, if_false] at hr
    obtain ⟨q, hq, rfl⟩ := Option.map_eq_some_iff.1 hr
    exact .inr ⟨_, _, q, ⟨hfd, hfind, hd⟩, hq, rfl⟩

/-- A read of nothing. -/
theorem kread_zero {read : DriverRead} {r : Delivered (List FileDescriptor)}
    (hr : kread read (fun _ _ => none) fds fd 0 = some r) :
    r = ⟨0, [], fds⟩ ∨ (r = ⟨-ERR_INVALID_PARAM, [], fds⟩ ∧ ∀ d node, ¬ FindsFile fds fd d node) := by
  rcases kread_found hr with hno | ⟨d, node, q, hd, hq, rfl⟩
  · exact .inr hno
  · have hzero : vfsReadFile read d 0 = some ⟨0, [], d⟩ := by
      unfold vfsReadFile
      rw [hd.2.2.node_eq]
      exact if_pos rfl
    rw [hzero] at hq
    obtain rfl := Option.some.inj hq
    left
    dsimp only
    rw [setFd_self hd.2.1]

/-- `kwrite` refuses, or goes to `vfs_write_file`. -/
theorem kwriteExt2_found {r : ℤ × List FileDescriptor × Mem} (hr : kwriteExt2 fs io m src fds fd amount = some r) :
    (r = (-(ERR_INVALID_PARAM : ℤ), fds, m) ∧ ∀ d node, ¬ FindsFile fds fd d node) ∨
    ∃ d node q, FindsFile fds fd d node ∧ vfsWriteExt2 fs io m src d amount = some q ∧ r = (q.1, setFd fds fd q.2.1, q.2.2) := by
  unfold kwriteExt2 at hr
  cases found fds fd with
  | negative hfd hn =>
    rw [if_pos hfd] at hr
    exact .inl ⟨(Option.some.inj hr).symm, hn⟩
  | missing hfd hfind hn =>
    rw [if_neg hfd, hfind] at hr
    exact .inl ⟨(Option.some.inj hr).symm, hn⟩
  | dir hfd hfind hdir hn =>
    rw [if_neg hfd, hfind] at hr
    simp only [hdir, if_true, Option.map_some, setFd_self hfind] at hr
    exact .inl ⟨(Option.some.inj hr).symm, hn⟩
  | noNode hfd hfind hdir hnode hn =>
    rw [if_neg hfd, hfind] at hr
    simp only [hdir, hnode, if_false, Option.map_some, setFd_self hfind] at hr
    exact .inl ⟨(Option.some.inj hr).symm, hn⟩
  | null hfd hfind hdir hnode hread hn =>
    rw [if_neg hfd, hfind] at hr
    simp only [hdir, hnode, hread, if_false, Option.map_some, setFd_self hfind] at hr
    exact .inl ⟨(Option.some.inj hr).symm, hn⟩
  | pipe hfd hfind hdir hnode hread hn =>
    rw [if_neg hfd, hfind] at hr
    simp [hdir, hnode, hread] at hr
  | file h =>
    obtain ⟨hfd, hfind, hd⟩ := h
    rw [if_neg (by omega), hfind] at hr
    simp only [hd.file, hd.node_eq, hd.read, if_false] at hr
    obtain ⟨q, hq, rfl⟩ := Option.map_eq_some_iff.1 hr
    exact .inr ⟨_, _, q, ⟨hfd, hfind, hd⟩, hq, rfl⟩

theorem vfsWriteExt2_vfsWriteFile : (vfsWriteExt2 fs io m src d amount).map (fun r => (r.1, r.2.1)) =
    vfsWriteFile (fun inode off n => (ext2WriteFile fs io m inode src off n).map Prod.fst) d amount := by
  unfold vfsWriteExt2 vfsWriteFile
  cases hnode : d.node with
  | none => rfl
  | some node =>
    dsimp only
    by_cases hmode : d.mode ≠ FD_WRITE
    · rw [if_pos hmode, if_pos hmode, Option.map_some]
    · rw [if_neg hmode, if_neg hmode, Option.map_map, Option.map_map]
      rfl

/-- But for the device it is `kwrite`. -/
theorem kwriteExt2_kwrite : (kwriteExt2 fs io m src fds fd amount).map (fun r => (r.1, r.2.1)) =
    kwrite (fun inode off n => (ext2WriteFile fs io m inode src off n).map Prod.fst) (fun _ _ => none) fds fd amount := by
  unfold kwriteExt2 kwrite
  cases found fds fd with
  | negative hfd hn => rw [if_pos hfd, if_pos hfd, Option.map_some]
  | missing hfd hfind hn => rw [if_neg hfd, if_neg hfd, hfind, Option.map_some]
  | dir hfd hfind hdir hn =>
    rw [if_neg hfd, if_neg hfd, hfind]
    simp only [hdir, if_true, Option.map_some]
  | noNode hfd hfind hdir hnode hn =>
    rw [if_neg hfd, if_neg hfd, hfind]
    simp only [hdir, hnode, if_false, Option.map_some]
  | null hfd hfind hdir hnode hread hn =>
    rw [if_neg hfd, if_neg hfd, hfind]
    simp only [hdir, hnode, hread, if_false, Option.map_some]
  | pipe hfd hfind hdir hnode hread hn =>
    rw [if_neg hfd, if_neg hfd, hfind]
    simp only [hdir, hnode, hread, if_false, Option.map_none]
  | file h =>
    obtain ⟨hfd, hfind, hd⟩ := h
    rw [if_neg (by omega), if_neg (by omega), hfind]
    simp only [hd.file, hd.node_eq, hd.read, if_false]
    rw [← vfsWriteExt2_vfsWriteFile, Option.map_map, Option.map_map]
    rfl

/-- `kseek` of something that has a node. -/
theorem kseek_node {pos : ℤ} (hfd : ¬ fd < 0) (hpos : ¬ pos < 0) (hfind : vfsFindFd fds fd = some d)
    (hdir : d.file ≠ FILE_DIR) (hnode : d.node = some node) : kseek fds fd pos =
      some (toInt64 (if toSize pos ≥ node.size then sub64 node.size 1 else toSize pos),
        setFd fds fd { d with pos := if toSize pos ≥ node.size then sub64 node.size 1 else toSize pos }) := by
  unfold kseek
  rw [if_neg hfd, if_neg hpos, hfind, Option.map_some, if_neg hdir]
  split
  · rename_i hnone
    exact absurd (hnode.symm.trans hnone) (by simp)
  · rename_i node' hnode'
    obtain rfl := Option.some.inj (hnode.symm.trans hnode')
    rfl

section Calls

variable (hfs : fs.Ok) (himg : ImageOk fs F m) (hall : ∀ d ∈ fds, ∀ node, IsFile d node → Placed fs F m node d.pos)
include hfs himg hall

/-- **`kread`**: an error that leaves everything, the end of the file, or the next bytes of it. -/
theorem kread_cases {r : Delivered (List FileDescriptor)} (h0 : 0 < amount) (h1 : amount < 2 ^ 63)
    (hr : kread (ext2ReadFile fs io m) (fun _ _ => none) fds fd amount = some r) :
    (r.status < 0 ∧ r.status ≠ -ERR_EOF ∧ r.state = fds ∧
      ∀ d node, FindsFile fds fd d node → d.mode = FD_READ → ¬ fs.Sound io m node.inodeNum) ∨
    ∃ d node, FindsFile fds fd d node ∧ d.mode = FD_READ ∧
      ((d.pos = node.size ∧ r.status = -ERR_EOF ∧ r.state = fds) ∨
        (d.pos < node.size ∧ r.status = ((min amount.toNat (node.size - d.pos) : ℕ) : ℤ) ∧
          r.data = bytes (fs.content m node.inodeNum) d.pos (min amount.toNat (node.size - d.pos)) ∧
          r.state = setFd fds fd { d with pos := d.pos + min amount.toNat (node.size - d.pos) })) := by
  have hneg : (-ERR_INVALID_PARAM : ℤ) < 0 := by decide
  have hne : (-ERR_INVALID_PARAM : ℤ) ≠ -ERR_EOF := by decide
  rcases kread_found hr with ⟨rfl, hnone⟩ | ⟨d, node, q, hd, hq, rfl⟩
  · exact .inl ⟨hneg, hne, rfl, fun d node h => absurd h (hnone d node)⟩
  have hself := setFd_self hd.2.1
  by_cases hmode : d.mode = FD_READ
  · rcases vfsReadFile_ext2 hfs himg hd.2.2 (hall d (find_mem hd.2.1) node hd.2.2) hmode h0 h1 io with
      ⟨hend, he⟩ | ⟨hlt, he⟩ | ⟨e, l, hpos, hneof, hbad, he⟩
    · rw [he] at hq
      obtain rfl := Option.some.inj hq
      exact .inr ⟨d, node, hd, hmode, .inl ⟨hend, rfl, hself⟩⟩
    · rw [he] at hq
      obtain rfl := Option.some.inj hq
      exact .inr ⟨d, node, hd, hmode, .inr ⟨hlt, rfl, rfl, rfl⟩⟩
    · rw [he] at hq
      obtain rfl := Option.some.inj hq
      refine .inl ⟨by dsimp only; omega, by dsimp only; omega, hself, fun d' node' h _ => ?_⟩
      rw [(hd.inj h).2]
      exact hbad
  · have he : vfsReadFile (ext2ReadFile fs io m) d amount = some ⟨-ERR_INVALID_PARAM, [], d⟩ := by
      unfold vfsReadFile
      rw [hd.2.2.node_eq]
      dsimp only
      rw [if_neg (by omega), if_pos hmode]
    rw [he] at hq
    obtain rfl := Option.some.inj hq
    refine .inl ⟨hneg, hne, hself, fun d' node' h hm => absurd hm ?_⟩
    rw [(hd.inj h).1]
    exact hmode

/-- **`kwrite`**: an error that leaves everything, or a beginning of what fits is written. -/
theorem kwriteExt2_cases {r : ℤ × List FileDescriptor × Mem} (h0 : 0 ≤ amount) (h1 : amount < 2 ^ 63)
    (hr : kwriteExt2 fs io m src fds fd amount = some r) :
    (r.1 < 0 ∧ r.2 = (fds, m) ∧ ∀ d node, FindsFile fds fd d node → d.mode ≠ FD_WRITE) ∨
    ∃ d node j, FindsFile fds fd d node ∧ d.mode = FD_WRITE ∧
      WriteEnd fs io m r.2.2 node.inodeNum src d.pos (min amount.toNat (node.size - d.pos)) r.1 j ∧
      r.2.1 = setFd fds fd (if r.1 > 0 then { d with pos := d.pos + j } else d) := by
  have hneg : (-ERR_INVALID_PARAM : ℤ) < 0 := by decide
  rcases kwriteExt2_found hr with ⟨rfl, hnone⟩ | ⟨d, node, q, hd, hq, rfl⟩
  · exact .inl ⟨hneg, rfl, fun d node h => absurd h (hnone d node)⟩
  by_cases hmode : d.mode = FD_WRITE
  · obtain ⟨r, m', j, hend, he⟩ :=
      vfsWriteExt2_spec hfs himg hd.2.2 (hall d (find_mem hd.2.1) node hd.2.2) hmode h0 h1 io src
    rw [he] at hq
    obtain rfl := Option.some.inj hq
    exact .inr ⟨d, node, j, hd, hmode, hend, rfl⟩
  · have he : vfsWriteExt2 fs io m src d amount = some (-(ERR_INVALID_PARAM : ℤ), d, m) := by
      unfold vfsWriteExt2
      rw [hd.2.2.node_eq]
      dsimp only
      rw [if_pos hmode]
    rw [he] at hq
    obtain rfl := Option.some.inj hq
    refine .inl ⟨hneg, congrArg (·, m) (setFd_self hd.2.1), fun d' node' h => ?_⟩
    rw [(hd.inj h).1]
    exact hmode

/-- **`kseek`**: an error that leaves everything, a position in a file, or a position of something else. -/
theorem kseek_cases {pos : ℤ} {r : ℤ × List FileDescriptor} (h1 : pos < 2 ^ 63)
    (hempty : ∀ d node, FindsFile fds fd d node → 0 ≤ pos → node.size ≠ 0) (hr : kseek fds fd pos = some r) :
    (r.1 < 0 ∧ r.2 = fds ∧ (fd < 0 ∨ pos < 0)) ∨
    (∃ d node, FindsFile fds fd d node ∧ 0 ≤ pos ∧ r.1 = ((min pos.toNat (node.size - 1) : ℕ) : ℤ) ∧
      r.2 = setFd fds fd { d with pos := min pos.toNat (node.size - 1) }) ∨
    ∃ d p, vfsFindFd fds fd = some d ∧ (∀ node, ¬ IsFile d node) ∧ r.2 = setFd fds fd { d with pos := p } := by
  have hneg : (-ERR_INVALID_PARAM : ℤ) < 0 := by decide
  by_cases hpos : pos < 0
  · unfold kseek at hr
    rcases lt_or_ge fd 0 with hfd | hfd
    · rw [if_pos hfd] at hr
      obtain rfl := Option.some.inj hr
      exact .inl ⟨hneg, rfl, .inl hfd⟩
    · rw [if_neg (by omega), if_pos hpos] at hr
      obtain rfl := Option.some.inj hr
      exact .inl ⟨hneg, rfl, .inr hpos⟩
  cases found fds fd with
  | negative hfd hn =>
    unfold kseek at hr
    rw [if_pos hfd] at hr
    obtain rfl := Option.some.inj hr
    exact .inl ⟨hneg, rfl, .inl hfd⟩
  | missing hfd hfind hn =>
    unfold kseek at hr
    rw [if_neg hfd, if_neg hpos, hfind] at hr
    cases hr
  | @dir d hfd hfind hdir hn =>
    unfold kseek at hr
    rw [if_neg hfd, if_neg hpos, hfind, Option.map_some, if_pos hdir] at hr
    obtain rfl := Option.some.inj hr
    exact .inr (.inr ⟨d, d.pos, hfind, fun node h => h.file hdir, (setFd_self hfind).symm⟩)
  | @noNode d hfd hfind hdir hnode hn =>
    unfold kseek at hr
    rw [if_neg hfd, if_neg hpos, hfind, Option.map_some, if_neg hdir, hnode] at hr
    obtain rfl := Option.some.inj hr
    refine .inr (.inr ⟨d, d.pos, hfind, fun node h => hn d node ⟨by omega, hfind, h⟩, (setFd_self hfind).symm⟩)
  | @null d node hfd hfind hdir hnode hread hn =>
    obtain rfl := Option.some.inj (hr.symm.trans (kseek_node hfd hpos hfind hdir hnode))
    exact .inr (.inr ⟨d, _, hfind, fun node h => hn d node ⟨by omega, hfind, h⟩, rfl⟩)
  | @pipe d node hfd hfind hdir hnode hread hn =>
    obtain rfl := Option.some.inj (hr.symm.trans (kseek_node hfd hpos hfind hdir hnode))
    exact .inr (.inr ⟨d, _, hfind, fun node h => hn d node ⟨by omega, hfind, h⟩, rfl⟩)
  | @file d node h =>
    obtain ⟨hfd, hfind, hd⟩ := h
    have hplaced := hall d (find_mem hfind) node hd
    have hsize := himg.size_lt hfs hplaced.mem
    rw [← hplaced.size] at hsize
    have hne := hempty d node ⟨hfd, hfind, hd⟩ (by omega)
    have hp : (if toSize pos ≥ node.size then sub64 node.size 1 else toSize pos) = min pos.toNat (node.size - 1) := by
      rw [toSize_of_nonneg (by omega) h1, sub64_of_le (by omega) (by omega)]
      split_ifs <;> omega
    rw [kseek_node (not_lt.2 hfd) hpos hfind hd.file hd.node_eq, hp] at hr
    obtain rfl := Option.some.inj hr
    refine .inr (.inl ⟨d, node, ⟨hfd, hfind, hd⟩, by omega, ?_, rfl⟩)
    unfold toInt64
    rw [if_pos (by omega)]

end Calls

end Nettapus
