import Nettapus.Proof.Files

/-!
# The files refine a store

`view` forgets the device: what is left are the files as lists of bytes, and the handles of the tasks. In every run a call
does to the view what `FileStore.Step` says (`FilesOk.simulates`).
-/

namespace Nettapus

open Bytes Ext2Fs Fresh FileStore Simulation

variable {fs : Ext2Fs} {io : Io} {m m' m₀ src : Mem} {F : Set ℕ} {s s' s₁ s₂ s₃ : Files} {t : ℕ} {e : FileEvent}
variable {fds : List FileDescriptor} {fd k amount : ℤ} {d d' : FileDescriptor} {node : FileVnode} {a i n : ℕ}

/-- The descriptors have numbers of their own, and those of regular files are at places in files of the image. -/
structure FilesOk (fs : Ext2Fs) (F : Set ℕ) (s : Files) : Prop where
  image : ImageOk fs F s.disk
  nodup : ∀ t, ((s.fds t).map (·.fd)).Nodup
  nonneg : ∀ t, ∀ d ∈ s.fds t, 0 ≤ d.fd
  placed : ∀ t, ∀ d ∈ s.fds t, ∀ node, IsFile d node → Placed fs F s.disk node d.pos

namespace Files

/-- What the callers see to: the vnode of a file has its size, amounts are sizes of buffers, and an empty file is not
sought in. -/
def Allowed (fs : Ext2Fs) (F : Set ℕ) (s : Files) (t : ℕ) : FileOp → Prop
  | .openFile node _ => node.read = .vfsReadFile → node.inodeNum ∈ F ∧ node.size = fs.sizeOf s.disk node.inodeNum
  | .close _ => True
  | .read _ _ amount => 0 ≤ amount ∧ amount < 2 ^ 63
  | .write _ _ _ amount => 0 ≤ amount ∧ amount < 2 ^ 63
  | .seek fd pos => pos < 2 ^ 63 ∧ ∀ d node, FindsFile (s.fds t) fd d node → 0 ≤ pos → node.size ≠ 0
  | .exec t' => t ≠ t'

/-- A write keeps the bytes behind its range. -/
def KeepsTail (fs : Ext2Fs) (s : Files) (t : ℕ) : FileOp → Prop
  | .write io src fd amount => ∀ d node, FindsFile (s.fds t) fd d node → d.mode = FD_WRITE →
      TailKept fs io s.disk node.inodeNum src d.pos (min amount.toNat (node.size - d.pos))
  | _ => True

/-- The call writes to the file. -/
def WritesTo (s : Files) (e : FileEvent) (i : ℕ) : Prop :=
  match e.op with
  | .write _ _ fd _ => ∃ d node, FindsFile (s.fds e.task) fd d node ∧ d.mode = FD_WRITE ∧ node.inodeNum = i
  | _ => False

end Files

/-- A call, with what it returned. -/
structure FileStep (fs : Ext2Fs) (F : Set ℕ) (s : Files) (e : FileEvent) (s' : Files) : Prop where
  allowed : s.Allowed fs F e.task e.op
  call : s.call fs e.task e.op = some (e.status, e.data, s')

/-! ## The view -/

def modeOf (mode : ℕ) : Mode := if mode = FD_READ then .read else if mode = FD_WRITE then .write else .neither

/-- What a descriptor is a handle of. -/
def handleOf (d : FileDescriptor) : Handle ℕ :=
  match d.node with
  | none => .other
  | some node =>
    if d.file ≠ FILE_DIR ∧ node.read = .vfsReadFile then .file node.inodeNum d.pos (modeOf d.mode) else .other

open Classical in
/-- The files of the image, and the handles. -/
noncomputable def view (fs : Ext2Fs) (F : Set ℕ) (s : Files) : State ℕ ℕ UInt8 where
  files i := if i ∈ F then fs.fileBytes s.disk i else []
  handles t fd := (vfsFindFd (s.fds t) fd).map handleOf

/-- The call of an event, and what it reports. Whether a file can be read and written is read off the device `m₀`. -/
def event (fs : Ext2Fs) (m₀ : Mem) (e : FileEvent) : FileStore.Call ℕ ℕ UInt8 × Report UInt8 :=
  match e.op with
  | .openFile node mode => (.openFile e.task (handleOf ⟨some node, FILE_NORMAL, 0, 0, mode⟩), .number e.status.toNat)
  | .close fd => (.close e.task fd, if e.status < 0 then .failed else .done)
  | .read io fd amount => (.read (fs.Sound io m₀) e.task fd amount.toNat,
      if e.status = -ERR_EOF then .eof else if e.status < 0 then .failed else .data e.data)
  | .write io src fd amount => (.write (fs.Sound io m₀) e.task fd (bytes src 0 amount.toNat),
      if e.status < 0 then .failed else .number e.status.toNat)
  | .seek fd pos => (.seek e.task fd pos, if e.status < 0 then .failed else .number e.status.toNat)
  | .exec t' => (.handOver e.task t', .done)

theorem handleOf_file (h : IsFile d node) : handleOf d = .file node.inodeNum d.pos (modeOf d.mode) := by
  unfold handleOf
  rw [h.node_eq]
  exact if_pos ⟨h.file, h.read⟩

theorem handleOf_other (h : ∀ node, ¬ IsFile d node) : handleOf d = .other := by
  unfold handleOf
  cases hnode : d.node with
  | none => rfl
  | some node => exact if_neg fun hc => h node ⟨hc.1, hnode, hc.2⟩

theorem handleOf_eq_file {p : ℕ} {mode : Mode} (h : handleOf d = .file i p mode) :
    ∃ node, IsFile d node ∧ node.inodeNum = i ∧ d.pos = p ∧ modeOf d.mode = mode := by
  by_cases hf : ∃ node, IsFile d node
  · obtain ⟨node, hf⟩ := hf
    rw [handleOf_file hf] at h
    injection h with h1 h2 h3
    exact ⟨node, hf, h1, h2, h3⟩
  · rw [handleOf_other fun node hn => hf ⟨node, hn⟩] at h
    cases h

theorem modeOf_read {mode : ℕ} : modeOf mode = .read ↔ mode = FD_READ := by
  unfold modeOf
  split_ifs <;> simp_all

theorem modeOf_write {mode : ℕ} : modeOf mode = .write ↔ mode = FD_WRITE := by
  unfold modeOf
  split_ifs with h1 h2
  · subst h1
    exact iff_of_false (by simp) (by decide)
  · exact iff_of_true rfl h2
  · exact iff_of_false (by simp) h2

theorem handles_file {p : ℕ} {mode : Mode} (hnn : ∀ d ∈ s.fds t, 0 ≤ d.fd) :
    (view fs F s).handles t fd = some (.file i p mode) ↔
      ∃ d node, FindsFile (s.fds t) fd d node ∧ node.inodeNum = i ∧ d.pos = p ∧ modeOf d.mode = mode := by
  constructor
  · intro h
    obtain ⟨d, hfind, hd⟩ := Option.map_eq_some_iff.1 h
    obtain ⟨node, hf, h1, h2, h3⟩ := handleOf_eq_file hd
    have hnn := hnn d (find_mem hfind)
    rw [find_fd hfind] at hnn
    exact ⟨d, node, ⟨hnn, hfind, hf⟩, h1, h2, h3⟩
  · rintro ⟨d, node, ⟨hfd, hfind, hf⟩, rfl, rfl, rfl⟩
    exact Option.map_eq_some_iff.2 ⟨d, hfind, handleOf_file hf⟩

theorem files_of_mem (hi : i ∈ F) : (view fs F s).files i = fs.fileBytes s.disk i := if_pos hi

theorem length_files (hi : i ∈ F) : ((view fs F s).files i).length = fs.sizeOf s.disk i := by
  rw [files_of_mem hi]
  unfold Ext2Fs.fileBytes bytes
  rw [List.length_map, List.length_range]

theorem Placed.length_files {p : ℕ} (h : Placed fs F s.disk node p) :
    ((view fs F s).files node.inodeNum).length = node.size := by
  rw [Nettapus.length_files h.mem, h.size]

theorem getElem?_bytes (m : Mem) (a n i : ℕ) : (bytes m a n)[i]? = if i < n then some (m (a + i)) else none := by
  unfold bytes
  rw [List.getElem?_map]
  split_ifs with hi
  · rw [List.getElem?_range hi]
    rfl
  · rw [List.getElem?_eq_none (by rw [List.length_range]; omega)]
    rfl

/-- A part of a file, up to its end. -/
theorem slice_bytes (c : Mem) {off n size : ℕ} (h : off ≤ size) :
    slice (bytes c 0 size) off n = bytes c off (min n (size - off)) := by
  have hlen : (bytes c 0 size).length = size := by simp [bytes]
  rw [← slice_length_self, length_slice, hlen]
  exact bytes_slice c (by omega)

/-- The file after a write. -/
theorem fileBytes_patch {off j : ℕ} (hsize : fs.sizeOf m' i = fs.sizeOf m i)
    (hdata : ∀ q < fs.sizeOf m i, fs.content m' i q = patch (fs.content m i) off j src q)
    (hfit : off + j ≤ fs.sizeOf m i) (hj : j ≤ n) :
    fs.fileBytes m' i = splice (fs.fileBytes m i) off ((bytes src 0 n).take j) := by
  have hlen : (fs.fileBytes m i).length = fs.sizeOf m i := by simp [Ext2Fs.fileBytes, bytes]
  have hw : ((bytes src 0 n).take j).length = j := by simp [bytes, hj]
  apply List.ext_getElem?
  intro q
  rw [getElem?_splice (by omega), hw]
  unfold Ext2Fs.fileBytes
  rw [getElem?_bytes, getElem?_bytes, hsize, List.getElem?_take, getElem?_bytes]
  by_cases hq : q < fs.sizeOf m i
  · rw [if_pos hq, Nat.zero_add, hdata q hq]
    unfold patch
    by_cases hin : off ≤ q ∧ q < off + j
    · rw [if_pos hin, if_pos hin, if_pos (by omega), if_pos (by omega), Nat.zero_add]
    · rw [if_neg hin, if_neg hin, if_pos hq]
  · rw [if_neg hq, if_neg (by omega), if_neg hq]

/-- A list in which one number is found anew. -/
theorem view_setFds {x : Option FileDescriptor}
    (h : ∀ k, vfsFindFd fds k = if k = fd then x else vfsFindFd (s.fds t) k) :
    view fs F (s.setFds t fds) = (view fs F s).setHandle t fd (x.map handleOf) := by
  unfold view Files.setFds State.setHandle State.setHandles
  dsimp only
  congr 1
  funext t' k
  by_cases ht : t' = t
  · subst ht
    rw [Function.update_self, Function.update_self, h]
    by_cases hk : k = fd
    · rw [if_pos hk, hk, Function.update_self]
    · rw [if_neg hk, Function.update_of_ne hk]
  · rw [Function.update_of_ne ht, Function.update_of_ne ht]

theorem find_setFd_iff {x : FileDescriptor} (hfind : vfsFindFd fds fd = some d) (hd : x.fd = fd) (k : ℤ) :
    vfsFindFd (setFd fds fd x) k = if k = fd then some x else vfsFindFd fds k := by
  split_ifs with hk
  · rw [hk]
    exact find_setFd hfind hd
  · exact find_setFd_of_ne hd hk

theorem IsFile.move {p : ℕ} : IsFile { d with pos := p } node ↔ IsFile d node :=
  ⟨fun h => ⟨h.file, h.node_eq, h.read⟩, fun h => ⟨h.file, h.node_eq, h.read⟩⟩

/-- A descriptor moves. -/
theorem view_move {p : ℕ} (hfind : vfsFindFd (s.fds t) fd = some d) :
    view fs F (s.setFds t (setFd (s.fds t) fd { d with pos := p })) =
      (view fs F s).setHandle t fd (some (handleOf { d with pos := p })) := by
  have hfd : d.fd = fd := find_fd hfind
  exact view_setFds (find_setFd_iff (x := { d with pos := p }) hfind hfd)

/-! ## The invariant -/

theorem setFds_all {P : List FileDescriptor → Prop} (h : ∀ t, P (s.fds t)) (hP : P fds) :
    ∀ t', P ((s.setFds t fds).fds t') := by
  intro t'
  unfold Files.setFds
  dsimp only
  by_cases ht : t' = t
  · subst ht
    rw [Function.update_self]
    exact hP
  · rw [Function.update_of_ne ht]
    exact h t'

namespace FilesOk

theorem setFds (h : FilesOk fs F s) (hnodup : (fds.map (·.fd)).Nodup) (hnn : ∀ d ∈ fds, 0 ≤ d.fd)
    (hp : ∀ d ∈ fds, ∀ node, IsFile d node → Placed fs F s.disk node d.pos) : FilesOk fs F (s.setFds t fds) := by
  refine ⟨h.image, ?_, ?_, ?_⟩
  · exact setFds_all (P := fun fds => (fds.map (·.fd)).Nodup) h.nodup hnodup
  · exact setFds_all (P := fun fds => ∀ d ∈ fds, 0 ≤ d.fd) h.nonneg hnn
  · exact setFds_all (P := fun fds => ∀ d ∈ fds, ∀ node, IsFile d node → Placed fs F s.disk node d.pos) h.placed hp

/-- A descriptor moves. -/
theorem move (h : FilesOk fs F s) {p : ℕ} (hfind : vfsFindFd (s.fds t) fd = some d)
    (hp : ∀ node, IsFile d node → p ≤ node.size) :
    FilesOk fs F (s.setFds t (setFd (s.fds t) fd { d with pos := p })) := by
  have hfd : d.fd = fd := find_fd hfind
  have hmem := find_mem hfind
  refine h.setFds ?_ (fun d' hd' => ?_) fun d' hd' node hf => ?_
  · rw [map_setFd (d := { d with pos := p }) hfd]
    exact h.nodup t
  · rcases mem_setFd hd' with rfl | hd'
    · exact h.nonneg t d hmem
    · exact h.nonneg t d' hd'
  · rcases mem_setFd hd' with rfl | hd'
    · have hf' : IsFile d node := ⟨hf.file, hf.node_eq, hf.read⟩
      have hplaced := h.placed t d hmem node hf'
      exact ⟨hplaced.mem, hplaced.size, hp node hf'⟩
    · exact h.placed t d' hd' node hf

/-- A file changes. -/
theorem change (h : FilesOk fs F s) (hfs : fs.Ok) (ha : a ∈ F) (hc : ChangedIn fs s.disk m' a) :
    FilesOk fs F { s with disk := m' } := by
  refine ⟨h.image.kept hfs ha hc, h.nodup, h.nonneg, fun t d hd node hf => ?_⟩
  have hplaced := h.placed t d hd node hf
  refine ⟨hplaced.mem, ?_, hplaced.pos_le⟩
  rw [(h.image.sameMap hfs ha hplaced.mem hc).size]
  exact hplaced.size

end FilesOk

/-- A call keeps the invariant, changes at most the file that it writes to, and does to the view what it should. -/
structure Simulates (fs : Ext2Fs) (F : Set ℕ) (s : Files) (e : FileEvent) (s' : Files) : Prop where
  ok : FilesOk fs F s'
  disk : s'.disk = s.disk ∨ ∃ a ∈ F, s.WritesTo e a ∧ ChangedIn fs s.disk s'.disk a
  step : s.KeepsTail fs e.task e.op → ∀ m₀, (∀ i ∈ F, SameMap fs m₀ s.disk i) →
    FileStore.Step (view fs F s) (event fs m₀ e) (view fs F s')

theorem setFds_self (s : Files) (t : ℕ) : s.setFds t (s.fds t) = s := by
  unfold Files.setFds
  rw [Function.update_eq_self]

/-- Where the descriptor is behind a write. -/
theorem WriteEnd.moves {r : ℤ} {j size : ℕ} (h : WriteEnd fs io m m' i src d.pos n r j) (hfit : d.pos + n ≤ size) :
    ∃ p ≤ size, (if r > 0 then { d with pos := d.pos + j } else d) = { d with pos := p } ∧
      (r < 0 → p = d.pos) ∧ (0 ≤ r → r = j ∧ p = d.pos + j) := by
  have hj := h.le
  by_cases hr : r > 0
  · refine ⟨d.pos + j, by omega, if_pos hr, fun hneg => by omega, fun h0 => ⟨h.status h0, rfl⟩⟩
  · refine ⟨d.pos, by omega, if_neg hr, fun _ => rfl, fun h0 => ?_⟩
    have hrj := h.status h0
    omega

section Steps

variable (hfs : fs.Ok) (h : FilesOk fs F s)
include h

theorem openFile_simulates {status : ℤ} {mode : ℕ}
    (hnode : node.read = .vfsReadFile → node.inodeNum ∈ F ∧ node.size = fs.sizeOf s.disk node.inodeNum)
    (hr : kopenFd (s.fds t) (some ⟨some node, FILE_NORMAL, 0, 0, mode⟩) = some (status, fds)) :
    Simulates fs F s ⟨t, .openFile node mode, status, []⟩ (s.setFds t fds) := by
  obtain ⟨g, hg, heq⟩ := kopenFd_eq (s.fds t) ⟨some node, FILE_NORMAL, 0, 0, mode⟩
  rw [heq] at hr
  obtain ⟨rfl, rfl⟩ := Prod.mk.inj (Option.some.inj hr)
  have hfree : vfsFindFd (s.fds t) g = none := by
    unfold vfsFindFd
    rw [List.find?_eq_none]
    intro d hd hdg
    exact hg.notMem (List.mem_map.2 ⟨d, hd, by simpa using hdg⟩)
  refine ⟨h.setFds ?_ (fun d hd => ?_) fun d hd node' hf => ?_, .inl rfl, fun _ m₀ _ => ?_⟩
  · rw [List.map_append, List.map_singleton]
    exact (h.nodup t).append (List.nodup_singleton _) (by simpa using hg.notMem)
  · rcases List.mem_append.1 hd with hd | hd
    · exact h.nonneg t d hd
    · rw [List.mem_singleton.1 hd]
      exact Int.natCast_nonneg g
  · rcases List.mem_append.1 hd with hd | hd
    · exact h.placed t d hd node' hf
    · obtain rfl := List.mem_singleton.1 hd
      obtain rfl := Option.some.inj hf.node_eq
      obtain ⟨hmem, hsize⟩ := hnode hf.read
      exact ⟨hmem, hsize, Nat.zero_le _⟩
  · rw [view_setFds fun k => find_append_fresh rfl hg.notMem]
    refine .opened ?_ fun j hj hnone => ?_
    · exact Option.map_eq_none_iff.2 hfree
    · exact find_eq_none (Option.map_eq_none_iff.1 hnone) (hg.mem j hj)

theorem close_simulates :
    Simulates fs F s ⟨t, .close fd, (kcloseFd (s.fds t) fd).1, []⟩ (s.setFds t (kcloseFd (s.fds t) fd).2) := by
  rcases kcloseFd_eq (h.nodup t) fd with ⟨hneg, hsame⟩ | ⟨hok, hsub, hfind⟩
  · rw [hsame, setFds_self]
    refine ⟨h, .inl rfl, fun _ m₀ _ => ?_⟩
    unfold event
    dsimp only
    rw [if_pos hneg]
    exact .refused trivial
  · refine ⟨h.setFds ((h.nodup t).sublist (hsub.map _)) (fun d hd => h.nonneg t d (hsub.subset hd))
      fun d hd => h.placed t d (hsub.subset hd), .inl rfl, fun _ m₀ _ => ?_⟩
    unfold event
    dsimp only
    rw [hok, if_neg (by decide), view_setFds hfind]
    exact .closed

theorem exec_simulates {t' : ℕ} (ht : t ≠ t') :
    Simulates fs F s ⟨t, .exec t', GENERIC_SUCCESS, []⟩ ((s.setFds t' (s.fds t)).setFds t []) := by
  refine ⟨(h.setFds (h.nodup t) (h.nonneg t) (h.placed t)).setFds List.nodup_nil (by simp) (by simp), .inl rfl,
    fun _ m₀ _ => ?_⟩
  have hview : view fs F ((s.setFds t' (s.fds t)).setFds t []) =
      ((view fs F s).setHandles t' ((view fs F s).handles t)).setHandles t fun _ => none := by
    unfold view Files.setFds State.setHandles
    dsimp only
    congr 1
    funext u k
    by_cases hu : u = t
    · subst hu
      rw [Function.update_self, Function.update_self]
      rfl
    · rw [Function.update_of_ne hu, Function.update_of_ne hu]
      by_cases hu' : u = t'
      · subst hu'
        rw [Function.update_self, Function.update_self]
      · rw [Function.update_of_ne hu', Function.update_of_ne hu']
  rw [hview]
  exact .handedOver

include hfs

theorem read_simulates {r : Delivered (List FileDescriptor)} (h0 : 0 ≤ amount) (h1 : amount < 2 ^ 63)
    (hr : kread (ext2ReadFile fs io s.disk) (fun _ _ => none) (s.fds t) fd amount = some r) :
    Simulates fs F s ⟨t, .read io fd amount, r.status, r.data⟩ (s.setFds t r.state) := by
  rcases h0.eq_or_lt with rfl | h0
  · rcases kread_zero hr with rfl | ⟨rfl, hno⟩
    · rw [setFds_self]
      exact ⟨h, .inl rfl, fun _ m₀ _ => .readNothing⟩
    · rw [setFds_self]
      refine ⟨h, .inl rfl, fun _ m₀ _ => .refused fun i p hh => ?_⟩
      obtain ⟨d, node, hd, -⟩ := (handles_file (h.nonneg t)).1 hh
      exact absurd hd (hno d node)
  rcases kread_cases hfs h.image (h.placed t) h0 h1 hr with ⟨hneg, hne, hsame, hbad⟩ | ⟨d, node, hd, hmode, hcase⟩
  · rw [hsame, setFds_self]
    refine ⟨h, .inl rfl, fun _ m₀ hm => ?_⟩
    unfold event
    dsimp only
    rw [if_neg hne, if_pos hneg]
    refine .refused fun i p hh => ?_
    obtain ⟨d, node, hd, rfl, -, hmode⟩ := (handles_file (h.nonneg t)).1 hh
    have hmem := (h.placed t d (find_mem hd.2.1) node hd.2.2).mem
    rw [← (hm _ hmem).sound_iff]
    exact hbad d node hd (modeOf_read.1 hmode)
  have hplaced := h.placed t d (find_mem hd.2.1) node hd.2.2
  have hlen : ((view fs F s).files node.inodeNum).length = node.size := hplaced.length_files
  have hh : (view fs F s).handles t fd = some (.file node.inodeNum d.pos .read) :=
    (handles_file (h.nonneg t)).2 ⟨d, node, hd, rfl, rfl, modeOf_read.2 hmode⟩
  rcases hcase with ⟨hend, hst, hsame⟩ | ⟨hlt, hst, hdata, hstate⟩
  · rw [hsame, setFds_self]
    refine ⟨h, .inl rfl, fun _ m₀ _ => ?_⟩
    unfold event
    dsimp only
    rw [if_pos hst]
    exact .eof hh (by omega)
  · have hpos : 0 < min amount.toNat (node.size - d.pos) := by omega
    rw [hstate]
    refine ⟨h.move hd.2.1 fun node' hf => ?_, .inl rfl, fun _ m₀ _ => ?_⟩
    · obtain rfl := hd.2.2.inj hf
      omega
    · unfold event
      dsimp only
      rw [if_neg (by unfold ERR_EOF; omega), if_neg (by omega), view_move hd.2.1]
      have hslice : r.data = slice ((view fs F s).files node.inodeNum) d.pos amount.toNat := by
        rw [hdata, files_of_mem hplaced.mem, hplaced.size]
        exact (slice_bytes _ (hplaced.size ▸ hplaced.pos_le)).symm
      have hto : handleOf { d with pos := d.pos + min amount.toNat (node.size - d.pos) } =
          .file node.inodeNum (d.pos + min amount.toNat (((view fs F s).files node.inodeNum).length - d.pos)) .read := by
        rw [hlen, handleOf_file (IsFile.move.2 hd.2.2), modeOf_read.2 hmode]
      rw [hslice, hto]
      exact .read hh (by omega)

theorem seek_simulates {pos : ℤ} {r : ℤ × List FileDescriptor} (h1 : pos < 2 ^ 63)
    (hempty : ∀ d node, FindsFile (s.fds t) fd d node → 0 ≤ pos → node.size ≠ 0) (hr : kseek (s.fds t) fd pos = some r) :
    Simulates fs F s ⟨t, .seek fd pos, r.1, []⟩ (s.setFds t r.2) := by
  rcases kseek_cases hfs h.image (h.placed t) h1 hempty hr with ⟨hneg, hsame, hcause⟩ | ⟨d, node, hd, hpos, hst, hstate⟩ |
    ⟨d, p, hfind, hnot, hstate⟩
  · rw [hsame, setFds_self]
    refine ⟨h, .inl rfl, fun _ m₀ _ => ?_⟩
    unfold event
    dsimp only
    rw [if_pos hneg]
    refine .refused (hcause.symm.imp id fun hfd => ?_)
    refine Option.map_eq_none_iff.2 (Option.eq_none_iff_forall_not_mem.2 fun d hd => ?_)
    have hnn := h.nonneg t d (find_mem hd)
    rw [find_fd hd] at hnn
    omega
  · obtain ⟨q, rfl⟩ := Int.eq_ofNat_of_zero_le hpos
    have hplaced := h.placed t d (find_mem hd.2.1) node hd.2.2
    have hlen : ((view fs F s).files node.inodeNum).length = node.size := hplaced.length_files
    have hne := hempty d node hd hpos
    have hh : (view fs F s).handles t fd = some (.file node.inodeNum d.pos (modeOf d.mode)) :=
      (handles_file (h.nonneg t)).2 ⟨d, node, hd, rfl, rfl, rfl⟩
    rw [hstate]
    refine ⟨h.move hd.2.1 fun node' hf => ?_, .inl rfl, fun _ m₀ _ => ?_⟩
    · obtain rfl := hd.2.2.inj hf
      omega
    · unfold event
      dsimp only
      rw [hst, if_neg (by omega), view_move hd.2.1, handleOf_file (IsFile.move.2 hd.2.2), Int.toNat_natCast, Int.toNat_natCast,
        ← hlen]
      exact .sought hh fun hnil => hne (by rw [← hlen, hnil]; rfl)
  · rw [hstate]
    refine ⟨h.move hfind fun node hf => absurd hf (hnot node), .inl rfl, fun _ m₀ _ => ?_⟩
    have hother : handleOf { d with pos := p } = .other := handleOf_other fun node hf => hnot node (IsFile.move.1 hf)
    have hh : (view fs F s).handles t fd = some .other := Option.map_eq_some_iff.2 ⟨d, hfind, handleOf_other hnot⟩
    rw [view_move hfind, hother, ← hh, State.setHandle_self]
    exact .otherSought hh

/-- The view of a file that changes. -/
theorem view_change {l : List UInt8} (ha : a ∈ F) (hc : ChangedIn fs s.disk m' a) (hl : fs.fileBytes m' a = l) :
    view fs F { s with disk := m' } = (view fs F s).setFile a l := by
  unfold view State.setFile
  dsimp only
  congr 1
  funext i
  by_cases hi : i = a
  · subst hi
    rw [Function.update_self, if_pos ha, hl]
  · rw [Function.update_of_ne hi]
    by_cases hF : i ∈ F
    · rw [if_pos hF, if_pos hF]
      exact h.image.fileBytes_ne hfs ha hF hi hc
    · rw [if_neg hF, if_neg hF]

/-- The view behind a write. -/
theorem view_written {l : List UInt8} {p : ℕ} (hd : FindsFile (s.fds t) fd d node) (hmode : d.mode = FD_WRITE)
    (hi : node.inodeNum ∈ F) (hc : ChangedIn fs s.disk m' node.inodeNum) (hl : fs.fileBytes m' node.inodeNum = l) :
    view fs F { s.setFds t (setFd (s.fds t) fd { d with pos := p }) with disk := m' } =
      ((view fs F s).setFile node.inodeNum l).setHandle t fd (some (.file node.inodeNum p .write)) := by
  have hmove : view fs F (Files.setFds { s with disk := m' } t (setFd (s.fds t) fd { d with pos := p })) =
      (view fs F { s with disk := m' }).setHandle t fd (some (handleOf { d with pos := p })) := view_move hd.2.1
  rw [view_change hfs h hi hc hl, handleOf_file (IsFile.move.2 hd.2.2), modeOf_write.2 hmode] at hmove
  exact hmove

theorem write_simulates {r : ℤ × List FileDescriptor × Mem} (h0 : 0 ≤ amount) (h1 : amount < 2 ^ 63)
    (hr : kwriteExt2 fs io s.disk src (s.fds t) fd amount = some r) :
    Simulates fs F s ⟨t, .write io src fd amount, r.1, []⟩ { s.setFds t r.2.1 with disk := r.2.2 } := by
  rcases kwriteExt2_cases hfs h.image (h.placed t) h0 h1 hr with ⟨hneg, hsame, hno⟩ | ⟨d, node, j, hd, hmode, hend, hstate⟩
  · rw [hsame]
    dsimp only
    rw [setFds_self]
    refine ⟨h, .inl rfl, fun _ m₀ hm => ?_⟩
    unfold event
    dsimp only
    rw [if_pos hneg]
    refine .refused fun i p hh => ?_
    obtain ⟨d, node, hd, -, -, hmode⟩ := (handles_file (h.nonneg t)).1 hh
    exact absurd (modeOf_write.1 hmode) (hno d node hd)
  obtain ⟨r, fds', m'⟩ := r
  dsimp only at hstate hend ⊢
  have hplaced := h.placed t d (find_mem hd.2.1) node hd.2.2
  have hle := hplaced.pos_le
  have hj := hend.le
  have hc := hend.changedIn
  obtain ⟨p, hp, hmoved, hstay, hmove⟩ := hend.moves (show d.pos + min amount.toNat (node.size - d.pos) ≤ node.size by omega)
  rw [hstate, hmoved]
  refine ⟨?_, .inr ⟨_, hplaced.mem, ⟨d, node, hd, hmode, rfl⟩, hc⟩, fun htail m₀ hm => ?_⟩
  · refine (h.change hfs hplaced.mem hc).move hd.2.1 fun node' hf => ?_
    obtain rfl := hd.2.2.inj hf
    exact hp
  have hlen : ((view fs F s).files node.inodeNum).length = node.size := hplaced.length_files
  have hw : (bytes src 0 amount.toNat).length = amount.toNat := by simp [bytes]
  have hh : (view fs F s).handles t fd = some (.file node.inodeNum d.pos .write) :=
    (handles_file (h.nonneg t)).2 ⟨d, node, hd, rfl, rfl, modeOf_write.2 hmode⟩
  have hfull : fs.Sound io m₀ node.inodeNum → r = ((min amount.toNat (node.size - d.pos) : ℕ) : ℤ) := by
    intro hs
    have hsize := hplaced.size
    exact hend.full ((hm _ hplaced.mem).sound_iff.2 hs) (by omega)
  have hfile : fs.fileBytes m' node.inodeNum =
      splice ((view fs F s).files node.inodeNum) d.pos ((bytes src 0 amount.toNat).take j) := by
    have hsize := (h.image.sameMap hfs hplaced.mem hplaced.mem hc).size
    rw [files_of_mem hplaced.mem]
    exact fileBytes_patch hsize (hend.data (htail d node hd hmode)) (by rw [← hplaced.size]; omega) (by omega)
  rw [view_written hfs h hd hmode hplaced.mem hc hfile]
  unfold event
  dsimp only
  by_cases hneg : r < 0
  · have hkeep : State.setHandle ((view fs F s).setFile node.inodeNum
        (splice ((view fs F s).files node.inodeNum) d.pos ((bytes src 0 amount.toNat).take j))) t fd
        ((view fs F s).handles t fd) = _ := State.setHandle_self _ t fd
    rw [if_pos hneg, hstay hneg, ← hh, hkeep]
    exact .torn hh (by omega) (by omega) fun hs => absurd (hfull hs) (by omega)
  · obtain ⟨hrj, rfl⟩ := hmove (by omega)
    rw [if_neg hneg, hrj, Int.toNat_natCast]
    exact .written hh (by omega) (by omega) fun hs => by have := hfull hs; omega

/-- **A call.** -/
theorem FilesOk.simulates (hstep : FileStep fs F s e s') : Simulates fs F s e s' := by
  obtain ⟨t, op, status, data⟩ := e
  obtain ⟨hallow, hcall⟩ := hstep
  cases op with
  | openFile node mode =>
    obtain ⟨⟨r, fds⟩, hr, heq⟩ := Option.map_eq_some_iff.1 hcall
    cases heq
    exact openFile_simulates h hallow hr
  | close fd =>
    simp only [Files.call, Option.some.injEq, Prod.mk.injEq] at hcall
    obtain ⟨rfl, rfl, rfl⟩ := hcall
    exact close_simulates h
  | read io fd amount =>
    obtain ⟨r, hr, heq⟩ := Option.map_eq_some_iff.1 hcall
    cases heq
    exact read_simulates hfs h hallow.1 hallow.2 hr
  | write io src fd amount =>
    obtain ⟨r, hr, heq⟩ := Option.map_eq_some_iff.1 hcall
    cases heq
    exact write_simulates hfs h hallow.1 hallow.2 hr
  | seek fd pos =>
    obtain ⟨r, hr, heq⟩ := Option.map_eq_some_iff.1 hcall
    cases heq
    exact seek_simulates hfs h hallow.1 hallow.2 hr
  | exec t' =>
    cases hcall
    exact exec_simulates h hallow

end Steps

end Nettapus
