import Nettapus.Proof.FdClose
import Nettapus.Proof.ReadDir

/-!
# Going through a directory

`Cached` relates a list of entries as it was at the start to what it is later: a vnode may be loaded, with the inode that
the driver finds for the name. `Listed` says so of both lists of a directory, and a call keeps it and delivers the entry
at the place of the descriptor (`vfsReadDir_step`).

`read_dir_enumerates` is the sequence of calls from the start of the directory.
-/

namespace Nettapus

open Bytes

variable {z : Dirs} {buf : Mem} {amount : ℤ} {top node k p : ℕ} {fd : ℤ} {fds : List Descriptor} {fdes : Descriptor}
  {l l' folders files : List DirTnode} {e e' : DirTnode} {ino : List UInt8 → ℕ} {c : DirCall}
  {parentInode : ℕ}

/-! ## Lists with vnodes -/

/-- The entry `e` later: the vnode is as before, or it was loaded. -/
def Loads (ino : List UInt8 → ℕ) (e e' : DirTnode) : Prop :=
  e'.name = e.name ∧ (e'.vnode = e.vnode ∨ e.vnode = none ∧ ∃ typePerm, e'.vnode = some ⟨ino e.name, typePerm⟩)

/-- The inode of an entry. -/
def entryInode (ino : List UInt8 → ℕ) (e : DirTnode) : ℕ := (e.vnode.map (·.inodeNum)).getD (ino e.name)

/-- The list `l` later. -/
structure Cached (ino : List UInt8 → ℕ) (l l' : List DirTnode) : Prop where
  length_eq : l'.length = l.length
  loads : ∀ (k : ℕ) (e' : DirTnode), l'[k]? = some e' → ∃ e, l[k]? = some e ∧ Loads ino e e'

theorem Cached.refl (ino : List UInt8 → ℕ) (l : List DirTnode) : Cached ino l l :=
  ⟨rfl, fun _ e he => ⟨e, he, rfl, .inl rfl⟩⟩

/-- The vnode of an entry is loaded. -/
theorem Cached.set (h : Cached ino l l') (hk : l'[k]? = some e') (hv : e'.vnode = none) (typePerm : ℕ) :
    Cached ino l (l'.set k { e' with vnode := some ⟨ino e'.name, typePerm⟩ }) := by
  refine ⟨(List.length_set ..).trans h.length_eq, fun j e'' hj => ?_⟩
  by_cases hjk : j = k
  · subst hjk
    obtain ⟨e, he, hname, hvnode⟩ := h.loads j e' hk
    rw [List.getElem?_set_self (List.getElem?_eq_some_iff.1 hk).1] at hj
    obtain rfl := Option.some.inj hj
    have hnone : e.vnode = none := by
      rcases hvnode with heq | ⟨hnone, -⟩
      · rw [← heq, hv]
      · exact hnone
    exact ⟨e, he, hname, .inr ⟨hnone, typePerm, by rw [hname]⟩⟩
  · rw [List.getElem?_set_ne (Ne.symm hjk)] at hj
    exact h.loads j e'' hj

/-! ## One call -/

/-- **The directory `node` is listed**, with a sound count of its entries, and is what `top` leads to. -/
structure Listed (ino : List UInt8 → ℕ) (top node parentInode : ℕ) (folders files : List DirTnode) (z : Dirs) : Prop where
  top_ne : top ≠ NULL
  node_eq : followMount z top = node
  node_ne : node ≠ NULL
  parent_ne : (∃ e ∈ folders ++ files, e.vnode = none) → followMount z node ≠ NULL
  parent_inode : (z (followMount z node)).inodeNum = parentInode
  folders_cached : Cached ino folders (z node).subfolders
  files_cached : Cached ino files (z node).subfiles
  folder_count : (z node).subfolderCount = folders.length
  file_count : (z node).subfileCount = files.length
  count_lt : folders.length + files.length < 2 ^ 64

/-- The buffer is large enough for all entries, and the driver finds those that are not loaded. -/
structure DirCallOk (ino : List UInt8 → ℕ) (parentInode : ℕ) (entries : List DirTnode) (c : DirCall) : Prop where
  amount_lt : c.amount < 2 ^ 63
  large : (direntSize : ℤ) ≤ c.amount
  fits : ∀ e ∈ entries, (direntSize : ℤ) + e.name.length ≤ c.amount
  finds : ∀ e ∈ entries, e.vnode = none → c.world.openat parentInode e.name = ino e.name ∧ 2 ≤ ino e.name

/-- **What a call delivers for an entry.** -/
structure Shows (ino : List UInt8 → ℕ) (e : DirTnode) (r : DirRead) : Prop where
  status : r.status = direntSize + e.name.length
  inode : load r.buf direntInode 8 = entryInode ino e % 2 ^ 64
  len : load r.buf direntLen 8 = (direntSize + e.name.length) % 2 ^ 64
  name : bytes r.buf direntName (e.name.length + 1) = e.name ++ [0]

/-- The name, and the zero behind it. -/
theorem nameBytes_bytes (W : DirWorld) (name : List UInt8) :
    bytes (nameBytes W name) 0 (name.length + 1) = name ++ [0] := by
  have hname : bytes (nameBytes W name) 0 name.length = name := by
    apply List.ext_getElem
    · simp [bytes]
    · intro i h1 h2
      simp [bytes, nameBytes, h2]
  have hzero : bytes (nameBytes W name) (0 + name.length) 1 = [0] := by simp [bytes, nameBytes]
  rw [bytes_add, hname, hzero]

theorem writeDirent_shows {W : DirWorld} {vnode : DirVnode} {pos : ℕ} (hfits : (direntSize : ℤ) + e.name.length ≤ amount)
    (hv : vnode.inodeNum = entryInode ino e) : Shows ino e (writeDirent W z buf e.name vnode amount pos) := by
  have hlen : copyLen (e.name.length + 1) amount = e.name.length + 1 := by
    unfold copyLen direntSize at *
    rw [if_neg (by omega)]
  unfold writeDirent
  dsimp only
  rw [hlen]
  -- the fields before the name are not touched by the copy
  have hfield : ∀ (m : Mem) (a : ℕ), a + 8 ≤ direntName → load (fun x =>
      if direntName ≤ x ∧ x < direntName + (e.name.length + 1) then nameBytes W e.name (x - direntName) else m x) a 8 =
        load m a 8 := by
    intro m a ha
    exact load_congr fun x _ hx => if_neg (by omega)
  have hpow : (256 : ℕ) ^ 8 = 2 ^ 64 := by decide
  refine ⟨?_, ?_, ?_, ?_⟩
  · dsimp only
    omega
  · dsimp only
    rw [hfield _ _ (by decide), load_store_of_disjoint (by decide), load_store_of_disjoint (by decide), load_store, hv, hpow]
  · dsimp only
    rw [hfield _ _ (by decide), load_store, hpow]
    rfl
  · dsimp only
    rw [← nameBytes_bytes W]
    refine bytes_congr fun i hi => ?_
    rw [if_pos (by omega), Nat.add_sub_cancel_left, Nat.zero_add]

/-- **One of the lists**: its entry is delivered, and the list is kept. -/
theorem readEntryAt_cached_spec (typePerm : ℕ → ℕ) (set : DirTnode → Dirs) (pos : ℕ) (hc : Cached ino l l')
    (hl : l[k]? = some e) (hpar : e.vnode = none → followMount z node ≠ NULL)
    (hfits : (direntSize : ℤ) + e.name.length ≤ c.amount)
    (hfinds : e.vnode = none →
      c.world.openat (z (followMount z node)).inodeNum e.name = ino e.name ∧ 2 ≤ ino e.name) :
    ∃ r, readEntryAt c.world z c.buf c.amount pos l' k (fun e => loadAt c.world z node e typePerm set) = some r ∧
      Shows ino e r ∧ r.pos = pos + 1 ∧
      (r.dirs = z ∨ ∃ e' tp, l'[k]? = some e' ∧ e'.vnode = none ∧
        r.dirs = set { e' with vnode := some ⟨ino e'.name, tp⟩ }) := by
  obtain ⟨hk, -⟩ := List.getElem?_eq_some_iff.1 hl
  have hk' : k < l'.length := hc.length_eq ▸ hk
  obtain ⟨e', hl'⟩ : ∃ e', l'[k]? = some e' := ⟨_, List.getElem?_eq_getElem hk'⟩
  obtain ⟨e₀, he₀, hname, hvnode⟩ := hc.loads k e' hl'
  obtain rfl := Option.some.inj (hl.symm.trans he₀)
  cases hv : e'.vnode with
  | some v =>
    have hino : v.inodeNum = entryInode ino e := by
      unfold entryInode
      rcases hvnode with heq | ⟨hnone, tp, hload⟩
      · rw [← heq, hv]
        rfl
      · rw [hnone]
        exact congrArg DirVnode.inodeNum (Option.some.inj (hv.symm.trans hload))
    refine ⟨_, readEntryAt_cached hl' hv, ?_, rfl, .inl rfl⟩
    rw [hname]
    exact writeDirent_shows hfits hino
  | none =>
    have hnone : e.vnode = none := by
      rcases hvnode with heq | ⟨hnone, -⟩
      · rw [← heq, hv]
      · exact hnone
    obtain ⟨hopen, h2⟩ := hfinds hnone
    rw [← hname] at hopen h2
    have hloadable : Loadable c.world z node e' := .inr ⟨hpar hnone, by rw [hopen]; exact h2⟩
    have hfound : foundVnode c.world z node e' typePerm = ⟨ino e'.name, typePerm (ino e.name)⟩ := by
      unfold foundVnode
      rw [hopen, hname]
    refine ⟨_, readEntryAt_loads hl' hv (loadAt_of_loadable hv hloadable), ?_, rfl, .inr ⟨e', typePerm (ino e.name), hl', hv, ?_⟩⟩
    · rw [hname]
      refine writeDirent_shows hfits ?_
      unfold entryInode
      rw [hfound, hnone, hname]
      rfl
    · unfold writeDirent
      dsimp only
      rw [hfound]

/-- **Another vnode is loaded**: of the directory, a list changes only. -/
theorem Listed.update {d : DirNode} (h : Listed ino top node parentInode folders files z)
    (hmounted : d.mounted = (z node).mounted) (hpoint : d.mountPoint = (z node).mountPoint)
    (hinode : d.inodeNum = (z node).inodeNum) (hfolders : Cached ino folders d.subfolders)
    (hfiles : Cached ino files d.subfiles) (hcount : d.subfolderCount = folders.length)
    (hcount' : d.subfileCount = files.length) :
    Listed ino top node parentInode folders files (Function.update z node d) := by
  have hfollow : ∀ a, followMount (Function.update z node d) a = followMount z a := by
    intro a
    unfold followMount
    by_cases ha : a = node
    · subst ha
      rw [Function.update_self, hmounted, hpoint]
    · rw [Function.update_of_ne ha]
  have hnum : ∀ a, (Function.update z node d a).inodeNum = (z a).inodeNum := by
    intro a
    by_cases ha : a = node
    · subst ha
      rw [Function.update_self, hinode]
    · rw [Function.update_of_ne ha]
  constructor
  · exact h.top_ne
  · rw [hfollow, h.node_eq]
  · exact h.node_ne
  · rw [hfollow]
    exact h.parent_ne
  · rw [hfollow, hnum, h.parent_inode]
  · rwa [Function.update_self]
  · rwa [Function.update_self]
  · rwa [Function.update_self]
  · rwa [Function.update_self]
  · exact h.count_lt

theorem Listed.setFolderAt {typePerm : ℕ} (h : Listed ino top node parentInode folders files z)
    (hk : (z node).subfolders[k]? = some e') (hv : e'.vnode = none) :
    Listed ino top node parentInode folders files
      (setFolderAt z node k { e' with vnode := some ⟨ino e'.name, typePerm⟩ }) :=
  h.update rfl rfl rfl (h.folders_cached.set hk hv typePerm) h.files_cached h.folder_count h.file_count

theorem Listed.setFileAt {typePerm : ℕ} (h : Listed ino top node parentInode folders files z)
    (hk : (z node).subfiles[k]? = some e') (hv : e'.vnode = none) :
    Listed ino top node parentInode folders files
      (setFileAt z node k { e' with vnode := some ⟨ino e'.name, typePerm⟩ }) :=
  h.update rfl rfl rfl h.folders_cached (h.files_cached.set hk hv typePerm) h.folder_count h.file_count

/-- **One call**, at a place in the directory or at its end. -/
theorem vfsReadDir_step (h : Listed ino top node parentInode folders files z)
    (hc : DirCallOk ino parentInode (folders ++ files) c) (hnode : fdes.node = top) :
    ∃ r, vfsReadDir c.world z fdes c.buf c.amount = some r ∧
      Listed ino top node parentInode folders files r.dirs ∧
      (∀ e, (folders ++ files)[fdes.pos]? = some e → Shows ino e r ∧ r.pos = fdes.pos + 1) ∧
      ((folders ++ files).length = fdes.pos → r.status < 0 ∧ r.pos = fdes.pos) := by
  have hsum : u64 ((z node).subfolderCount + (z node).subfileCount) = (folders ++ files).length := by
    rw [h.folder_count, h.file_count, List.length_append]
    exact Nat.mod_eq_of_lt h.count_lt
  have hsize : ¬ toSize c.amount < direntSize := by
    have hlarge := hc.large
    have hamount := toSize_of_ge ((Int.natCast_nonneg _).trans hlarge) hc.amount_lt
    omega
  unfold vfsReadDir
  dsimp only
  rw [hnode, if_neg h.top_ne, if_neg hsize, h.node_eq, if_neg h.node_ne, hsum, h.folder_count]
  by_cases hend : fdes.pos ≥ (folders ++ files).length
  · -- behind the last entry
    rw [if_pos hend]
    refine ⟨_, rfl, h, fun e he => ?_, fun _ => ⟨?_, rfl⟩⟩
    · rw [List.getElem?_eq_none hend] at he
      cases he
    · show (-ERR_INVALID_PARAM : ℤ) < 0
      decide
  rw [if_neg hend]
  obtain ⟨e, he⟩ : ∃ e, (folders ++ files)[fdes.pos]? = some e := ⟨_, List.getElem?_eq_getElem (not_le.1 hend)⟩
  have hmem : e ∈ folders ++ files := List.mem_of_getElem? he
  have hpar : e.vnode = none → followMount z node ≠ NULL := fun hv => h.parent_ne ⟨e, hmem, hv⟩
  have hfinds := hc.finds e hmem
  rw [← h.parent_inode] at hfinds
  by_cases hfolder : fdes.pos < folders.length
  · rw [if_pos hfolder]
    rw [List.getElem?_append_left hfolder] at he
    obtain ⟨r, hr, hshows, hnext, hdirs⟩ := readEntryAt_cached_spec c.world.getTypePerm
      (setFolderAt z node fdes.pos) fdes.pos h.folders_cached he hpar (hc.fits e hmem) hfinds
    refine ⟨r, hr, ?_, fun e' he' => ?_, fun hlen => absurd hlen (by omega)⟩
    · rcases hdirs with hdirs | ⟨e', tp, hl', hv, hdirs⟩
      · rwa [hdirs]
      · rw [hdirs]
        exact h.setFolderAt hl' hv
    · rw [List.getElem?_append_left hfolder] at he'
      obtain rfl := Option.some.inj (he.symm.trans he')
      exact ⟨hshows, hnext⟩
  · rw [if_neg hfolder]
    rw [List.getElem?_append_right (not_lt.1 hfolder)] at he
    obtain ⟨r, hr, hshows, hnext, hdirs⟩ := readEntryAt_cached_spec (fun _ => 0)
      (setFileAt z node (fdes.pos - folders.length)) fdes.pos h.files_cached he hpar (hc.fits e hmem) hfinds
    refine ⟨r, hr, ?_, fun e' he' => ?_, fun hlen => absurd hlen (by omega)⟩
    · rcases hdirs with hdirs | ⟨e', tp, hl', hv, hdirs⟩
      · rwa [hdirs]
      · rw [hdirs]
        exact h.setFileAt hl' hv
    · rw [List.getElem?_append_right (not_lt.1 hfolder)] at he'
      obtain rfl := Option.some.inj (he.symm.trans he')
      exact ⟨hshows, hnext⟩

/-! ## All calls -/

/-- The descriptor `fd` is for the directory `top`, at the place `pos`. -/
def OpenDir (fds : List Descriptor) (fd : ℤ) (top pos : ℕ) : Prop :=
  ∃ fdes, (fds.find? fun d => (d.fd : ℤ) = fd) = some fdes ∧ fdes.file = FILE_DIR ∧ fdes.node = top ∧ fdes.pos = pos

theorem kreadDir_step (h : Listed ino top node parentInode folders files z)
    (hc : DirCallOk ino parentInode (folders ++ files) c) (ho : OpenDir fds fd top p) :
    ∃ r fds', kreadDir z fds fd c = some (r, fds') ∧ Listed ino top node parentInode folders files r.dirs ∧
      OpenDir fds' fd top r.pos ∧
      (∀ e, (folders ++ files)[p]? = some e → Shows ino e r ∧ r.pos = p + 1) ∧
      ((folders ++ files).length = p → r.status < 0 ∧ r.pos = p) := by
  obtain ⟨fdes, hfind, hfile, hnode, rfl⟩ := ho
  obtain ⟨hfd, pre, post, rfl, hpre⟩ := List.find?_eq_some_iff_append.1 hfind
  have hfd : (fdes.fd : ℤ) = fd := of_decide_eq_true hfd
  have hpre : ∀ e ∈ pre, (e.fd : ℤ) ≠ fd := fun e he => by simpa using hpre e he
  obtain ⟨r, hr, hlisted, hentry, hend⟩ := vfsReadDir_step h hc hnode
  refine ⟨r, (pre ++ fdes :: post).set pre.length { fdes with pos := r.pos }, ?_, hlisted, ?_, hentry, hend⟩
  · have hget : (pre ++ fdes :: post)[pre.length]? = some fdes := by simp
    unfold kreadDir
    rw [Vfs.findIdx_split hfd hpre]
    dsimp only
    rw [hget]
    dsimp only
    rw [if_pos hfile, hr]
    rfl
  · refine ⟨{ fdes with pos := r.pos }, ?_, hfile, hnode, rfl⟩
    rw [List.set_append_right _ _ le_rfl, Nat.sub_self, List.set_cons_zero]
    refine List.find?_eq_some_iff_append.2 ⟨decide_eq_true hfd, pre, post, rfl, fun e he => ?_⟩
    simpa using hpre e he

theorem kreadDirs_cons {r : DirRead} {fds' : List Descriptor} {calls : List DirCall} {rs : List DirRead}
    (hr : kreadDir z fds fd c = some (r, fds')) (hrs : kreadDirs fd r.dirs fds' calls = some rs) :
    kreadDirs fd z fds (c :: calls) = some (r :: rs) := by
  unfold kreadDirs
  rw [hr, Option.bind_some]
  dsimp only
  rw [hrs]
  rfl

/-- The calls from the place `p` on. -/
theorem kreadDirs_run : ∀ (calls : List DirCall) {z : Dirs} {fds : List Descriptor} {p : ℕ},
    Listed ino top node parentInode folders files z → OpenDir fds fd top p → p ≤ (folders ++ files).length →
    (∀ c ∈ calls, DirCallOk ino parentInode (folders ++ files) c) →
    ∃ rs, kreadDirs fd z fds calls = some rs ∧ rs.length = calls.length ∧ ∀ k r, rs[k]? = some r →
      (∀ e, (folders ++ files)[p + k]? = some e → Shows ino e r ∧ r.pos = p + k + 1) ∧
      ((folders ++ files).length ≤ p + k → r.status < 0 ∧ r.pos = (folders ++ files).length) := by
  intro calls
  induction calls with
  | nil =>
    intro z fds p _ _ _ _
    exact ⟨[], rfl, rfl, fun k r hr => by cases hr⟩
  | cons c calls ih =>
    intro z fds p h ho hp hcalls
    obtain ⟨hc, hcalls⟩ := List.forall_mem_cons.1 hcalls
    obtain ⟨r, fds', hr, hlisted, hopen, hentry, hend⟩ := kreadDir_step h hc ho
    by_cases hlast : p = (folders ++ files).length
    · -- the end was reached
      obtain ⟨hneg, hpos⟩ := hend hlast.symm
      rw [hpos] at hopen
      obtain ⟨rs, hrs, hlen, hall⟩ := ih hlisted hopen hp hcalls
      refine ⟨r :: rs, kreadDirs_cons hr hrs, by rw [List.length_cons, hlen, List.length_cons], fun k r' hk => ?_⟩
      cases k with
      | zero =>
        obtain rfl := Option.some.inj hk
        exact ⟨fun e he => hentry e he, fun _ => ⟨hneg, hpos.trans hlast⟩⟩
      | succ k =>
        obtain ⟨hshow, hdone⟩ := hall k r' hk
        refine ⟨fun e he => ?_, fun _ => hdone (by omega)⟩
        rw [List.getElem?_eq_none (by omega)] at he
        cases he
    · have hlt : p < (folders ++ files).length := by omega
      obtain ⟨hshows, hpos⟩ := hentry _ (List.getElem?_eq_getElem hlt)
      rw [hpos] at hopen
      obtain ⟨rs, hrs, hlen, hall⟩ := ih hlisted hopen hlt hcalls
      refine ⟨r :: rs, kreadDirs_cons hr hrs, by rw [List.length_cons, hlen, List.length_cons], fun k r' hk => ?_⟩
      cases k with
      | zero =>
        obtain rfl := Option.some.inj hk
        exact ⟨fun e he => hentry e he, fun hle => absurd hlt (by omega)⟩
      | succ k =>
        have hshift : p + (k + 1) = p + 1 + k := by omega
        rw [hshift]
        exact hall k r' hk

/-- **A directory is gone through once.** With buffers that are large enough and entries that can be loaded, the calls on
a descriptor at the start deliver the directories and then the files, in the order of the lists. All later calls fail,
and leave the descriptor at the end. Behind a mount point, this is the mounted directory. -/
theorem read_dir_enumerates {calls : List DirCall}
    (h : Listed ino top node parentInode (z node).subfolders (z node).subfiles z) (ho : OpenDir fds fd top 0)
    (hcalls : ∀ c ∈ calls, DirCallOk ino parentInode ((z node).subfolders ++ (z node).subfiles) c) :
    ∃ rs, kreadDirs fd z fds calls = some rs ∧ rs.length = calls.length ∧ ∀ k r, rs[k]? = some r →
      (∀ e, ((z node).subfolders ++ (z node).subfiles)[k]? = some e → Shows ino e r ∧ r.pos = k + 1) ∧
      (((z node).subfolders ++ (z node).subfiles).length ≤ k →
        r.status < 0 ∧ r.pos = ((z node).subfolders ++ (z node).subfiles).length) := by
  obtain ⟨rs, hrs, hlen, hall⟩ := kreadDirs_run calls h ho (Nat.zero_le _) hcalls
  refine ⟨rs, hrs, hlen, fun k r hk => ?_⟩
  have hk := hall k r hk
  rwa [Nat.zero_add] at hk

/-- The directory at `0x100`: a directory, a file, and the end. -/
theorem read_dir_enumerates_sample :
    ∃ rs, kreadDirs 0 sampleDirs [⟨0x100, FILE_DIR, 0, 0, FD_READ⟩]
        (List.replicate 3 ⟨sampleDriver, fun _ => 0, 64⟩) = some rs ∧
      rs.length = (List.replicate 3 (⟨sampleDriver, fun _ => 0, 64⟩ : DirCall)).length ∧ ∀ k r, rs[k]? = some r →
      (∀ e, ((sampleDirs 0x100).subfolders ++ (sampleDirs 0x100).subfiles)[k]? = some e →
        Shows (fun _ => 13) e r ∧ r.pos = k + 1) ∧
      (((sampleDirs 0x100).subfolders ++ (sampleDirs 0x100).subfiles).length ≤ k →
        r.status < 0 ∧ r.pos = ((sampleDirs 0x100).subfolders ++ (sampleDirs 0x100).subfiles).length) := by
  have hlisted : Listed (fun _ => 13) 0x100 0x100 2 (sampleDirs 0x100).subfolders (sampleDirs 0x100).subfiles sampleDirs :=
    ⟨by decide, by decide, by decide, fun _ => by decide, by decide, .refl _ _, .refl _ _, by decide, by decide, by decide⟩
  refine read_dir_enumerates hlisted ⟨_, rfl, rfl, rfl, rfl⟩ fun c hc => ?_
  obtain rfl := (List.mem_replicate.1 hc).2
  exact ⟨by decide, by decide, by decide, fun e _ _ => ⟨rfl, by decide⟩⟩

end Nettapus
