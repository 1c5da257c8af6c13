import Nettapus.Proof.FdNumbers

/-!
# Closing a descriptor

`vfs_close_file` looks for the descriptor before the one to close. `kclose_of_split` is what it does to a list that is
split at the first descriptor with the number: nothing if there is none before it, and else the descriptor goes away.

`kclose_iff`: a call keeps its promise (`CloseLaw`) if the number is not the one of the first descriptor. A task that
ends and has descriptors keeps the first one.
-/

namespace Nettapus.Vfs

open Runs

variable {s : Vfs} {t t' : VfsTask} {i : ℕ} {fd fd' : ℤ} {d : Descriptor} {pre post ds : List Descriptor}

/-- `streams_open` of the node of a descriptor. -/
def fdStreams (s : Vfs) (d : Descriptor) : ℕ :=
  if d.file ≠ 0 then (s.files d.node).streamsOpen else (s.folders d.node).streamsOpen

/-- **The promise of `kclose`.** -/
def CloseLaw (s : Vfs) (i : ℕ) (t : VfsTask) (fd : ℤ) : Prop :=
  match vfsFindFd t fd with
  | none => (s.kclose i t fd).1 < 0 ∧ (s.kclose i t fd).2 = s
  | some d => (s.kclose i t fd).1 = GENERIC_SUCCESS ∧ fdStreams (s.kclose i t fd).2 d + 1 = fdStreams s d ∧
      ∃ t', (s.kclose i t fd).2.tasks[i]? = some t' ∧ vfsFindFd t' fd = none ∧
        ∀ fd', fd' ≠ fd → vfsFindFd t' fd' = vfsFindFd t fd'

/-! ## One call -/

/-- The list at the first descriptor with a number. -/
theorem vfsFindFd_split (h : vfsFindFd t fd = some d) :
    (d.fd : ℤ) = fd ∧ ∃ pre post, t.fds = pre ++ d :: post ∧ ∀ e ∈ pre, (e.fd : ℤ) ≠ fd := by
  obtain ⟨hd, pre, post, hsplit, hpre⟩ := List.find?_eq_some_iff_append.1 h
  refine ⟨of_decide_eq_true hd, pre, post, hsplit, fun e he => ?_⟩
  simpa using hpre e he

theorem findIdx_split (hd : (d.fd : ℤ) = fd) (hpre : ∀ e ∈ pre, (e.fd : ℤ) ≠ fd) :
    ((pre ++ d :: post).findIdx? fun d => (d.fd : ℤ) = fd) = some pre.length := by
  have hnone : (pre.findIdx? fun d => (d.fd : ℤ) = fd) = none := by
    rw [List.findIdx?_eq_none_iff]
    exact fun e he => decide_eq_false (hpre e he)
  rw [List.findIdx?_append, hnone, List.findIdx?_cons, decide_eq_true hd, if_pos rfl]
  simp

/-- **What `kclose` does**, at the first descriptor with the number. -/
theorem kclose_of_split (hfds : t.fds = pre ++ d :: post) (hd : (d.fd : ℤ) = fd) (hpre : ∀ e ∈ pre, (e.fd : ℤ) ≠ fd) :
    s.kclose i t fd = if pre = [] then ((-ERR_INVALID_PARAM : ℤ), s)
      else (GENERIC_SUCCESS, (s.closeStream d.node d.file).setTask i { t with fds := pre ++ post }) := by
  unfold kclose
  rw [hfds, findIdx_split hd hpre]
  cases pre with
  | nil => rfl
  | cons e pre =>
    have hget : ((e :: pre) ++ d :: post)[pre.length + 1]? = some d := by
      rw [← List.length_cons (a := e), List.getElem?_append_right le_rfl, Nat.sub_self]
      rfl
    have herase : ((e :: pre) ++ d :: post).eraseIdx (pre.length + 1) = (e :: pre) ++ post := by
      rw [← List.length_cons (a := e), List.eraseIdx_append_of_length_le le_rfl, Nat.sub_self]
      rfl
    rw [List.length_cons, if_neg (List.cons_ne_nil _ _)]
    simp only [hget, herase]

theorem kclose_of_none (h : vfsFindFd t fd = none) : s.kclose i t fd = ((-ERR_INVALID_PARAM : ℤ), s) := by
  have hnone : (t.fds.findIdx? fun d => (d.fd : ℤ) = fd) = none := by
    rw [List.findIdx?_eq_none_iff]
    intro e he
    exact eq_false_of_ne_true (List.find?_eq_none.1 h e he)
  unfold kclose
  rw [hnone]

/-- The counter of a node. -/
theorem closeStream_fdStreams : fdStreams (s.closeStream d.node d.file) d = fdStreams s d - 1 := by
  unfold fdStreams closeStream
  by_cases hf : d.file ≠ 0
  · rw [if_pos hf, if_pos hf, if_pos hf]
    dsimp only
    split_ifs <;> simp [unload, setFile]
  · rw [if_neg hf, if_neg hf, if_neg hf]
    simp [setFolder]

/-- Without the descriptor, the other numbers are found as before. -/
theorem find_erase (hd : (d.fd : ℤ) = fd) (hne : fd' ≠ fd) :
    ((pre ++ post).find? fun e => (e.fd : ℤ) = fd') = (pre ++ d :: post).find? fun e => (e.fd : ℤ) = fd' := by
  have hdne : ¬ decide ((d.fd : ℤ) = fd') = true := by
    rw [decide_eq_true_eq, hd]
    exact hne.symm
  have hcons : ((d :: post).find? fun e => (e.fd : ℤ) = fd') = post.find? fun e => (e.fd : ℤ) = fd' :=
    List.find?_cons_of_neg hdne
  rw [List.find?_append, List.find?_append, hcons]

/-- No other descriptor has the number. -/
theorem find_erase_none (post : List Descriptor) (hd : (d.fd : ℤ) = fd) (hpre : ∀ e ∈ pre, (e.fd : ℤ) ≠ fd) :
    ((pre ++ post).find? fun e => (e.fd : ℤ) = fd) = none ↔
      ((pre ++ d :: post).countP fun e => (e.fd : ℤ) = fd) = 1 := by
  have hzero : (pre.countP fun e => (e.fd : ℤ) = fd) = 0 := by
    rw [List.countP_eq_zero]
    exact fun e he => by simpa using hpre e he
  have hcons : ((d :: post).countP fun e => (e.fd : ℤ) = fd) = (post.countP fun e => (e.fd : ℤ) = fd) + 1 :=
    List.countP_cons_of_pos (decide_eq_true hd)
  rw [List.countP_append, hcons, hzero, List.find?_eq_none]
  constructor
  · intro h
    have hpost : (post.countP fun e => (e.fd : ℤ) = fd) = 0 :=
      List.countP_eq_zero.2 fun e he => h e (List.mem_append_right _ he)
    rw [hpost]
  · intro h e he
    rcases List.mem_append.1 he with he | he
    · simpa using hpre e he
    · exact List.countP_eq_zero.1 (show (post.countP fun e => (e.fd : ℤ) = fd) = 0 by omega) e he

/-- **What `kclose` needs**: a number that is not the first one of the list and is there once, and a node that counts
the descriptor. -/
def CloseCond (s : Vfs) (t : VfsTask) (fd : ℤ) : Prop :=
  ∀ d, vfsFindFd t fd = some d → (∀ e ∈ t.fds.head?, (e.fd : ℤ) ≠ fd) ∧
    (t.fds.countP fun e => (e.fd : ℤ) = fd) = 1 ∧ 0 < fdStreams s d

theorem closeLaw_iff (ht : s.tasks[i]? = some t) : CloseLaw s i t fd ↔ CloseCond s t fd := by
  unfold CloseLaw CloseCond
  cases hfind : vfsFindFd t fd with
  | none =>
    dsimp only
    rw [kclose_of_none hfind]
    have hneg : (-ERR_INVALID_PARAM : ℤ) < 0 := by decide
    exact iff_of_true ⟨hneg, rfl⟩ fun d hd => absurd hd (Option.some_ne_none d).symm
  | some d =>
    dsimp only
    obtain ⟨hd, pre, post, hfds, hpre⟩ := vfsFindFd_split hfind
    rw [kclose_of_split hfds hd hpre]
    by_cases hnil : pre = []
    · -- the first descriptor of the list
      refine iff_of_false (fun h => ?_) fun h => ?_
      · rw [if_pos hnil] at h
        have hne : (-ERR_INVALID_PARAM : ℤ) ≠ GENERIC_SUCCESS := by decide
        exact absurd h.1 hne
      · refine (h d rfl).1 d ?_ hd
        rw [hfds, hnil]
        exact rfl
    · have hi : i < s.tasks.length := (List.getElem?_eq_some_iff.1 ht).1
      have hget : ((s.closeStream d.node d.file).setTask i { t with fds := pre ++ post }).tasks[i]? =
          some { t with fds := pre ++ post } := by
        rw [setTask_tasks, closeStream_tasks, List.getElem?_set_self hi]
      have hstreams : fdStreams ((s.closeStream d.node d.file).setTask i { t with fds := pre ++ post }) d =
          fdStreams s d - 1 := closeStream_fdStreams
      have hhead : ∀ e ∈ t.fds.head?, (e.fd : ℤ) ≠ fd := by
        intro e he
        rw [hfds, List.head?_append_of_ne_nil _ hnil] at he
        exact hpre e (List.mem_of_mem_head? he)
      have hgone := find_erase_none post hd hpre
      rw [if_neg hnil]
      dsimp only
      constructor
      · rintro ⟨-, hcount, t', ht', hnone, -⟩ d' hd'
        obtain rfl := Option.some.inj (hget.symm.trans ht')
        obtain rfl := Option.some.inj hd'
        refine ⟨hhead, hfds ▸ hgone.1 hnone, by omega⟩
      · intro h
        obtain ⟨-, hone, hpos⟩ := h d rfl
        refine ⟨rfl, by omega, _, hget, hgone.2 (hfds ▸ hone), fun fd' hne => ?_⟩
        unfold vfsFindFd
        rw [hfds]
        exact find_erase hd hne

/-! ## The end of a task -/

/-- The first descriptor stays. -/
theorem kclose_head (fd : ℤ) (ht : s.tasks[i]? = some t) :
    ∃ t', (s.kclose i t fd).2.tasks[i]? = some t' ∧ t'.fds.head? = t.fds.head? := by
  cases hfind : vfsFindFd t fd with
  | none =>
    rw [kclose_of_none hfind]
    exact ⟨t, ht, rfl⟩
  | some d =>
    obtain ⟨hd, pre, post, hfds, hpre⟩ := vfsFindFd_split hfind
    rw [kclose_of_split hfds hd hpre]
    by_cases hnil : pre = []
    · rw [if_pos hnil]
      exact ⟨t, ht, rfl⟩
    · have hi : i < s.tasks.length := (List.getElem?_eq_some_iff.1 ht).1
      rw [if_neg hnil]
      refine ⟨{ t with fds := pre ++ post }, ?_, ?_⟩
      · rw [setTask_tasks, closeStream_tasks, List.getElem?_set_self hi]
      · rw [hfds, List.head?_append_of_ne_nil _ hnil, List.head?_append_of_ne_nil _ hnil]

theorem closeAll_head (ds : List Descriptor) (ht : s.tasks[i]? = some t) :
    ∃ t', (closeAll i ds s).tasks[i]? = some t' ∧ t'.fds.head? = t.fds.head? := by
  induction ds generalizing s t with
  | nil => exact ⟨t, ht, rfl⟩
  | cons d ds ih =>
    obtain ⟨t₁, ht₁, hhead₁⟩ := kclose_head d.fd ht
    obtain ⟨t', ht', hhead'⟩ := ih ht₁
    unfold closeAll
    rw [ht]
    exact ⟨t', ht', hhead'.trans hhead₁⟩

/-- **When a descriptor is closed.** A call keeps its promise just if the number is not in use, or is not the one of the
first descriptor, is there only once and is counted at the node. The loop of `terminate_task` leaves an empty list just
if the list was empty. -/
theorem kclose_iff (ht : s.tasks[i]? = some t) :
    (∀ fd, CloseLaw s i t fd ↔ CloseCond s t fd) ∧
    ((∃ t', (closeAll i t.fds s).tasks[i]? = some t' ∧ t'.fds = []) ↔ t.fds = []) := by
  refine ⟨fun fd => closeLaw_iff ht, ?_⟩
  obtain ⟨t', ht', hhead⟩ := closeAll_head t.fds ht
  constructor
  · rintro ⟨t'', ht'', hnil⟩
    obtain rfl := Option.some.inj (ht'.symm.trans ht'')
    rw [hnil] at hhead
    exact List.head?_eq_none_iff.1 hhead.symm
  · intro hnil
    rw [hnil] at hhead
    exact ⟨t', ht', List.head?_eq_none_iff.1 hhead⟩

/-- Two descriptors of a file. -/
def twoFds : Vfs where
  live a := if a = 0x800 then some .folder else if a = 0x900 then some .file else none
  files _ := ⟨2, 1⟩
  folders _ := ⟨2, 0, [⟨[97], 0x900⟩], [], 1, 0⟩
  root := 0x800
  tasks := [⟨true, [⟨0x900, 1, 0, 0, FD_READ⟩, ⟨0x900, 1, 1, 0, FD_READ⟩], NULL⟩]
  clock := 0

/-- The second one is closed. -/
theorem kclose_second : CloseLaw twoFds 0 ⟨true, [⟨0x900, 1, 0, 0, FD_READ⟩, ⟨0x900, 1, 1, 0, FD_READ⟩], NULL⟩ 1 := by
  refine ((kclose_iff (s := twoFds) (i := 0) rfl).1 1).2 fun d hd => ?_
  obtain rfl := Option.some.inj hd
  exact ⟨by decide, by decide, by decide⟩

/-- **A task cannot close the file that it opened first.** -/
theorem kclose_first : ∃ s, Reach Booted (fun s e => s.step sampleWorld always e) Any s ∧
    ∃ t, s.tasks[0]? = some t ∧ (vfsFindFd t 0).isSome ∧ ¬ CloseLaw s 0 t 0 ∧
      ¬ ∃ t', (closeAll 0 t.fds s).tasks[0]? = some t' ∧ t'.fds = [] := by
  obtain ⟨s, hs, hP⟩ := sample_run (fun _ _ => true)
    (P := fun s => s.tasks[0]?.any fun t => (vfsFindFd t 0).isSome ∧ (s.kclose 0 t 0).1 < 0) (fun _ _ _ => trivial)
    [(0, .open 0 [47, 97] 0)] (by decide)
  obtain ⟨t, ht, hP⟩ := (Option.any_eq_true _ _).1 hP
  obtain ⟨hfind, hneg⟩ := of_decide_eq_true hP
  refine ⟨s, hs, t, ht, hfind, fun hlaw => ?_, fun hempty => ?_⟩
  · obtain ⟨d, hd⟩ := Option.isSome_iff_exists.1 hfind
    unfold CloseLaw at hlaw
    rw [hd] at hlaw
    exact absurd (hlaw.1 ▸ hneg) (by decide)
  · obtain ⟨t₁, ht₁, hhead⟩ := closeAll_head t.fds ht
    obtain ⟨t', ht', hnil⟩ := hempty
    obtain rfl := Option.some.inj (ht₁.symm.trans ht')
    rw [hnil] at hhead
    have hfds : t.fds = [] := List.head?_eq_none_iff.1 hhead.symm
    unfold vfsFindFd at hfind
    rw [hfds] at hfind
    exact absurd hfind (by decide)

end Nettapus.Vfs
