import Nettapus.Proof.VfsRun
import Mathlib.Data.List.Perm.Subperm

/-!
# The descriptors of a new task

`copy_task` gives the child the parent's descriptors in the order of the list, and `vfs_create_fd` gives each the
first number that is free in the child: the `k`-th gets the number `k` (`copyFds_tasks`). So a number means the same
to both tasks only if the parent's list is numbered like this (`copy_task_fds_iff`).
-/

namespace Nettapus.Vfs

open Runs

variable {s : Vfs} {t : VfsTask} {i m n : ℕ} {fds : List Descriptor} {d : Descriptor}

/-- The descriptors, numbered from `m` on. -/
def renumber : ℕ → List Descriptor → List Descriptor
  | _, [] => []
  | m, d :: fds => { d with fd := m } :: renumber (m + 1) fds

theorem freeNumber_eq (hused : ∀ j < m, (fds.any fun d => d.fd = j) = true)
    (hfree : ¬ (fds.any fun d => d.fd = m) = true) (hi : i ≤ m) (hn : m ≤ i + n) : freeNumber fds n i = m := by
  induction n generalizing i with
  | zero =>
    unfold freeNumber
    omega
  | succ n ih =>
    unfold freeNumber
    split_ifs with h
    · have hne : i ≠ m := fun he => hfree (he ▸ h)
      exact ih (by omega) (by omega)
    · have := mt (hused i) h
      omega

theorem any_fd_iff (h : fds.map (·.fd) = List.range m) (j : ℕ) : (fds.any fun d => d.fd = j) = true ↔ j < m := by
  rw [← List.mem_range, ← h, List.mem_map]
  simp

/-- **The loop of `copy_task`** numbers the descriptors from the first free number on. -/
theorem copyFds_tasks (ht : s.tasks[i]? = some t) (hm : t.fds.map (·.fd) = List.range m) :
    (s.copyFds i fds).tasks = s.tasks.set i { t with fds := t.fds ++ renumber m fds } := by
  induction fds generalizing s t m with
  | nil =>
    obtain ⟨hi, rfl⟩ := List.getElem?_eq_some_iff.1 ht
    simp only [copyFds, renumber, List.append_nil]
    exact (List.set_getElem_self hi).symm
  | cons d fds ih =>
    have hlen : t.fds.length = m := by simpa using congrArg List.length hm
    have hnum : freeNumber t.fds t.fds.length 0 = m :=
      freeNumber_eq (fun j => (any_fd_iff hm j).2) (mt (any_fd_iff hm m).1 (lt_irrefl m)) (Nat.zero_le m) (by omega)
    have hi : i < s.tasks.length := (List.getElem?_eq_some_iff.1 ht).1
    simp only [copyFds, ht, vfsCreateFd, hnum]
    rw [ih (t := { t with fds := t.fds ++ [⟨d.node, d.file, m, d.pos, d.mode⟩] }) (m := m + 1)]
    · simp [setTask, openStream_tasks, renumber]
    · simp [setTask, openStream_tasks, hi]
    · simp [hm, List.range_succ]

/-- The child. -/
def child (t : VfsTask) : VfsTask := ⟨true, renumber 0 t.fds, t.currentDir⟩

/-- `copy_task` adds the child, and leaves the tasks that are there alone. -/
theorem copyTask_tasks (s : Vfs) (t : VfsTask) : (s.copyTask t).tasks = s.tasks ++ [child t] := by
  unfold copyTask
  rw [copyFds_tasks (t := ⟨true, [], t.currentDir⟩) (m := 0) (by simp) rfl]
  simp [child]

/-! ## What a number means -/

/-- What a descriptor says but for its number. -/
def contents (d : Descriptor) : ℕ × ℕ × ℕ × ℕ := (d.node, d.file, d.mode, d.pos)

theorem find_renumber (k : ℕ) :
    ((renumber m fds).find? fun d => (d.fd : ℤ) = ((m + k : ℕ) : ℤ)).map contents =
      fds[k]?.map contents := by
  induction fds generalizing m k with
  | nil => rfl
  | cons d fds ih =>
    cases k with
    | zero => simp [renumber, contents]
    | succ k =>
      have hne : ¬ ((m : ℤ) = ((m + (k + 1) : ℕ) : ℤ)) := by omega
      have hadd : m + (k + 1) = m + 1 + k := by omega
      rw [renumber, List.find?_cons_of_neg (by simpa using hne), hadd, ih, List.getElem?_cons_succ]

/-- The number `k` of the child is the `k`-th descriptor of the parent. -/
theorem find_child (t : VfsTask) (k : ℕ) :
    (vfsFindFd (child t) k).map contents = t.fds[k]?.map contents := by
  have h : ((renumber 0 t.fds).find? fun d => (d.fd : ℤ) = ((0 + k : ℕ) : ℤ)).map contents = t.fds[k]?.map contents :=
    find_renumber k
  rw [Nat.zero_add] at h
  exact h

/-- A negative number is none of a descriptor. -/
theorem find_negative (t : VfsTask) {fd : ℤ} (h : fd < 0) : vfsFindFd t fd = none := by
  unfold vfsFindFd
  rw [List.find?_eq_none]
  intro d _
  simp only [decide_eq_true_eq]
  omega

/-- The descriptor with the number `k` is like the `k`-th of the list. -/
def InOrder (t : VfsTask) : Prop := ∀ (k : ℕ) (d : Descriptor), t.fds[k]? = some d →
  (vfsFindFd t k).map contents = some (contents d)

/-- The numbers of a list that is in order are those below its length. -/
theorem InOrder.lt_length (h : InOrder t) (hd : d ∈ t.fds) : d.fd < t.fds.length := by
  have hsub : List.range t.fds.length ⊆ t.fds.map (·.fd) := by
    intro k hk
    have hk' := h k _ (List.getElem?_eq_getElem (List.mem_range.1 hk))
    obtain ⟨e', he', -⟩ := Option.map_eq_some_iff.1 hk'
    have hfd : (e'.fd : ℤ) = k := by simpa using List.find?_some he'
    exact List.mem_map.2 ⟨e', List.mem_of_find?_eq_some he', by exact_mod_cast hfd⟩
  -- as many numbers as descriptors: the list has no others
  have hperm : (List.range t.fds.length).Perm (t.fds.map (·.fd)) :=
    (List.subperm_of_subset List.nodup_range hsub).perm_of_length_le (by simp)
  exact List.mem_range.1 (hperm.mem_iff.2 (List.mem_map.2 ⟨d, hd, rfl⟩))

/-- **When fork preserves the descriptors.** The parent's list stays as it is, and every number means the same to the
parent and to the child exactly when the parent's list is in order. -/
theorem copy_task_fds_iff (s : Vfs) (t : VfsTask) : ∃ nt, (s.copyTask t).tasks = s.tasks ++ [nt] ∧
    ((∀ fd : ℤ, (vfsFindFd nt fd).map contents = (vfsFindFd t fd).map contents) ↔ InOrder t) := by
  refine ⟨child t, copyTask_tasks s t, fun h k d hd => ?_, fun h fd => ?_⟩
  · rw [← h k, find_child, hd]
    rfl
  · rcases lt_or_ge fd 0 with h0 | h0
    · rw [find_negative t h0, find_negative (child t) h0]
    obtain ⟨k, rfl⟩ := Int.eq_ofNat_of_zero_le h0
    rw [find_child]
    rcases Nat.lt_or_ge k t.fds.length with hk | hk
    · rw [List.getElem?_eq_getElem hk, h k _ (List.getElem?_eq_getElem hk)]
      rfl
    · -- neither task has this number
      have hnone : vfsFindFd t k = none := by
        unfold vfsFindFd
        rw [List.find?_eq_none]
        intro d hd
        have := h.lt_length hd
        simp only [decide_eq_true_eq]
        omega
      rw [List.getElem?_eq_none hk, hnone]

/-- A task opens a file and a pipe, and closes the reading end: the child does not have the other one. -/
theorem fork_renumbers : ∃ s t, Reach Booted (fun s e => s.step sampleWorld always e) Any s ∧ s.tasks = [t] ∧
    ∃ nt, (s.copyTask t).tasks = [t, nt] ∧ vfsFindFd nt 2 = none ∧ vfsFindFd t 2 ≠ none ∧
      ¬ ∀ fd : ℤ, (vfsFindFd nt fd).map contents = (vfsFindFd t fd).map contents := by
  obtain ⟨s, hs, hP⟩ := sample_run (fun _ _ => true)
    (P := fun s => s.tasks = [⟨true, [⟨0x1100, 1, 0, 0, 0⟩, ⟨0x1200, 1, 2, 0, FD_WRITE⟩], NULL⟩]) (fun _ _ _ => trivial)
    [(0, .open 0 [47, 97] 0), (0, .pipe), (0, .close 1)] (by decide)
  have ht := of_decide_eq_true hP
  let t : VfsTask := ⟨true, [⟨0x1100, 1, 0, 0, 0⟩, ⟨0x1200, 1, 2, 0, FD_WRITE⟩], NULL⟩
  refine ⟨s, t, hs, ht, child t, ?_, by decide, by decide, fun h => ?_⟩
  · rw [copyTask_tasks, ht]
    rfl
  · exact absurd (h 2) (by decide)

end Nettapus.Vfs
