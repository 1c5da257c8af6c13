import Nettapus.Code.Copy
import Nettapus.Code.Pipe

/-!
# Copies between ranges that overlap

* `memmove_moves`: `memmove` leaves the old bytes of the source at the destination, whatever the two ranges have in
  common, and changes nothing else; `memcpy` leaves the same memory when it copies downwards or the ranges are apart.
* `readPipe_shift`: the copy by which `vfs_read_pipe` takes the bytes that were read out of the pipe is of this kind.
-/

namespace Nettapus

open Bytes

variable {m : Mem} {dst src n : ℕ}

theorem copyLoop_eq (hd : dst + n ≤ 2 ^ 64) (hs : src + n ≤ 2 ^ 64) : copyLoop m dst src n = copyUp m dst src n := by
  induction n with
  | zero => simp [copyLoop, copyUp]
  | succ n ih =>
    have hdn : u64 (dst + n) = dst + n := u64_of_lt (by omega)
    have hsn : u64 (src + n) = src + n := u64_of_lt (by omega)
    simp only [copyLoop, copyUp, ih (by omega) (by omega), hdn, hsn]

theorem copyBackLoop_eq (hd : dst + n ≤ 2 ^ 64) (hs : src + n ≤ 2 ^ 64) :
    copyBackLoop dst src n m = copyDown m dst src n := by
  induction n generalizing m with
  | zero => simp [copyBackLoop, copyDown]
  | succ n ih =>
    have hdn : u64 (dst + n) = dst + n := u64_of_lt (by omega)
    have hsn : u64 (src + n) = src + n := u64_of_lt (by omega)
    simp only [copyBackLoop, copyDown, ih (by omega) (by omega), hdn, hsn]

theorem memcpy_eq (hd : dst + n ≤ 2 ^ 64) (hs : src + n ≤ 2 ^ 64) (h : dst ≤ src ∨ src + n ≤ dst) :
    memcpy m dst src n = (dst, moved m dst src n) := by
  unfold memcpy
  rw [copyLoop_eq hd hs, copyUp_eq_moved h]

/-- **The direction is the right one** for every position of the two ranges. -/
theorem memmove_eq (hd : dst + n ≤ 2 ^ 64) (hs : src + n ≤ 2 ^ 64) :
    memmove m dst src n = (dst, moved m dst src n) := by
  unfold memmove
  by_cases hlt : dst < src
  · rw [if_pos hlt, copyLoop_eq hd hs, copyUp_eq_moved (Or.inl hlt.le)]
  · rw [if_neg hlt, copyBackLoop_eq hd hs, copyDown_eq_moved (Or.inl (not_lt.1 hlt))]

/-- **Copies that overlap.** `memmove` is right for all ranges that do not wrap; `memcpy` does the same when the
destination does not begin inside the source. -/
theorem memmove_moves (m : Mem) (dst src size : ℕ) (hd : dst + size ≤ 2 ^ 64) (hs : src + size ≤ 2 ^ 64) :
    (∀ k < size, (memmove m dst src size).2 (dst + k) = m (src + k)) ∧
    (∀ x, ¬ (dst ≤ x ∧ x < dst + size) → (memmove m dst src size).2 x = m x) ∧
    (dst ≤ src ∨ dst + size ≤ src ∨ src + size ≤ dst → (memcpy m dst src size).2 = (memmove m dst src size).2) := by
  rw [memmove_eq hd hs]
  refine ⟨fun k hk => moved_apply hk, fun x hx => moved_of_outside (by omega), fun h => ?_⟩
  rw [memcpy_eq hd hs (by omega)]

/-- Three bytes one place up, and one place down. -/
theorem memmove_moves_three :
    (memmove (fun x => UInt8.ofNat x) 17 16 3).2 18 = 17 ∧ (memmove (fun x => UInt8.ofNat x) 15 16 3).2 16 = 17 ∧
      (memcpy (fun x => UInt8.ofNat x) 15 16 3).2 = (memmove (fun x => UInt8.ofNat x) 15 16 3).2 := by
  have hup := memmove_moves (fun x => UInt8.ofNat x) 17 16 3 (by decide) (by decide)
  have hdown := memmove_moves (fun x => UInt8.ofNat x) 15 16 3 (by decide) (by decide)
  exact ⟨hup.1 1 (by decide), hdown.1 1 (by decide), hdown.2.2 (by decide)⟩

/-- **The shift of the pipe's buffer** could as well be a `memmove`. -/
theorem readPipe_shift (p : PipeSys) {i : ℕ} (hp : p.pipeMem + DEFAULT_PIPE_SIZE ≤ 2 ^ 64)
    (ha : (p.call i).amount > 0) (hn : p.toRead i ≠ 0) (hle : p.size ≤ DEFAULT_PIPE_SIZE) :
    (p.vfsReadPipe i).mem = (memmove (copyUp p.mem (p.call i).buf p.pipeMem (p.toRead i)) p.pipeMem
      (p.pipeMem + p.toRead i) (DEFAULT_PIPE_SIZE - p.toRead i)).2 := by
  have hr : p.toRead i ≤ DEFAULT_PIPE_SIZE := by
    unfold PipeSys.toRead
    split_ifs <;> omega
  rw [memmove_eq (by omega) (by omega), ← copyUp_eq_moved (Or.inl (Nat.le_add_right _ _))]
  simp [PipeSys.vfsReadPipe, ha, hn, PipeSys.progress]

end Nettapus
