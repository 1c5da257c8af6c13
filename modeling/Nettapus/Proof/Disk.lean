import Nettapus.Code.Disk
import Mathlib.Data.List.Basic

/-!
# Partitions

* `pioIn_apply` and `pioOut_apply`: what a command does that stays below the last sector
  that 48 bits can name.
* `drive_isolation`: which calls stay in the range of their drive.

The two functions compare the request with the length of the disk, not of the drive.
-/

namespace Nettapus

open Bytes

variable {d : Drive} {io : Io} {m m' buf : Mem} {a n lba amount : ℕ}

/-! ## Commands -/

theorem pioSector_of_lt {i : ℕ} (h : a + i < 2 ^ 48) : pioSector a i = a + i := Nat.mod_eq_of_lt h

/-- A read goes to the first `n` sectors of the buffer. -/
theorem pioIn_apply (h : a + n ≤ 2 ^ 48) (x : ℕ) :
    pioIn m a buf n x = if x < 512 * n then m (512 * a + x) else buf x := by
  induction n with
  | zero => simp [pioIn]
  | succ n ih =>
    unfold pioIn
    rw [ih (by omega), pioSector_of_lt (by omega)]
    by_cases hx : x / 512 = n
    · rw [if_pos hx, if_pos (by omega)]
      congr 1
      omega
    · rw [if_neg hx]
      by_cases h1 : x < 512 * n
      · rw [if_pos h1, if_pos (by omega)]
      · rw [if_neg h1, if_neg (by omega)]

/-- A write goes to the `n` sectors from `a` on. -/
theorem pioOut_apply (h : a + n ≤ 2 ^ 48) (x : ℕ) :
    pioOut m a buf n x = if 512 * a ≤ x ∧ x < 512 * (a + n) then buf (x - 512 * a) else m x := by
  induction n with
  | zero => unfold pioOut; rw [if_neg (by omega)]
  | succ n ih =>
    unfold pioOut
    rw [ih (by omega), pioSector_of_lt (by omega)]
    by_cases hx : x / 512 = a + n
    · rw [if_pos hx, if_pos (by omega)]
      congr 1
      omega
    · rw [if_neg hx]
      by_cases h1 : 512 * a ≤ x ∧ x < 512 * (a + n)
      · rw [if_pos h1, if_pos (by omega)]
      · rw [if_neg h1, if_neg (by omega)]

/-- A read depends on the sectors of the command only. -/
theorem pioIn_congr (h : ∀ i < n, ∀ j < 512, m (512 * pioSector a i + j) = m' (512 * pioSector a i + j)) :
    pioIn m a buf n = pioIn m' a buf n := by
  induction n with
  | zero => rfl
  | succ n ih =>
    unfold pioIn
    rw [ih fun i hi => h i (by omega)]
    funext x
    split_ifs
    · exact h n (by omega) _ (Nat.mod_lt _ (by decide))
    · rfl

/-- A write leaves the other sectors alone. -/
theorem pioOut_of_notMem {s j : ℕ} (hj : j < 512) (h : ∀ i < n, pioSector a i ≠ s) :
    pioOut m a buf n (512 * s + j) = m (512 * s + j) := by
  induction n with
  | zero => rfl
  | succ n ih =>
    unfold pioOut
    have hs : (512 * s + j) / 512 = s := by omega
    rw [hs, if_neg (h n (by omega)).symm]
    exact ih fun i hi => h i (by omega)

theorem pioCount_le (h : 0 < amount) : pioCount io a amount ≤ amount := by
  unfold pioCount
  rw [if_neg (by omega)]
  dsimp only
  split
  · exact le_rfl
  · exact min_le_right _ _

/-- The device reports no errors. -/
def Io.NoErrors (io : Io) : Prop := ∀ lba count, io.stops lba count = none

/-- A device that reports no error goes through all sectors. -/
theorem pioCount_of_none (h : 0 < amount) (hs : io.stops a amount = none) : pioCount io a amount = amount := by
  unfold pioCount
  rw [if_neg (by omega), hs]

/-! ## Calls -/

/-- The sector `s` is in the range of the drive. -/
def Drive.Has (d : Drive) (s : ℕ) : Prop := d.startingSector ≤ s ∧ s < d.startingSector + d.sectorCount

/-- The checks let the call through to the device. -/
def Drive.Transfers (d : Drive) (lba amount : ℕ) : Prop :=
  u64 (lba + amount) ≤ d.dev.sectorCount ∧ 0 < amount ∧ amount < 0xFFFF ∧ d.dev.type = DISK_TYPE_IDE ∧
    u64 (u64 (lba + d.startingSector) + amount) ≤ d.dev.sp.lba48Sectors

instance (d : Drive) (s : ℕ) : Decidable (d.Has s) := inferInstanceAs (Decidable (_ ∧ _))

instance (d : Drive) (lba amount : ℕ) : Decidable (d.Transfers lba amount) :=
  inferInstanceAs (Decidable (_ ∧ _ ∧ _ ∧ _ ∧ _))

/-- The calls that stay in their drive, or do nothing. -/
def Drive.Within (d : Drive) (lba amount : ℕ) : Prop :=
  lba + amount ≤ d.sectorCount ∨ ¬ d.Transfers lba amount

/-- The sectors of a call are consecutive, and none if the checks stop it. -/
theorem mem_sectors {s : ℕ} : s ∈ d.sectors io lba amount ↔
    d.Transfers lba amount ∧ ∃ i < pioCount io (u64 (lba + d.startingSector)) amount,
      pioSector (u64 (lba + d.startingSector)) i = s := by
  unfold Drive.sectors Drive.request Drive.Transfers
  by_cases h1 : u64 (lba + amount) > d.dev.sectorCount
  · rw [if_pos h1]
    simp only [List.not_mem_nil, false_iff]
    omega
  rw [if_neg h1]
  by_cases h2 : amount = 0
  · rw [if_pos h2]
    simp only [List.not_mem_nil, false_iff]
    omega
  rw [if_neg h2]
  by_cases h3 : d.dev.type = DISK_TYPE_IDE
  · rw [if_pos h3]
    by_cases h4 : amount < 0xFFFF
    · rw [if_pos h4]
      dsimp only
      by_cases h5 : pioRefuses d.dev.sp (u64 (lba + d.startingSector)) amount
      · rw [if_pos h5]
        unfold pioRefuses at h5
        simp only [List.not_mem_nil, false_iff]
        omega
      · rw [if_neg h5]
        unfold pioRefuses at h5
        simp only [List.mem_map, List.mem_range]
        refine ⟨fun h => ⟨⟨by omega, by omega, h4, h3, by omega⟩, h⟩, fun h => h.2⟩
    · rw [if_neg h4]
      simp only [List.not_mem_nil, false_iff]
      omega
  · rw [if_neg h3]
    simp [h3]

/-- What a read returns does not depend on other sectors than those it reads. -/
theorem driveReadSectors_congr
    (h : ∀ s ∈ d.sectors io lba amount, ∀ j < 512, m (512 * s + j) = m' (512 * s + j)) :
    driveReadSectors d io m buf lba amount = driveReadSectors d io m' buf lba amount := by
  unfold driveReadSectors
  unfold Drive.sectors at h
  cases hr : d.request lba amount with
  | ide l =>
    rw [hr] at h
    dsimp only at h ⊢
    unfold idePioRead48
    split_ifs with href
    · rfl
    · rw [if_neg href] at h
      rw [pioIn_congr fun i hi j hj => h _ (List.mem_map_of_mem (List.mem_range.2 hi)) j hj]
  | _ => rfl

/-- A write leaves the sectors alone that it does not write. -/
theorem driveWriteSectors_of_notMem {s j : ℕ} (hj : j < 512) (h : s ∉ d.sectors io lba amount) :
    (driveWriteSectors d io m buf lba amount).2 (512 * s + j) = m (512 * s + j) := by
  unfold driveWriteSectors
  unfold Drive.sectors at h
  cases hr : d.request lba amount with
  | ide l =>
    rw [hr] at h
    dsimp only at h ⊢
    unfold idePioWrite48
    split_ifs with href
    · rfl
    · rw [if_neg href] at h
      refine pioOut_of_notMem hj fun i hi he => h ?_
      exact List.mem_map.2 ⟨i, List.mem_range.2 hi, he⟩
  | _ => rfl

/-! ## Drives that were registered -/

/-- The list after calls of `register_drive`. -/
def registerAll (ds : List Drive) : List Drive := ds.foldl (fun l d => (registerDrive l d).2) []

/-- The checks of `register_drive`. -/
structure Drive.Accepted (d : Drive) : Prop where
  start_le : d.startingSector ≤ d.dev.sectorCount
  count_le : d.sectorCount ≤ d.dev.sectorCount
  count_pos : 0 < d.sectorCount
  stop_le : u64 (d.startingSector + d.sectorCount) ≤ d.dev.sectorCount

theorem registerDrive_mem {l : List Drive} {e : Drive} (h : d ∈ (registerDrive l e).2) :
    d ∈ l ∨ d.Accepted := by
  unfold registerDrive at h
  split_ifs at h with h1 h2 h3 h4
  · exact Or.inl h
  · exact Or.inl h
  · exact Or.inl h
  · exact Or.inl h
  · rcases List.mem_cons.1 h with rfl | h
    · exact Or.inr ⟨by omega, by omega, by omega, by omega⟩
    · exact Or.inl h

theorem accepted_of_mem {ds : List Drive} (h : d ∈ registerAll ds) : d.Accepted := by
  have key : ∀ (ds l : List Drive), (∀ e ∈ l, e.Accepted) →
      ∀ e ∈ ds.foldl (fun l d => (registerDrive l d).2) l, e.Accepted := by
    intro ds
    induction ds with
    | nil => intro l hl; exact hl
    | cons e ds ih =>
      intro l hl
      refine ih _ fun e' he' => ?_
      exact (registerDrive_mem he').elim (hl e') id
  exact key ds [] (by simp) d h

/-- A disk that `register_disk` made, of a size that 48-bit addresses can name. -/
structure Disk.Ok (dev : Disk) : Prop where
  made : ∃ type ide, registerDisk type ide = some dev
  small : dev.sectorCount < 2 ^ 48

theorem Disk.Ok.lba48 {dev : Disk} (h : dev.Ok) :
    dev.sp.lba48Sectors = dev.sectorCount ∨ dev.sp.lba48Sectors = 0 := by
  obtain ⟨type, ide, h1⟩ := h.made
  unfold registerDisk at h1
  split_ifs at h1
  · obtain rfl := Option.some.inj h1
    simp
  · obtain rfl := Option.some.inj h1
    simp_all

theorem Drive.Accepted.stop (hd : d.Accepted) (hdev : d.dev.Ok) :
    d.startingSector + d.sectorCount ≤ d.dev.sectorCount := by
  have h1 := hd.start_le
  have h2 := hd.count_le
  have h3 := hd.stop_le
  have h4 := hdev.small
  unfold u64 at h3
  omega

/-- Whether a read fails does not depend on what is on the device. -/
theorem driveReadSectors_status (d : Drive) (io : Io) (lba amount : ℕ) (m m' buf buf' : Mem) :
    (driveReadSectors d io m buf lba amount).1 = (driveReadSectors d io m' buf' lba amount).1 := by
  unfold driveReadSectors idePioRead48
  cases d.request lba amount with
  | ide l => dsimp only; split_ifs <;> rfl
  | _ => rfl

theorem driveWriteSectors_status (d : Drive) (io : Io) (lba amount : ℕ) (m m' buf buf' : Mem) :
    (driveWriteSectors d io m buf lba amount).1 = (driveWriteSectors d io m' buf' lba amount).1 := by
  unfold driveWriteSectors idePioWrite48
  cases d.request lba amount with
  | ide l => dsimp only; split_ifs <;> rfl
  | _ => rfl

/-- A write fails exactly if a read of these sectors does. -/
theorem driveWriteSectors_read (d : Drive) (io : Io) (lba amount : ℕ) (m m' buf buf' : Mem) :
    (driveWriteSectors d io m buf lba amount).1 = (driveReadSectors d io m' buf' lba amount).1 := by
  unfold driveWriteSectors driveReadSectors idePioWrite48 idePioRead48
  cases d.request lba amount with
  | ide l => dsimp only; split_ifs <;> rfl
  | _ => rfl

/-- A request that the checks let through, and where it goes. -/
theorem Drive.Accepted.request_cases (hd : d.Accepted) (hdev : d.dev.Ok) (hl : lba < 2 ^ 60)
    (h0 : 0 < amount) (h1 : amount < 0xFFFF) :
    ((d.request lba amount).status ≠ GENERIC_SUCCESS ∧ ∀ l, d.request lba amount ≠ .ide l) ∨
      d.request lba amount = .ide (lba + d.startingSector) := by
  have hs := hd.start_le
  have hsmall := hdev.small
  unfold Drive.request
  split_ifs
  · exact Or.inl ⟨by decide, by simp⟩
  · omega
  · right
    rw [u64_of_lt (by omega)]
  · exact Or.inl ⟨by decide, by simp⟩

/-- A command that is not refused stays below the last sector of the disk. -/
theorem Drive.Accepted.not_refuses (hd : d.Accepted) (hdev : d.dev.Ok) (hl : lba < 2 ^ 60)
    (h1 : amount < 0xFFFF) (h : ¬ pioRefuses d.dev.sp (lba + d.startingSector) amount) :
    lba + d.startingSector + amount ≤ 2 ^ 48 := by
  have hs := hd.start_le
  have hsmall := hdev.small
  have hlba := hdev.lba48
  unfold pioRefuses at h
  rw [u64_of_lt (by omega)] at h
  omega

theorem pioStatus_eq_zero (h : pioStatus io a amount = 0) : io.stops a amount = none := by
  unfold pioStatus at h
  split_ifs at h with hs
  simpa using hs

/-- **A read that succeeds** fills the buffer from the sectors of the drive. -/
theorem Drive.Accepted.read_ok (hd : d.Accepted) (hdev : d.dev.Ok) (hl : lba < 2 ^ 60) (h0 : 0 < amount)
    (h1 : amount < 0xFFFF) (h : (driveReadSectors d io m buf lba amount).1 = GENERIC_SUCCESS) (x : ℕ) :
    (driveReadSectors d io m buf lba amount).2 x =
      if x < 512 * amount then m (512 * (lba + d.startingSector) + x) else buf x := by
  rcases hd.request_cases hdev hl h0 h1 with ⟨hr, hne⟩ | hr
  · unfold driveReadSectors at h
    split at h
    · exact absurd ‹_› (hne _)
    · exact absurd h hr
  · unfold driveReadSectors idePioRead48 at h ⊢
    rw [hr] at h ⊢
    dsimp only at h ⊢
    by_cases href : pioRefuses d.dev.sp (lba + d.startingSector) amount
    · rw [if_pos href] at h
      cases h
    · rw [if_neg href] at h ⊢
      dsimp only at h ⊢
      rw [pioCount_of_none h0 (pioStatus_eq_zero h), pioIn_apply (hd.not_refuses hdev hl h1 href)]

/-- **A write that succeeds** fills the sectors of the drive from the buffer. -/
theorem Drive.Accepted.write_ok (hd : d.Accepted) (hdev : d.dev.Ok) (hl : lba < 2 ^ 60) (h0 : 0 < amount)
    (h1 : amount < 0xFFFF) (h : (driveWriteSectors d io m buf lba amount).1 = GENERIC_SUCCESS) (x : ℕ) :
    (driveWriteSectors d io m buf lba amount).2 x =
      if 512 * (lba + d.startingSector) ≤ x ∧ x < 512 * (lba + d.startingSector + amount) then
        buf (x - 512 * (lba + d.startingSector)) else m x := by
  rcases hd.request_cases hdev hl h0 h1 with ⟨hr, hne⟩ | hr
  · unfold driveWriteSectors at h
    split at h
    · exact absurd ‹_› (hne _)
    · exact absurd h hr
  · unfold driveWriteSectors idePioWrite48 at h ⊢
    rw [hr] at h ⊢
    dsimp only at h ⊢
    by_cases href : pioRefuses d.dev.sp (lba + d.startingSector) amount
    · rw [if_pos href] at h
      cases h
    · rw [if_neg href] at h ⊢
      dsimp only at h ⊢
      rw [pioCount_of_none h0 (pioStatus_eq_zero h), pioOut_apply (hd.not_refuses hdev hl h1 href)]

/-- **Inside the drive no arithmetic wraps**, and the sectors are those of the drive. -/
theorem Drive.Accepted.sectors_has (hd : d.Accepted) (hdev : d.dev.Ok) (hw : d.Within lba amount) {s : ℕ}
    (hs : s ∈ d.sectors io lba amount) : d.Has s := by
  obtain ⟨ht, i, hi, rfl⟩ := mem_sectors.1 hs
  have hle := hw.resolve_right (not_not_intro ht)
  have hstop := hd.stop hdev
  have hsmall := hdev.small
  have hi' : i < amount := hi.trans_le (pioCount_le ht.2.1)
  unfold Drive.Has pioSector u64
  omega

/-- **A call that leaves the range of its drive** does so at its first sector, or at the sector at
which the addresses wrap, or at its last one. -/
theorem Drive.Accepted.within_of_has (hd : d.Accepted) (hdev : d.dev.Ok) (hl : lba < 2 ^ 64)
    (h : ∀ io, ∀ s ∈ d.sectors io lba amount, d.Has s) : d.Within lba amount := by
  by_cases ht : d.Transfers lba amount
  · left
    set A := u64 (lba + d.startingSector) with hA
    have hall : ∀ i < amount, d.Has (pioSector A i) := by
      intro i hi
      refine h Io.quiet _ (mem_sectors.2 ⟨ht, i, ?_, rfl⟩)
      rw [pioCount_of_none ht.2.1 rfl]
      exact hi
    have hstop := hd.stop hdev
    have hsmall := hdev.small
    obtain ⟨h1, h2, h3, -, h5⟩ := ht
    rw [← hA] at h5
    have hfirst := hall 0 h2
    have hlast := hall (amount - 1) (by omega)
    have hlba48 := hdev.lba48
    have hAlt : A < 2 ^ 64 := Nat.mod_lt _ (by decide)
    unfold Drive.Has pioSector at hfirst hlast
    by_cases hwrap : A + amount < 2 ^ 64
    · rw [u64_of_lt hwrap] at h5
      have hA48 : A + amount ≤ d.dev.sectorCount := by omega
      rw [Nat.mod_eq_of_lt (by omega)] at hlast hfirst
      unfold u64 at hA
      omega
    · -- the last sector that 48 bits can name is on no disk
      have hmid := hall (2 ^ 64 - 1 - A) (by omega)
      unfold Drive.Has pioSector at hmid
      omega
  · exact Or.inr ht

/-- The calls of a sequence all stay in the drive, or do nothing. -/
def Drive.AllWithin (d : Drive) (ops : List (Io × DriveOp)) : Prop :=
  ∀ op ∈ ops, d.Within op.2.lba op.2.amount

/-- **Partitions.** A call reads and writes sectors of its drive only, whatever the device does,
exactly if it stays in the drive or does nothing. A sequence of such calls neither reads nor
changes any sector outside the drive, and what the reads return depends on the drive alone. -/
theorem drive_isolation {ds : List Drive} (hd : d ∈ registerAll ds) (hdev : d.dev.Ok) :
    (∀ lba amount, lba < 2 ^ 64 →
      ((∀ io, ∀ s ∈ d.sectors io lba amount, d.Has s) ↔ d.Within lba amount)) ∧
    (∀ io m m' buf lba amount, d.Within lba amount →
      (∀ s, d.Has s → ∀ j < 512, m (512 * s + j) = m' (512 * s + j)) →
      driveReadSectors d io m buf lba amount = driveReadSectors d io m' buf lba amount) ∧
    ∀ (ops : List (Io × DriveOp)) (s : ℕ), d.AllWithin ops → ¬ d.Has s →
      (∀ op ∈ ops, s ∉ d.sectors op.1 op.2.lba op.2.amount) ∧
      ∀ m, ∀ j < 512, ops.foldl d.call m (512 * s + j) = m (512 * s + j) := by
  have ha := accepted_of_mem hd
  refine ⟨fun lba amount hl => ⟨ha.within_of_has hdev hl, fun hw io s => ha.sectors_has hdev hw⟩, ?_, ?_⟩
  · intro io m m' buf lba amount hw hm
    exact driveReadSectors_congr fun s hs => hm s (ha.sectors_has hdev hw hs)
  intro ops s hops hs
  have hnot : ∀ op ∈ ops, s ∉ d.sectors op.1 op.2.lba op.2.amount :=
    fun op hop hmem => hs (ha.sectors_has hdev (hops op hop) hmem)
  refine ⟨hnot, ?_⟩
  intro m j hj
  -- every call leaves the sector alone
  induction ops generalizing m with
  | nil => rfl
  | cons op ops ih =>
    rw [List.foldl_cons, ih (fun o ho => hops o (List.mem_cons_of_mem _ ho))
      (fun o ho => hnot o (List.mem_cons_of_mem _ ho))]
    have hop := hnot op List.mem_cons_self
    obtain ⟨io, op⟩ := op
    cases op with
    | read buf lba amount => rfl
    | write buf lba amount => exact driveWriteSectors_of_notMem hj hop

/-- A disk of a thousand sectors. -/
def someDisk : Disk := ⟨DISK_TYPE_IDE, 1000, ⟨0, 1000⟩⟩

/-- Two neighbours on it. -/
def lowDrive : Drive := ⟨someDisk, 100, 10⟩
def highDrive : Drive := ⟨someDisk, 110, 10⟩

theorem someDisk_ok : someDisk.Ok := ⟨⟨DISK_TYPE_IDE, ⟨0, 1000⟩, rfl⟩, by decide⟩

/-- The last sectors of the drive. -/
theorem drive_isolation_last : lowDrive.Transfers 7 3 ∧ ∀ io, ∀ s ∈ lowDrive.sectors io 7 3, lowDrive.Has s :=
  ⟨by decide, ((drive_isolation (show lowDrive ∈ registerAll [lowDrive, highDrive] by decide) someDisk_ok).1 7 3 (by decide)).2
    (Or.inl (by decide))⟩

/-- **A sector of the neighbour**: the sector after the last one of the drive is read, since
it is still on the disk. -/
theorem drive_reads_neighbour : lowDrive ∈ registerAll [lowDrive, highDrive] ∧
    highDrive ∈ registerAll [lowDrive, highDrive] ∧ lowDrive.dev.Ok ∧
    (∀ s, ¬ (lowDrive.Has s ∧ highDrive.Has s)) ∧
    ∃ s ∈ lowDrive.sectors Io.quiet 10 1, ¬ lowDrive.Has s ∧ highDrive.Has s := by
  refine ⟨by decide, by decide, someDisk_ok, fun s => ?_, 110, by decide, by decide, by decide⟩
  unfold Drive.Has lowDrive highDrive
  dsimp only
  omega

end Nettapus
