import Nettapus.Proof.Disk

/-!
# Transfers of whole ranges

A write of some sectors of a drive and the read after it, on a device without errors (`Drive.TransferLaw`).

`transfer_iff`: both functions do nothing for `0xFFFF` sectors and more, and report success; a disk without LBA48 is
never read or written, as the commands look at that capacity only; and addresses have 48 bits.
-/

namespace Nettapus

open Bytes

variable {d : Drive} {io : Io} {m buf : Mem} {ide : IdeDrive} {lba amount : ℕ}

/-- A write of `amount` sectors at `lba` succeeds and stores them and nothing else, and a read gives them back. -/
def Drive.TransferLaw (d : Drive) (lba amount : ℕ) : Prop :=
  ∀ io : Io, io.NoErrors → ∀ m buf,
    (driveWriteSectors d io m buf lba amount).1 = GENERIC_SUCCESS ∧
    (∀ x, (driveWriteSectors d io m buf lba amount).2 x =
      if 512 * (d.startingSector + lba) ≤ x ∧ x < 512 * (d.startingSector + lba + amount) then
        buf (x - 512 * (d.startingSector + lba)) else m x) ∧
    ∀ buf', (driveReadSectors d io (driveWriteSectors d io m buf lba amount).2 buf' lba amount).1 = GENERIC_SUCCESS ∧
      ∀ x < 512 * amount, (driveReadSectors d io (driveWriteSectors d io m buf lba amount).2 buf' lba amount).2 x = buf x

theorem registerDisk_some (h : registerDisk DISK_TYPE_IDE ide = some d.dev) : d.dev.type = DISK_TYPE_IDE ∧
    d.dev.sp = ide ∧ d.dev.sectorCount = if ide.lba48Sectors ≠ 0 then ide.lba48Sectors else ide.lba28Sectors := by
  unfold registerDisk at h
  rw [if_pos rfl] at h
  rw [← Option.some.inj h]
  exact ⟨rfl, rfl, rfl⟩

/-- **A sector that is to be stored is one that the call writes.** -/
theorem Drive.TransferLaw.writes (hl : d.TransferLaw lba amount) (hio : io.NoErrors) {s : ℕ}
    (h1 : d.startingSector + lba ≤ s) (h2 : s < d.startingSector + lba + amount) : s ∈ d.sectors io lba amount := by
  by_contra hs
  have hstored := (hl io hio (fun _ => 0) fun _ => 1).2.1 (512 * s + 0)
  rw [driveWriteSectors_of_notMem (by decide) hs, if_pos (by omega)] at hstored
  exact absurd hstored (by decide)

/-- The calls that go through, all the way to the device. -/
theorem Drive.Accepted.request_ide (hd : d.Accepted) (hdev : registerDisk DISK_TYPE_IDE ide = some d.dev)
    (h0 : 0 < amount) (hle : lba + amount ≤ d.sectorCount) (h1 : amount < 0xFFFF) (h2 : ide.lba48Sectors ≠ 0)
    (h3 : d.startingSector + lba + amount ≤ 2 ^ 48) :
    d.request lba amount = .ide (d.startingSector + lba) ∧
      ¬ pioRefuses d.dev.sp (d.startingSector + lba) amount := by
  obtain ⟨htype, hsp, hcap⟩ := registerDisk_some hdev
  rw [if_pos h2] at hcap
  have hs := hd.start_le
  have hc := hd.count_le
  have hstop := hd.stop_le
  constructor
  · unfold Drive.request
    rw [u64_of_lt (by omega), if_neg (by omega), if_neg (by omega), if_pos htype, if_pos h1, u64_of_lt (by omega),
      Nat.add_comm]
  · unfold pioRefuses
    rw [u64_of_lt (by omega), hsp, ← hcap]
    -- a drive whose end wraps is on a disk of more sectors than have addresses
    unfold u64 at hstop
    omega

/-- **When a transfer is complete.** -/
theorem transfer_iff {ds : List Drive} (hd : d ∈ registerAll ds) (hdev : registerDisk DISK_TYPE_IDE ide = some d.dev)
    (h0 : 0 < amount) (hle : lba + amount ≤ d.sectorCount) : d.TransferLaw lba amount ↔
      amount < 0xFFFF ∧ ide.lba48Sectors ≠ 0 ∧ d.startingSector + lba + amount ≤ 2 ^ 48 := by
  constructor
  · intro hl
    -- the last sector is written
    have hlast := hl.writes (show Io.quiet.NoErrors from fun _ _ => rfl)
      (show d.startingSector + lba ≤ d.startingSector + lba + amount - 1 by omega) (by omega)
    obtain ⟨ht, i, -, hi⟩ := mem_sectors.1 hlast
    have hlt : pioSector (u64 (lba + d.startingSector)) i < 2 ^ 48 := Nat.mod_lt _ (by decide)
    have h3 : d.startingSector + lba + amount ≤ 2 ^ 48 := by omega
    refine ⟨ht.2.2.1, fun hzero => ?_, h3⟩
    have hcap := ht.2.2.2.2
    rw [(registerDisk_some hdev).2.1, hzero, u64_of_lt (show lba + d.startingSector < 2 ^ 64 by omega),
      u64_of_lt (by omega)] at hcap
    omega
  · rintro ⟨h1, h2, h3⟩ io hio m buf
    obtain ⟨hr, href⟩ := (accepted_of_mem hd).request_ide hdev h0 hle h1 h2 h3
    have hstatus : pioStatus io (d.startingSector + lba) amount = 0 := by
      unfold pioStatus
      rw [hio]
      rfl
    have hwrite : driveWriteSectors d io m buf lba amount = (0, pioOut m (d.startingSector + lba) buf amount) := by
      unfold driveWriteSectors idePioWrite48
      rw [hr]
      dsimp only
      rw [if_neg href, hstatus, pioCount_of_none h0 (hio _ _)]
    have hread : ∀ m' buf', driveReadSectors d io m' buf' lba amount =
        (0, pioIn m' (d.startingSector + lba) buf' amount) := by
      intro m' buf'
      unfold driveReadSectors idePioRead48
      rw [hr]
      dsimp only
      rw [if_neg href, hstatus, pioCount_of_none h0 (hio _ _)]
    rw [hwrite]
    refine ⟨rfl, pioOut_apply h3, fun buf' => ?_⟩
    rw [hread]
    refine ⟨rfl, fun x hx => ?_⟩
    dsimp only
    rw [pioIn_apply h3, if_pos hx, pioOut_apply h3, if_pos (by omega), Nat.add_sub_cancel_left]

/-- The last sectors of a drive. -/
theorem transfer_low : lowDrive.TransferLaw 7 3 :=
  (transfer_iff (show lowDrive ∈ registerAll [lowDrive, highDrive] by decide)
    (show registerDisk DISK_TYPE_IDE ⟨0, 1000⟩ = some lowDrive.dev from rfl) (by decide) (by decide)).2
      ⟨by decide, by decide, by decide⟩

/-- A disk without LBA48, and a large one. -/
def oldDisk : Disk := ⟨DISK_TYPE_IDE, 1000, ⟨1000, 0⟩⟩
def largeDisk : Disk := ⟨DISK_TYPE_IDE, 0x100000, ⟨0, 0x100000⟩⟩

/-- **Nothing is read from a disk without LBA48**, and a large write reports success and writes nothing. -/
theorem transfer_lost :
    (⟨oldDisk, 0, 1000⟩ : Drive) ∈ registerAll [⟨oldDisk, 0, 1000⟩] ∧
    ¬ (⟨oldDisk, 0, 1000⟩ : Drive).TransferLaw 0 1 ∧
    (⟨largeDisk, 0, 0x100000⟩ : Drive) ∈ registerAll [⟨largeDisk, 0, 0x100000⟩] ∧
    (∀ io m buf, driveWriteSectors ⟨largeDisk, 0, 0x100000⟩ io m buf 0 0xFFFF = (GENERIC_SUCCESS, m)) ∧
    ¬ (⟨largeDisk, 0, 0x100000⟩ : Drive).TransferLaw 0 0xFFFF := by
  have hold : (⟨oldDisk, 0, 1000⟩ : Drive) ∈ registerAll [⟨oldDisk, 0, 1000⟩] := by decide
  have hlarge : (⟨largeDisk, 0, 0x100000⟩ : Drive) ∈ registerAll [⟨largeDisk, 0, 0x100000⟩] := by decide
  refine ⟨hold, fun hl => ?_, hlarge, fun io m buf => rfl, fun hl => ?_⟩
  · have hstatus := (hl Io.quiet (fun _ _ => rfl) (fun _ => 0) fun _ => 0).1
    exact absurd hstatus (by decide)
  · have hstored := (hl Io.quiet (fun _ _ => rfl) (fun _ => 0) fun _ => 1).2.1 0
    exact absurd hstored (by decide)

end Nettapus
