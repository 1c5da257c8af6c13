import Nettapus.Code.Ide

/-!
# The capacity of the disks that are found

What `ide_refresh_disks` makes of the words that the devices send. `ideFound` is the devices that it finds, in its
order; the list of disks is made of them (`ideRefreshDisks_mem`), and is all of them when no two have the same
number (`ideRefreshDisks_eq`).

`ide_capacity_iff`: the capacity is the one that the device reports as long as word 101 is below `0x8000`. From there
on, that is for disks of 1 TiB and more, words 101 and 100 are a negative `int`, which makes ones of words 102 and 103.
-/

namespace Nettapus

open Words

variable {buf : Fin 256 → UInt16} {lo hi : UInt16}

/-! ## The words -/

/-- **The capacity that a device reports.** -/
def capacity (buf : Fin 256 → UInt16) : ℕ :=
  let lba48 := (buf 100).toNat + (buf 101).toNat * 2 ^ 16 + (buf 102).toNat * 2 ^ 32 + (buf 103).toNat * 2 ^ 48
  if lba48 ≠ 0 then lba48 else (buf 60).toNat + (buf 61).toNat * 2 ^ 16

theorem joinInt_eq : joinInt lo hi = lo.toNat + hi.toNat * 2 ^ 16 := or_shiftLeft lo.toNat_lt

theorem joinInt_lt : joinInt lo hi < 2 ^ 32 := by
  have hlo := lo.toNat_lt
  have hhi := hi.toNat_lt
  rw [joinInt_eq]
  omega

/-- A negative `int` has its top bit from the second word. -/
theorem joinInt_lt_iff : joinInt lo hi < 2 ^ 31 ↔ hi.toNat < 0x8000 := by
  have hlo := lo.toNat_lt
  rw [joinInt_eq]
  constructor <;> intro h <;> omega

/-- **What the two words above come to.** -/
theorem maxLba48_eq : maxLba48 buf = (buf 100).toNat + (buf 101).toNat * 2 ^ 16 +
    (if (buf 101).toNat < 0x8000 then (buf 102).toNat + (buf 103).toNat * 2 ^ 16 else 2 ^ 32 - 1) * 2 ^ 32 := by
  have h102 := (buf 102).toNat_lt
  have h103 := (buf 103).toNat_lt
  have hhigh : (buf 102).toNat ||| (buf 103).toNat <<< 16 = (buf 102).toNat + (buf 103).toNat * 2 ^ 16 :=
    or_shiftLeft h102
  have hjoin : maxLba48 buf =
      extend (joinInt (buf 100) (buf 101)) ||| ((buf 102).toNat ||| (buf 103).toNat <<< 16) <<< 32 := by
    unfold maxLba48
    rw [Nat.shiftLeft_or_distrib, ← Nat.shiftLeft_add, Nat.or_assoc]
  have hsign := @joinInt_lt_iff (buf 100) (buf 101)
  rw [joinInt_eq] at hsign
  rw [hjoin, hhigh, extend_or joinInt_lt (by omega), joinInt_eq]
  simp only [hsign]

/-- **When the sector count of a disk is the capacity of the device.** -/
theorem sectorCount_eq_iff {disk : Disk} (h : registerDisk DISK_TYPE_IDE ⟨maxLba28 buf, maxLba48 buf⟩ = some disk) :
    disk.sectorCount = capacity buf ↔
      (buf 101).toNat < 0x8000 ∨ (buf 102).toNat = 0xFFFF ∧ (buf 103).toNat = 0xFFFF := by
  have hcount : disk.sectorCount = if maxLba48 buf ≠ 0 then maxLba48 buf else maxLba28 buf := by
    rw [← Option.some.inj h]
  have h102 := (buf 102).toNat_lt
  have h103 := (buf 103).toNat_lt
  rw [hcount]
  unfold capacity
  dsimp only
  rw [maxLba48_eq, maxLba28, joinInt_eq]
  by_cases hlow : (buf 101).toNat < 0x8000
  · refine iff_of_true ?_ (.inl hlow)
    rw [if_pos hlow]
    split_ifs <;> omega
  · -- both are more than nothing, and they differ in the words 102 and 103 alone
    rw [if_neg hlow, if_pos (by omega), if_pos (by omega)]
    constructor
    · intro he
      exact .inr ⟨by omega, by omega⟩
    · rintro (hlow' | ⟨he, he'⟩)
      · exact absurd hlow' hlow
      · rw [he, he']
        omega

/-! ## The list of disks -/

/-- A device that answered. -/
structure IdeFound where
  channel : IdeChannel
  id : ℕ
  slave : ℕ
  buf : Fin 256 → UInt16

def IdeFound.node (f : IdeFound) : IdeNode := f.channel.node f.id f.slave f.buf

/-- The devices that a channel has. -/
def IdeChannel.found (c : IdeChannel) (id : ℕ) : List IdeFound :=
  if c.stat ≠ 0xFF ∧ c.stat ≠ 0x7F then
    ((ideIdentifyNoid c.master).toList.map fun buf => ⟨c, id, 0, buf⟩) ++
      (ideIdentifyNoid c.slave).toList.map fun buf => ⟨c, id + 1, 1, buf⟩
  else []

def ideFoundFrom (i : UInt8) : List IdeBus → List IdeFound
  | [] => []
  | ibus :: next =>
    ibus.primary.found (i.toNat * 4) ++ ibus.secondary.found (i.toNat * 4 + 2) ++ ideFoundFrom (i + 1) next

/-- **The devices on all buses**, in the order in which they are looked for. -/
def ideFound (buses : List IdeBus) : List IdeFound := ideFoundFrom 0 buses

/-- All of them, one after the other, in the list of disks. -/
def registerFound (drives : List IdeNode) (fs : List IdeFound) : List IdeNode :=
  fs.foldl (fun drives f => ideRegisterDisk f.node drives) drives

variable {c : IdeChannel} {id slave : ℕ} {a : IdeAnswer} {drives : List IdeNode} {nd e : IdeNode}
  {f : IdeFound} {fs : List IdeFound} {buses : List IdeBus} {i : UInt8}

theorem registerDisk_eq : c.registerDisk id slave a drives =
    registerFound drives ((ideIdentifyNoid a).toList.map fun buf => ⟨c, id, slave, buf⟩) := by
  unfold IdeChannel.registerDisk
  cases ideIdentifyNoid a with
  | none => rfl
  | some buf => rfl

theorem registerDisks_eq : c.registerDisks id drives = registerFound drives (c.found id) := by
  unfold IdeChannel.registerDisks IdeChannel.found
  split_ifs with h
  · rw [registerDisk_eq, registerDisk_eq, registerFound, registerFound, registerFound, List.foldl_append]
  · rfl

theorem ideRefreshLoop_eq : ∀ {i : UInt8} {buses : List IdeBus} {drives : List IdeNode},
    ideRefreshLoop i buses drives = registerFound drives (ideFoundFrom i buses) := by
  intro i buses
  induction buses generalizing i with
  | nil => intro drives; rfl
  | cons ibus next ih =>
    intro drives
    rw [ideRefreshLoop, ih, registerDisks_eq, registerDisks_eq, ideFoundFrom, registerFound, registerFound,
      registerFound, registerFound, List.foldl_append, List.foldl_append]

/-- An entry is the new one or was there. -/
theorem mem_ideRegisterDisk (h : e ∈ ideRegisterDisk nd drives) : e = nd ∨ e ∈ drives := by
  induction drives with
  | nil => exact .inl (List.mem_singleton.1 h)
  | cons d next ih =>
    rw [ideRegisterDisk] at h
    split_ifs at h with hid
    · exact .inl (List.mem_singleton.1 h)
    · rcases List.mem_cons.1 h with rfl | h
      · exact .inr List.mem_cons_self
      · rcases ih h with h | h
        · exact .inl h
        · exact .inr (List.mem_cons_of_mem _ h)

/-- A new number goes to the end. -/
theorem ideRegisterDisk_new (h : ∀ d ∈ drives, d.driveId ≠ nd.driveId) : ideRegisterDisk nd drives = drives ++ [nd] := by
  induction drives with
  | nil => rfl
  | cons d next ih =>
    rw [ideRegisterDisk, if_neg (h d List.mem_cons_self), ih fun x hx => h x (List.mem_cons_of_mem _ hx)]
    rfl

theorem mem_registerFound (h : e ∈ registerFound drives fs) : e ∈ drives ∨ ∃ f ∈ fs, f.node = e := by
  induction fs generalizing drives with
  | nil => exact .inl h
  | cons f fs ih =>
    rcases ih h with hd | ⟨f', hf, rfl⟩
    · rcases mem_ideRegisterDisk hd with rfl | hd
      · exact .inr ⟨f, List.mem_cons_self, rfl⟩
      · exact .inl hd
    · exact .inr ⟨f', List.mem_cons_of_mem _ hf, rfl⟩

/-- Numbers in increasing order are all new. -/
theorem registerFound_eq (hs : (drives.map (·.driveId) ++ fs.map (·.id)).Pairwise (· < ·)) :
    registerFound drives fs = drives ++ fs.map IdeFound.node := by
  induction fs generalizing drives with
  | nil => exact (List.append_nil drives).symm
  | cons f fs ih =>
    have hnew : ideRegisterDisk f.node drives = drives ++ [f.node] := by
      refine ideRegisterDisk_new fun d hd => ne_of_lt ?_
      exact (List.pairwise_append.1 hs).2.2 _ (List.mem_map_of_mem hd) _ List.mem_cons_self
    have hs' : ((drives ++ [f.node]).map (·.driveId) ++ fs.map (·.id)).Pairwise (· < ·) := by
      rw [List.map_append, List.append_assoc]
      exact hs
    have hstep : registerFound drives (f :: fs) = registerFound (ideRegisterDisk f.node drives) fs := rfl
    rw [hstep, hnew, ih hs', List.append_assoc]
    rfl

/-! ## The numbers -/

theorem found_id (h : f ∈ c.found id) : id ≤ f.id ∧ f.id < id + 2 := by
  unfold IdeChannel.found at h
  split_ifs at h with hstat
  · simp only [List.mem_append, List.mem_map] at h
    obtain ⟨_, -, rfl⟩ | ⟨_, -, rfl⟩ := h
    · exact ⟨le_rfl, by dsimp only; omega⟩
    · exact ⟨by dsimp only; omega, by dsimp only; omega⟩
  · exact absurd h List.not_mem_nil

theorem found_sorted : ((c.found id).map (·.id)).Pairwise (· < ·) := by
  unfold IdeChannel.found
  split_ifs
  · cases ideIdentifyNoid c.master <;> cases ideIdentifyNoid c.slave <;> simp
  · exact List.Pairwise.nil

/-- **Up to 256 buses, the numbers increase.** -/
theorem ideFoundFrom_sorted : ∀ {k : ℕ} {buses : List IdeBus}, k + buses.length ≤ 256 →
    ((ideFoundFrom (UInt8.ofNat k) buses).map (·.id)).Pairwise (· < ·) ∧
      ∀ f ∈ ideFoundFrom (UInt8.ofNat k) buses, k * 4 ≤ f.id := by
  intro k buses
  induction buses generalizing k with
  | nil => exact fun _ => ⟨List.Pairwise.nil, fun f hf => absurd hf List.not_mem_nil⟩
  | cons ibus next ih =>
    intro h
    rw [List.length_cons] at h
    have hk : (UInt8.ofNat k).toNat = k := by
      rw [UInt8.toNat_ofNat']
      omega
    have hnext : UInt8.ofNat k + 1 = UInt8.ofNat (k + 1) := by rw [UInt8.ofNat_add]; rfl
    obtain ⟨hsorted, hge⟩ := ih (k := k + 1) (by omega)
    rw [ideFoundFrom, hk, hnext]
    constructor
    · rw [List.map_append, List.map_append, List.pairwise_append, List.pairwise_append]
      refine ⟨⟨found_sorted, found_sorted, ?_⟩, hsorted, ?_⟩
      · intro x hx y hy
        obtain ⟨f, hf, rfl⟩ := List.mem_map.1 hx
        obtain ⟨f', hf', rfl⟩ := List.mem_map.1 hy
        have := (found_id hf).2
        have := (found_id hf').1
        omega
      · intro x hx y hy
        obtain ⟨f', hf', rfl⟩ := List.mem_map.1 hy
        have := hge f' hf'
        rcases List.mem_append.1 hx with hx | hx <;> obtain ⟨f, hf, rfl⟩ := List.mem_map.1 hx <;>
          have := (found_id hf).2 <;> omega
    · intro f hf
      rcases List.mem_append.1 hf with hf | hf
      · rcases List.mem_append.1 hf with hf | hf <;> have := (found_id hf).1 <;> omega
      · have := hge f hf
        omega

/-- Every disk is a device that was found. -/
theorem ideRefreshDisks_mem (h : e ∈ ideRefreshDisks buses) : ∃ f ∈ ideFound buses, f.node = e := by
  rw [ideRefreshDisks, ideRefreshLoop_eq] at h
  exact (mem_registerFound h).resolve_left List.not_mem_nil

/-- **Every device that was found is a disk.** -/
theorem ideRefreshDisks_eq (h : buses.length ≤ 256) : ideRefreshDisks buses = (ideFound buses).map IdeFound.node := by
  rw [ideRefreshDisks, ideRefreshLoop_eq]
  exact registerFound_eq (ideFoundFrom_sorted (k := 0) (by omega)).1

/-- **When the capacity of a disk is that of the device.** Each disk of the list is a device that was found, in any
position, and up to 256 buses each such device is a disk. The sector count is right just when word 101 is below
`0x8000` or the two words after it have all their bits set. -/
theorem ide_capacity_iff (buses : List IdeBus) :
    (∀ e ∈ ideRefreshDisks buses, ∃ f ∈ ideFound buses, f.node = e ∧
      ∃ disk, registerDisk DISK_TYPE_IDE e.toIdeDrive = some disk ∧
        (disk.sectorCount = capacity f.buf ↔
          (f.buf 101).toNat < 0x8000 ∨ (f.buf 102).toNat = 0xFFFF ∧ (f.buf 103).toNat = 0xFFFF)) ∧
    (buses.length ≤ 256 → ideRefreshDisks buses = (ideFound buses).map IdeFound.node) := by
  refine ⟨fun e he => ?_, ideRefreshDisks_eq⟩
  obtain ⟨f, hf, rfl⟩ := ideRefreshDisks_mem he
  exact ⟨f, hf, rfl, _, rfl, sectorCount_eq_iff rfl⟩

/-! ## A disk of 1.5 TiB -/

def largeAnswer : IdeAnswer := ⟨0x50, 0, 0, [8], fun i => if i = 101 then 0xC000 else 0⟩

/-- There is no device. -/
def noAnswer : IdeAnswer := ⟨0, 0, 0, [], fun _ => 0⟩

def largeBus : IdeBus := ⟨⟨0x1F0, 0x3F6, 0x50, largeAnswer, noAnswer⟩, ⟨0x170, 0x376, 0x50, noAnswer, largeAnswer⟩⟩

/-- **A disk of `0xC0000000` sectors gets nearly `2 ^ 64` of them.** -/
theorem ide_capacity_large :
    (ideFound [largeBus]).map (fun f => capacity f.buf) = [0xC0000000, 0xC0000000] ∧
    (ideRefreshDisks [largeBus]).map (fun e => (registerDisk DISK_TYPE_IDE e.toIdeDrive).map (·.sectorCount)) =
      [some 0xFFFFFFFFC0000000, some 0xFFFFFFFFC0000000] := by
  decide

end Nettapus
