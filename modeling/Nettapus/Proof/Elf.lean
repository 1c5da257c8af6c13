import Nettapus.Code.Elf
import Nettapus.Proof.File
import Nettapus.Proof.SpacePages

/-!
# The passes of `load_elf`

* `AtPos`, `Holds`: the descriptor is at a place of a regular file, whose content is given.
* `checkEntries_spec`: the first pass reads the entries of the table behind the header, and checks them.
* `SegmentMapped`, `loadSegment_maps`: what a segment does to the page tables.
* `loadEntries_inv`: the second pass reads the same entries; what every segment keeps, the pass keeps.
* `loadElf_cases`: an address space is returned after all of this.
-/

namespace Nettapus

open Forest Runs

variable {disk : ℕ → DriverRead} {special : FileDescriptor → ℤ → Option (Delivered FileDescriptor)} {fd : ℤ}
variable {fds : List FileDescriptor} {node : FileVnode} {content : List UInt8} {s s' : Loader} {pos r n : ℕ}

/-! ## The descriptor -/

/-- The descriptor `fd` reads the regular file `node`, at `pos`. -/
def AtPos (fds : List FileDescriptor) (fd : ℤ) (node : FileVnode) (pos : ℕ) : Prop :=
  ∃ fdes, Opened fds fd fdes node ∧ fdes.node = some node ∧ fdes.mode = FD_READ ∧ fdes.pos = pos

/-- The driver reads a file with the content `content`, or reports an error. -/
structure Holds (disk : ℕ → DriverRead) (node : FileVnode) (content : List UInt8) : Prop where
  serves : ∀ n, Serves (disk n) node.inodeNum content
  size : node.size = content.length
  lt : content.length < 2 ^ 63

/-- The descriptor at another place. -/
theorem atPos_setFd {fdes : FileDescriptor} (ho : Opened fds fd fdes node) (hn : fdes.node = some node)
    (hm : fdes.mode = FD_READ) (p : ℕ) : AtPos (setFd fds fd { fdes with pos := p }) fd node p := by
  have hfd : fdes.fd = fd := find_fd ho.find
  exact ⟨{ fdes with pos := p }, ⟨ho.nonneg, find_setFd ho.find hfd, ho.file, ho.read⟩, hn, hm, rfl⟩

/-- `vfs_read_file` changes the place only. -/
theorem vfsReadFile_state {read : DriverRead} {fdes : FileDescriptor} {amount : ℤ} {d : Delivered FileDescriptor}
    (hn : fdes.node = some node) (h : vfsReadFile read fdes amount = some d) : ∃ p, d.state = { fdes with pos := p } := by
  obtain ⟨node', file, num, p, mode⟩ := fdes
  obtain rfl : node' = some node := hn
  unfold vfsReadFile at h
  dsimp only at h
  generalize (if u64 (toSize amount + p) > node.size then toInt64 (sub64 node.size p) else amount) = toRead at h
  split_ifs at h
  · exact ⟨p, by rw [← Option.some.inj h]⟩
  · exact ⟨p, by rw [← Option.some.inj h]⟩
  · exact ⟨p, by rw [← Option.some.inj h]⟩
  · obtain ⟨q, -, rfl⟩ := Option.map_eq_some_iff.1 h
    dsimp only
    split_ifs
    · exact ⟨_, rfl⟩
    · exact ⟨p, rfl⟩

/-- `kread` leaves the descriptor at some place of the file. -/
theorem read_moves {amount : ℤ} {d : Delivered Loader} (hp : AtPos s.fds fd node pos)
    (h : s.read disk special fd amount = some d) : d.state.spaces = s.spaces ∧ ∃ p, AtPos d.state.fds fd node p := by
  obtain ⟨fdes, ho, hn, hm, -⟩ := hp
  obtain ⟨d₁, h1, rfl⟩ := Option.map_eq_some_iff.1 h
  rw [kread_eq ho hn] at h1
  obtain ⟨d₂, h2, rfl⟩ := Option.map_eq_some_iff.1 h1
  refine ⟨rfl, ?_⟩
  obtain ⟨p, hp⟩ := vfsReadFile_state hn h2
  refine ⟨p, ?_⟩
  dsimp only
  rw [hp]
  exact atPos_setFd ho hn hm p

/-- **A read of the file**: the next bytes, or an error. -/
theorem read_spec (amount : ℤ) (hF : Holds disk node content) (hp : AtPos s.fds fd node pos)
    (hle : pos ≤ content.length) (h0 : 0 < amount) (h1 : amount < 2 ^ 63) :
    ∃ d, s.read disk special fd amount = some d ∧ d.state.spaces = s.spaces ∧
      (d.status < 0 ∨ ∃ n : ℕ, d.status = (n : ℤ) ∧ d.data = (content.drop pos).take n ∧
        pos + n ≤ content.length ∧ AtPos d.state.fds fd node (pos + n)) := by
  obtain ⟨fdes, ho, hn, hm, rfl⟩ := hp
  have hsz := hF.size
  have hlt := hF.lt
  have hf : Reading fdes node content := ⟨hn, hm, by omega, by omega, hle, by omega⟩
  obtain ⟨d, hd, -, hcase⟩ := vfsReadFile_step hf (hF.serves s.calls) h0 h1
  unfold Loader.read
  rw [kread_eq ho hn, hd]
  refine ⟨_, rfl, rfl, ?_⟩
  rcases hcase with ⟨hneg, -⟩ | ⟨n, -, hst, hdata, hstate, hle1, -, -⟩
  · exact Or.inl hneg
  · right
    refine ⟨n, hst, hdata, by omega, ?_⟩
    dsimp only
    rw [hstate]
    exact atPos_setFd ho hn hm _

/-- `kseek` leaves the descriptor at some place of the file. -/
theorem seek_moves {q : ℤ} (hp : AtPos s.fds fd node pos) (h : s.seek fd q = some s') :
    s'.spaces = s.spaces ∧ ∃ p, AtPos s'.fds fd node p := by
  have hp' := hp
  obtain ⟨⟨node', file, num, p, mode⟩, ho, hn, hm, -⟩ := hp
  obtain rfl : node' = some node := hn
  have hfd := ho.nonneg
  obtain ⟨⟨st, fds'⟩, h1, rfl⟩ := Option.map_eq_some_iff.1 h
  refine ⟨rfl, ?_⟩
  unfold kseek at h1
  rw [if_neg (by omega), ho.find, Option.map_some, if_neg ho.file] at h1
  split_ifs at h1
  · obtain ⟨-, rfl⟩ := Prod.mk.inj (Option.some.inj h1)
    exact ⟨pos, hp'⟩
  · obtain ⟨-, rfl⟩ := Prod.mk.inj (Option.some.inj h1)
    exact ⟨_, atPos_setFd ho rfl hm _⟩

/-- `kseek` to a place before the end. -/
theorem seek_spec (hF : Holds disk node content) (hp : AtPos s.fds fd node pos) {q : ℕ} (hq : q < content.length) :
    ∃ s', s.seek fd (q : ℤ) = some s' ∧ s'.spaces = s.spaces ∧ s'.calls = s.calls ∧ AtPos s'.fds fd node q := by
  obtain ⟨⟨node', file, num, p, mode⟩, ho, hn, hm, -⟩ := hp
  obtain rfl : node' = some node := hn
  have hfd := ho.nonneg
  have hsz := hF.size
  have hlt := hF.lt
  have hts : toSize (q : ℤ) = q := by
    rw [toSize_of_nonneg (by omega) (by omega)]
    rfl
  refine ⟨{ s with fds := setFd s.fds fd ⟨some node, file, num, q, mode⟩ }, ?_, rfl, rfl, atPos_setFd ho rfl hm q⟩
  unfold Loader.seek kseek
  rw [if_neg (by omega), if_neg (by omega), ho.find, Option.map_some, if_neg ho.file]
  dsimp only
  rw [hts, if_neg (by omega)]
  rfl

/-- `ktell`. -/
theorem ktell_spec (hp : AtPos fds fd node pos) (hlt : pos < 2 ^ 63) : ktell fds fd = some (pos : ℤ) := by
  obtain ⟨fdes, ho, -, -, rfl⟩ := hp
  have hfd := ho.nonneg
  unfold ktell toInt64
  rw [if_neg (by omega), ho.find, Option.map_some, if_pos hlt]

/-! ## The table -/

/-- The entry at `off` of the file. -/
def phdrAt (content : List UInt8) (off : ℕ) : ElfPhdr := elfPhdr ((content.drop off).take PHDR_SIZE)

/-- A table of `n` entries at `off`. -/
def tableAt (content : List UInt8) (off n : ℕ) : List ElfPhdr :=
  (List.range n).map fun i => phdrAt content (off + PHDR_SIZE * i)

/-- The entries that `load_elf` reads: the table behind the header. -/
def elfEntries (content : List UInt8) : List ElfPhdr :=
  tableAt content 64 (elfHdr64 (content.take 64)).phdrEntryCount

/-- An entry that could be read. -/
theorem readEntry_spec {d : Delivered Loader} (hF : Holds disk node content) (hp : AtPos s.fds fd node pos)
    (hle : pos ≤ content.length) (h : s.read disk special fd PHDR_SIZE = some d) (hst : d.status = PHDR_SIZE) :
    d.state.spaces = s.spaces ∧ elfPhdr d.data = phdrAt content pos ∧ pos + PHDR_SIZE ≤ content.length ∧
      AtPos d.state.fds fd node (pos + PHDR_SIZE) := by
  obtain ⟨d', hd', hsp, hcase⟩ := read_spec PHDR_SIZE hF hp hle (by decide) (by decide)
  obtain rfl := Option.some.inj (h.symm.trans hd')
  rcases hcase with hneg | ⟨n, hn, hdata, hlen, hat⟩
  · rw [hst] at hneg
    exact absurd hneg (by decide)
  · obtain rfl : n = PHDR_SIZE := by
      rw [hst] at hn
      exact (Int.ofNat.inj hn).symm
    exact ⟨hsp, by rw [hdata]; rfl, hlen, hat⟩

/-- **The first pass.** -/
theorem checkEntries_spec (hF : Holds disk node content) : ∀ n (s : Loader) pos, AtPos s.fds fd node pos →
    pos ≤ content.length → Loader.checkEntries disk special fd n s = some (true, s') →
    s'.spaces = s.spaces ∧ pos + PHDR_SIZE * n ≤ content.length ∧ AtPos s'.fds fd node (pos + PHDR_SIZE * n) ∧
      ∀ i < n, Spaces.accepts (phdrAt content (pos + PHDR_SIZE * i)).toElfPhdrEntry = true := by
  intro n
  induction n with
  | zero =>
    intro s pos hp hle h
    obtain ⟨-, rfl⟩ := Prod.mk.inj (Option.some.inj h)
    exact ⟨rfl, hle, hp, fun i hi => by omega⟩
  | succ n ih =>
    intro s pos hp hle h
    unfold Loader.checkEntries at h
    obtain ⟨d, h1, h2⟩ := Option.bind_eq_some_iff.1 h
    split_ifs at h2 with hst hacc
    · cases (Prod.mk.inj (Option.some.inj h2)).1
    · obtain ⟨hsp, he, hlen, hat⟩ := readEntry_spec hF hp hle h1 (not_not.1 hst)
      obtain ⟨k1, k2, k3, k4⟩ := ih d.state _ hat hlen h2
      have hadd : ∀ i, pos + PHDR_SIZE + PHDR_SIZE * i = pos + PHDR_SIZE * (i + 1) := fun i => by
        rw [Nat.mul_succ]
        omega
      rw [hadd] at k2 k3
      refine ⟨k1.trans hsp, k2, k3, fun i hi => ?_⟩
      cases i with
      | zero =>
        rw [he] at hacc
        exact hacc
      | succ i =>
        rw [← hadd]
        exact k4 i (by omega)
    · cases (Prod.mk.inj (Option.some.inj h2)).1

/-! ## A segment -/

/-- The first page of a segment. -/
def ElfPhdrEntry.firstPage (e : ElfPhdrEntry) : ℕ := e.vaddr % 2 ^ 48 / 0x1000

/-- The pages of a segment are mapped to the frames from `pp` on, and the window shows them. -/
structure SegmentMapped (z z' : Spaces) (r vp n pp : ℕ) : Prop where
  keeps : Keeps z z'
  mem_eq : z'.mem = (Nettapus.allocpps z.mem n).2
  cr3_eq : z'.cr3 = z.cr3
  window : ∀ k < n, flat z'.vmm r (windowVp + k) = (pp + k) % 2 ^ 52 * 0x1000 + 3
  inside : ∀ k < n, (vp + k < windowVp ∨ windowVp + n ≤ vp + k) →
    flat z'.vmm r (vp + k) = (pp + k) % 2 ^ 52 * 0x1000 + 7
  other : ∀ r' vp', z.Root r' → (vp' < windowVp ∨ windowVp + n ≤ vp') →
    ((vp' < vp ∨ vp + n ≤ vp') ∨ (r' ≠ r ∧ vp' / 512 ^ 3 ≠ 511)) → flat z'.vmm r' vp' = flat z.vmm r' vp'
  slots : z.vmm.freeSlots.card ≤ z'.vmm.freeSlots.card + 6 * (n / 512 + 2)
  range : windowVp + n ≤ 2 ^ 36

theorem pageEntry_run (pp k u : ℕ) : Vmm.pageEntry (u64 ((u64 (pp * 0x1000) &&& 0xFFFFFFFFFFFFF000) + k * 0x1000)) u =
    (pp + k) % 2 ^ 52 * 0x1000 + if u ≠ 0 then 7 else 3 := by
  have ha : u64 ((u64 (pp * 0x1000) &&& 0xFFFFFFFFFFFFF000) + k * 0x1000) = (pp + k) % 2 ^ 52 * 0x1000 := by
    rw [and_frame]
    unfold u64
    omega
  rw [ha]
  exact pageEntry_aligned (by omega) u

/-- A range is mapped in an address space, if there are structures for it. -/
theorem mapRange_yields {z : Spaces} (pa va amount u : ℕ) (h : SpaceInv z) (hr : z.Root r) :
    Yields (va % 2 ^ 48 + amount * 0x1000 ≤ 2 ^ 48 ∧ 3 * (amount / 512 + 2) ≤ z.vmm.freeSlots.card)
      (z.mapMemory pa va amount r u)
      fun z' => ∃ v, z' = { z with vmm := v } ∧ Keeps z z' ∧
        Mapped z.Root (· = 511) z.vmm v r (va % 2 ^ 48 / 0x1000) amount (pa &&& 0xFFFFFFFFFFFFF000) u ∧
        z.vmm.freeSlots.card ≤ v.freeSlots.card + 3 * (amount / 512 + 2) ∧ va % 2 ^ 48 / 0x1000 + amount ≤ 2 ^ 36 := by
  constructor
  · intro z' hm
    have hk := (mapMemory_keeps h hr hm).1
    obtain ⟨⟨st, v⟩, h1, rfl⟩ := Option.map_eq_some_iff.1 hm
    exact ⟨v, rfl, hk, (mapMemory_spec h.tables hr h1).2, mapMemory_slots h.tables hr h1, mapMemory_range h.tables hr h1⟩
  · rintro ⟨h1, h2⟩
    obtain ⟨v, hv⟩ := mapMemory_total (u := u) h.tables hr h1 h2
    exact ⟨_, Option.map_eq_some_iff.2 ⟨_, hv, rfl⟩⟩

/-- The ranges of a segment are in the address space, and there are structures for them. -/
def SegmentFits (z : Spaces) (e : ElfPhdrEntry) : Prop :=
  e.firstPage + Spaces.pageCount e ≤ 2 ^ 36 ∧ windowVp + Spaces.pageCount e ≤ 2 ^ 36 ∧
    6 * (Spaces.pageCount e / 512 + 2) ≤ z.vmm.freeSlots.card

/-- **The pages of a segment are mapped**, at their place and at the window. -/
theorem mapSegment_yields {e : ElfPhdr} (h : SpaceInv s.spaces) (hr : s.spaces.Root r) :
    Yields (SegmentFits s.spaces e.toElfPhdrEntry) (s.mapSegment r e) fun s' => s' = { s with spaces := s'.spaces } ∧
      s'.spaces.page = s.spaces.page ∧ SegmentMapped s.spaces s'.spaces r e.firstPage (Spaces.pageCount e.toElfPhdrEntry)
        (Nettapus.allocpps s.spaces.mem (Spaces.pageCount e.toElfPhdrEntry)).1 := by
  unfold Loader.mapSegment Spaces.allocpps SegmentFits
  dsimp only
  generalize Spaces.pageCount e.toElfPhdrEntry = n
  have k0 := keeps_allocpps h n
  unfold Spaces.allocpps at k0
  dsimp only at k0
  generalize (Nettapus.allocpps s.spaces.mem n).1 = pp
  have hva : u64 (e.vaddr / 0x1000 * 0x1000) % 2 ^ 48 / 0x1000 = e.firstPage := by
    unfold u64 ElfPhdrEntry.firstPage
    omega
  have hy := mapRange_yields (u64 (pp * 0x1000)) (u64 (e.vaddr / 0x1000 * 0x1000)) n 1
    k0.inv (k0.root ▸ hr)
  refine Yields.bind ⟨hy.1, fun hE => hy.2 ⟨?_, ?_⟩⟩ ?_
  · have hal : u64 (e.vaddr / 0x1000 * 0x1000) % 2 ^ 48 = e.firstPage * 0x1000 := by
      unfold u64 ElfPhdrEntry.firstPage
      omega
    omega
  · show 3 * (n / 512 + 2) ≤ s.spaces.vmm.freeSlots.card
    omega
  rintro z₁ ⟨v₁, rfl, k1, m1, c1, -⟩
  rw [hva] at m1
  have k01 := k0.trans k1
  have hy₂ := mapRange_yields (u64 (pp * 0x1000)) WINDOW n 0 k1.inv (k01.root ▸ hr)
  have c1' : s.spaces.vmm.freeSlots.card ≤ v₁.freeSlots.card + 3 * (n / 512 + 2) := c1
  refine Yields.map ⟨hy₂.1, fun hE => hy₂.2 ⟨?_, ?_⟩⟩ ?_
  · have hw : WINDOW % 2 ^ 48 = windowVp * 0x1000 := by decide
    omega
  · show 3 * (n / 512 + 2) ≤ v₁.freeSlots.card
    omega
  rintro z₂ ⟨v₂, rfl, k2, m2, c2, hend⟩
  have c2' : v₁.freeSlots.card ≤ v₂.freeSlots.card + 3 * (n / 512 + 2) := c2
  refine ⟨rfl, rfl, k01.trans k2, rfl, rfl, fun k hk => ?_, fun k hk hout => ?_, fun r' vp' hr' h1 h2 => ?_, ?_,
    hend⟩
  · exact (m2.inside k hk).trans (pageEntry_run pp k 0)
  · show flat v₂ r (e.firstPage + k) = _
    have e2 : flat v₂ r (e.firstPage + k) = flat v₁ r (e.firstPage + k) :=
      m2.outside r _ (k01.root ▸ hr) (Or.inl hout)
    rw [e2]
    exact (m1.inside k hk).trans (pageEntry_run pp k 1)
  · have e2 : flat v₂ r' vp' = flat v₁ r' vp' := m2.outside r' vp' (k01.root ▸ hr') (Or.inl h1)
    have e1 : flat v₁ r' vp' = flat s.spaces.vmm r' vp' := m1.outside r' vp' (k0.root ▸ hr') h2
    exact e2.trans e1
  · show s.spaces.vmm.freeSlots.card ≤ v₂.freeSlots.card + 6 * (n / 512 + 2)
    omega

/-- The contents of pages do not matter. -/
theorem SegmentMapped.with_page {z z₁ : Spaces} {vp pp : ℕ} (h : SegmentMapped z z₁ r vp n pp) (page : ℕ → ℕ → UInt8) :
    SegmentMapped z { z₁ with page := page } r vp n pp :=
  ⟨h.keeps.trans (h.keeps.inv.congr rfl rfl rfl rfl), h.mem_eq, h.cr3_eq, h.window, h.inside, h.other, h.slots, h.range⟩

/-- A write changes contents only. -/
theorem write_eq : ∀ (l : List UInt8) (z z' : Spaces) (va : ℕ), z.write va l = some z' →
    z' = { z with page := z'.page } := by
  intro l
  induction l with
  | nil =>
    intro z z' va h
    rw [← Option.some.inj h]
  | cons b l ih =>
    intro z z' va h
    obtain ⟨z₁, h1, h2⟩ := Option.bind_eq_some_iff.1 h
    unfold Spaces.poke at h1
    dsimp only at h1
    split_ifs at h1
    have h3 := ih z₁ z' (va + 1) h2
    rw [← Option.some.inj h1] at h3
    exact h3

/-- The data of a segment changes contents only, and the descriptor comes back to its place. -/
theorem fillSegment_spec {e : ElfPhdr} (hF : Holds disk node content) (hp : AtPos s.fds fd node pos)
    (hle : pos ≤ content.length) (h : s.fillSegment disk special fd e = some s') :
    s'.spaces = { s.spaces with page := s'.spaces.page } ∧
      ∃ p, AtPos s'.fds fd node p ∧ (pos < content.length → p = pos) := by
  have hlt := hF.lt
  unfold Loader.fillSegment at h
  obtain ⟨z₁, h1, h⟩ := Option.bind_eq_some_iff.1 h
  obtain ⟨temp, h2, h⟩ := Option.bind_eq_some_iff.1 h
  obtain ⟨s₁, h3, h⟩ := Option.bind_eq_some_iff.1 h
  obtain ⟨d, h4, h⟩ := Option.bind_eq_some_iff.1 h
  obtain ⟨z₂, h5, h6⟩ := Option.bind_eq_some_iff.1 h
  have e1 := write_eq _ _ _ _ h1
  obtain rfl : (pos : ℤ) = temp := by
    rw [ktell_spec hp (by omega)] at h2
    exact Option.some.inj h2
  obtain ⟨sp1, p1, hp1⟩ := seek_moves (s := { s with spaces := z₁ }) hp h3
  obtain ⟨sp2, p2, hp2⟩ := read_moves hp1 h4
  have e2 := write_eq _ _ _ _ h5
  obtain ⟨sp3, p3, hp3⟩ := seek_moves (s := { d.state with spaces := z₂ }) hp2 h6
  constructor
  · rw [sp3]
    dsimp only
    rw [e2, sp2, sp1]
    dsimp only
    rw [e1]
  · by_cases hc : pos < content.length
    · obtain ⟨s₂, h7, -, -, hp4⟩ := seek_spec (s := { d.state with spaces := z₂ }) hF hp2 hc
      obtain rfl := Option.some.inj (h6.symm.trans h7)
      exact ⟨pos, hp4, fun _ => rfl⟩
    · exact ⟨p3, hp3, fun h => absurd h hc⟩

/-- `z'` is `z` with the segment in its place and the window closed. -/
structure SegmentLoaded (z z' : Spaces) (r vp n : ℕ) : Prop where
  keeps : Keeps z z'
  cr3_eq : z'.cr3 = z.cr3
  closed : ∀ k < n, flat z'.vmm r (windowVp + k) = 0
  other : ∀ r' vp', z.Root r' → (vp' < windowVp ∨ windowVp + n ≤ vp') →
    ((vp' < vp ∨ vp + n ≤ vp') ∨ (r' ≠ r ∧ vp' / 512 ^ 3 ≠ 511)) → flat z'.vmm r' vp' = flat z.vmm r' vp'

/-- The window is closed. -/
theorem unwindow_spec {z z₁ z' : Spaces} {vp pp : ℕ} (h : SegmentMapped z z₁ r vp n pp) (hr : z.Root r)
    (hm : z₁.unmapMemory WINDOW n r = some z') :
    z' = { z₁ with vmm := z'.vmm } ∧ SegmentLoaded z z' r vp n ∧
      (∀ k < n, (vp + k < windowVp ∨ windowVp + n ≤ vp + k) → flat z'.vmm r (vp + k) = flat z₁.vmm r (vp + k)) ∧
      z'.vmm.freeSlots = z₁.vmm.freeSlots := by
  obtain ⟨⟨st, v⟩, h1, rfl⟩ := Option.map_eq_some_iff.1 hm
  have hr₁ : z₁.Root r := h.keeps.root ▸ hr
  obtain ⟨st', v', h2, hE⟩ := unmapMemory_erases h.keeps.inv.tables hr₁ h.range fun k hk => by
    rw [show WINDOW % 2 ^ 48 / 0x1000 = windowVp from rfl, h.window k hk]
    omega
  obtain ⟨-, rfl⟩ := Prod.mk.inj (Option.some.inj (h1.symm.trans h2))
  refine ⟨rfl, ⟨h.keeps.trans (h.keeps.inv.grown hE.tables hE.grown), h.cr3_eq, hE.inside, fun r' vp' hr' h3 h4 => ?_⟩,
    fun k hk hout => hE.outside r _ hr₁ (Or.inl hout), unmapMemory_slots h1⟩
  have e1 : flat v r' vp' = flat z₁.vmm r' vp' := hE.outside r' vp' (h.keeps.root ▸ hr') (Or.inl h3)
  exact e1.trans (h.other r' vp' hr' h3 h4)

/-- **A segment** is put in its place, and the descriptor comes back to the table. -/
theorem loadSegment_maps {e : ElfPhdr} (hF : Holds disk node content) (hp : AtPos s.fds fd node pos)
    (hle : pos ≤ content.length) (h : SpaceInv s.spaces) (hr : s.spaces.Root r)
    (hm : s.loadSegment disk special fd r e = some s') :
    (e.segmentType = 1 → SegmentLoaded s.spaces s'.spaces r e.firstPage (Spaces.pageCount e.toElfPhdrEntry)) ∧
      (e.segmentType ≠ 1 → s'.spaces = s.spaces) ∧
      ∃ p, AtPos s'.fds fd node p ∧ (pos < content.length → p = pos) := by
  unfold Loader.loadSegment at hm
  split_ifs at hm with ht
  · obtain ⟨s₁, h1, hm⟩ := Option.bind_eq_some_iff.1 hm
    obtain ⟨s₂, h2, h3⟩ := Option.bind_eq_some_iff.1 hm
    obtain ⟨z, h4, rfl⟩ := Option.map_eq_some_iff.1 h3
    obtain ⟨e1, -, m1⟩ := (mapSegment_yields h hr).1 s₁ h1
    rw [e1] at h2
    obtain ⟨e2, hpos⟩ := fillSegment_spec (s := { s with spaces := s₁.spaces }) hF hp hle h2
    rw [e2] at h4
    obtain ⟨-, hL, -⟩ := unwindow_spec (m1.with_page s₂.spaces.page) hr h4
    exact ⟨fun _ => hL, fun h1 => absurd ht h1, hpos⟩
  · obtain rfl := Option.some.inj hm
    exact ⟨fun h1 => absurd h1 ht, fun _ => rfl, pos, hp, fun _ => rfl⟩

/-! ## The second pass -/

/-- **The second pass** reads the entries again. What every segment keeps, it keeps. -/
theorem loadEntries_inv {J : ℕ → Spaces → Prop} (hF : Holds disk node content)
    (hJ : ∀ i z, J i z → SpaceInv z ∧ z.Root r) : ∀ n (s : Loader) pos i, AtPos s.fds fd node pos →
    pos + PHDR_SIZE * n ≤ content.length →
    (∀ k < n, ∀ z z', J (i + k) z →
      ((phdrAt content (pos + PHDR_SIZE * k)).segmentType = 1 → SegmentLoaded z z' r
        (phdrAt content (pos + PHDR_SIZE * k)).firstPage
        (Spaces.pageCount (phdrAt content (pos + PHDR_SIZE * k)).toElfPhdrEntry)) →
      ((phdrAt content (pos + PHDR_SIZE * k)).segmentType ≠ 1 → z' = z) → J (i + k + 1) z') →
    J i s.spaces → Loader.loadEntries disk special fd r n s = some (true, s') → J (i + n) s'.spaces := by
  intro n
  induction n with
  | zero =>
    intro s pos i _ _ _ hJs h
    obtain ⟨-, rfl⟩ := Prod.mk.inj (Option.some.inj h)
    exact hJs
  | succ n ih =>
    intro s pos i hp hlen hstep hJs h
    rw [Nat.mul_succ] at hlen
    unfold Loader.loadEntries at h
    obtain ⟨d, h1, h2⟩ := Option.bind_eq_some_iff.1 h
    split_ifs at h2 with hst
    · cases (Prod.mk.inj (Option.some.inj h2)).1
    · obtain ⟨hsp, he, hlen', hat⟩ := readEntry_spec hF hp (by omega) h1 (not_not.1 hst)
      obtain ⟨s₁, h3, h4⟩ := Option.bind_eq_some_iff.1 h2
      obtain ⟨hI, hR⟩ := hJ i s.spaces hJs
      rw [he] at h3
      rw [← hsp] at hI hR hJs
      obtain ⟨hl, hn, p, hat₁, hpp⟩ := loadSegment_maps hF hat hlen' hI hR h3
      have hJ₁ : J (i + 0 + 1) s₁.spaces := hstep 0 (by omega) d.state.spaces s₁.spaces hJs hl hn
      have hadd : ∀ k, pos + PHDR_SIZE + PHDR_SIZE * k = pos + PHDR_SIZE * (k + 1) := fun k => by
        rw [Nat.mul_succ]
        omega
      cases n with
      | zero =>
        obtain ⟨-, rfl⟩ := Prod.mk.inj (Option.some.inj h4)
        exact hJ₁
      | succ n =>
        -- there is one more entry, so this place is before the end
        obtain rfl : p = pos + PHDR_SIZE := hpp (by rw [Nat.mul_succ] at hlen; unfold PHDR_SIZE at *; omega)
        have := ih s₁ (pos + PHDR_SIZE) (i + 1) hat₁ (by omega) (fun k hk z z' hz hl hn => ?_) hJ₁ h4
        · rwa [show i + (n + 1 + 1) = i + 1 + (n + 1) by omega]
        · rw [hadd] at hl hn
          have := hstep (k + 1) (by omega) z z' (by rwa [show i + (k + 1) = i + 1 + k by omega]) hl hn
          rwa [show i + 1 + k + 1 = i + (k + 1) + 1 by omega]

/-! ## `load_elf` -/

/-- What `load_elf` does before the second pass: the header `hdr` is read, the entries are checked, and there is a new
address space `r`. The pass begins at `s'`. -/
inductive ElfStart (disk : ℕ → DriverRead) (special : FileDescriptor → ℤ → Option (Delivered FileDescriptor)) (fd : ℤ)
    (s : Loader) : ℕ → ElfHdr64 → Loader → Prop
  | start {d : Delivered Loader} {s₁ s₂ : Loader} {r : ℕ} {z : Spaces} (hfd : 0 ≤ fd)
      (hread : s.read disk special fd 64 = some d) (hst : d.status = 64) (hval : (elfHdr64 d.data).valid = true)
      (hcheck : d.state.checkEntries disk special fd (elfHdr64 d.data).phdrEntryCount = some (true, s₁))
      (hseek : s₁.seek fd 64 = some s₂) (hcreate : s₂.spaces.createAddressSpace = some (r, z)) :
      ElfStart disk special fd s r (elfHdr64 d.data) { s₂ with spaces := z }

/-- A file without a table is turned down. -/
theorem ElfHdr64.count_ne_zero {hdr : ElfHdr64} (h : hdr.valid = true) : hdr.phdrEntryCount ≠ 0 := by
  unfold ElfHdr64.valid at h
  simp only [Bool.and_eq_true, decide_eq_true_eq] at h
  exact h.2

/-- An address space is returned after both passes. -/
theorem loadElf_start {ep : Option ℕ} (h : Loader.loadElf disk special fd s = some (r, ep, s')) (hr : r ≠ NULL) :
    ∃ hdr s₁, ElfStart disk special fd s r hdr s₁ ∧ ep = some hdr.entryAddr ∧
      Loader.loadEntries disk special fd r hdr.phdrEntryCount s₁ = some (true, s') := by
  unfold Loader.loadElf at h
  split_ifs at h with hfd
  · exact absurd (Prod.mk.inj (Option.some.inj h)).1.symm hr
  obtain ⟨d, hread, h1⟩ := Option.bind_eq_some_iff.1 h
  dsimp only at h1
  split_ifs at h1 with hst hval
  · exact absurd (Prod.mk.inj (Option.some.inj h1)).1.symm hr
  · obtain ⟨⟨ok, s₁⟩, hcheck, h2⟩ := Option.bind_eq_some_iff.1 h1
    dsimp only at h2
    split_ifs at h2 with hok
    · unfold Loader.load at h2
      obtain ⟨s₂, hseek, h3⟩ := Option.bind_eq_some_iff.1 h2
      obtain ⟨⟨r', z⟩, hcreate, h4⟩ := Option.bind_eq_some_iff.1 h3
      obtain ⟨⟨ok', s₃⟩, hload, h5⟩ := Option.map_eq_some_iff.1 h4
      dsimp only at hload h5
      split_ifs at h5 with hok'
      · obtain ⟨rfl, h6⟩ := Prod.mk.inj h5
        obtain ⟨rfl, rfl⟩ := Prod.mk.inj h6
        rw [hok] at hcheck
        rw [hok'] at hload
        exact ⟨_, _, .start (not_lt.1 hfd) hread (not_not.1 hst) hval hcheck hseek hcreate, rfl, hload⟩
      · exact absurd (Prod.mk.inj h5).1.symm hr
    · exact absurd (Prod.mk.inj (Option.some.inj h2)).1.symm hr
  · exact absurd (Prod.mk.inj (Option.some.inj h1)).1.symm hr

/-- And it is returned if they succeed. -/
theorem ElfStart.loadElf {hdr : ElfHdr64} {s₁ : Loader} (hs : ElfStart disk special fd s r hdr s₁)
    (h : Loader.loadEntries disk special fd r hdr.phdrEntryCount s₁ = some (true, s')) :
    Loader.loadElf disk special fd s = some (r, some hdr.entryAddr, s') := by
  cases hs with
  | start hfd hread hst hval hcheck hseek hcreate =>
    unfold Loader.loadElf
    rw [if_neg (not_lt.2 hfd), hread, Option.bind_some, if_neg (not_not_intro hst)]
    dsimp only
    rw [if_pos hval, hcheck, Option.bind_some]
    dsimp only
    rw [if_pos rfl]
    unfold Loader.load
    rw [hseek, Option.bind_some, hcreate, Option.bind_some]
    dsimp only
    rw [h]
    rfl

/-- **What has been read** before the second pass. -/
theorem ElfStart.spec {hdr : ElfHdr64} (hF : Holds disk node content) (hp : AtPos s.fds fd node 0)
    (hs : ElfStart disk special fd s r hdr s') : hdr = elfHdr64 (content.take 64) ∧ hdr.valid = true ∧
      (∀ e ∈ elfEntries content, Spaces.accepts e.toElfPhdrEntry = true) ∧
      64 + PHDR_SIZE * hdr.phdrEntryCount ≤ content.length ∧
      s.spaces.createAddressSpace = some (r, s'.spaces) ∧ AtPos s'.fds fd node 64 := by
  cases hs with
  | @start d s₁ s₂ r z hfd hread hst hval hcheck hseek hcreate =>
    obtain ⟨d', hd', hsp, hcase⟩ := read_spec 64 hF hp (Nat.zero_le _) (by decide) (by decide)
    obtain rfl := Option.some.inj (hread.symm.trans hd')
    obtain ⟨hdata, hlen, hat⟩ : d.data = content.take 64 ∧ 64 ≤ content.length ∧ AtPos d.state.fds fd node 64 := by
      rcases hcase with hneg | ⟨n, hn, hdata, hlen, hat⟩
      · exact absurd hst (by omega)
      · obtain rfl : n = 64 := by omega
        exact ⟨hdata, by omega, hat⟩
    rw [hdata] at hval hcheck ⊢
    obtain ⟨c1, c2, c3, c4⟩ := checkEntries_spec hF _ d.state 64 hat hlen hcheck
    have hpos := ElfHdr64.count_ne_zero hval
    obtain ⟨s₂', hseek', e2, -, hat₂⟩ := seek_spec (s := s₁) (q := 64) hF c3 (by unfold PHDR_SIZE at c2; omega)
    obtain rfl := Option.some.inj (hseek.symm.trans hseek')
    rw [e2, c1, hsp] at hcreate
    refine ⟨rfl, hval, fun e he => ?_, c2, hcreate, hat₂⟩
    obtain ⟨i, hi, rfl⟩ := List.mem_map.1 he
    exact c4 i (List.mem_range.1 hi)

/-- **`load_elf` returns an address space** after both passes. -/
theorem loadElf_cases {ep : Option ℕ} (hF : Holds disk node content) (hp : AtPos s.fds fd node 0)
    (h : Loader.loadElf disk special fd s = some (r, ep, s')) (hr : r ≠ NULL) :
    (elfHdr64 (content.take 64)).valid = true ∧ ep = some (elfHdr64 (content.take 64)).entryAddr ∧
      (∀ e ∈ elfEntries content, Spaces.accepts e.toElfPhdrEntry = true) ∧
      64 + PHDR_SIZE * (elfHdr64 (content.take 64)).phdrEntryCount ≤ content.length ∧
      ∃ z s₁, s.spaces.createAddressSpace = some (r, z) ∧ s₁.spaces = z ∧ AtPos s₁.fds fd node 64 ∧
        Loader.loadEntries disk special fd r (elfHdr64 (content.take 64)).phdrEntryCount s₁ = some (true, s') := by
  obtain ⟨hdr, s₁, hs, hep, hload⟩ := loadElf_start h hr
  obtain ⟨rfl, hval, hacc, hlen, hcreate, hat⟩ := hs.spec hF hp
  exact ⟨hval, hep, hacc, hlen, s₁.spaces, s₁, hcreate, rfl, hat, hload⟩

end Nettapus
