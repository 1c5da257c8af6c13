import Nettapus.Proof.ElfMap

/-!
# `load_elf` loads what the file describes

* `ElfOk`: a file that describes its segments, as ELF has it.
* `ElfPlain`: the files that `load_elf` understands. The table is behind the header, and a segment begins with a page and
  fits into the window.
* `write_window`: bytes that are written through the window are in the frames behind it.
* `SegmentIn`: a segment is in the address space, with its content. `loadSegment_loads` puts it there.
* `elf_starts`: without errors, the second pass is reached.
* `elf_loads`: all segments of a plain file are in the address space that `load_elf` returns.
* `elf_misplaces`: a file whose segment does not begin with a page.
-/

namespace Nettapus

open Forest Runs

variable {disk : ℕ → DriverRead} {special : FileDescriptor → ℤ → Option (Delivered FileDescriptor)} {fd : ℤ}
variable {node : FileVnode} {content : List UInt8} {s s' : Loader} {z z₁ z' : Spaces} {r n pp pos : ℕ}

/-! ## The window -/

/-- The window shows the `n` frames from `pp` on. -/
structure WindowShows (z : Spaces) (pp n : ℕ) : Prop where
  cr3 : z.cr3 ≠ NULL
  shows : ∀ k < n, flat z.vmm z.cr3 (windowVp + k) = (pp + k) * 0x1000 + 3
  range : windowVp + n ≤ 2 ^ 36

theorem WindowShows.poke (h : WindowShows z pp n) {x : ℕ} (hx : x < n * 0x1000) (b : UInt8) :
    z.poke (WINDOW + x) b = some { z with
      page := Function.update z.page (pp + x / 0x1000)
        (Function.update (z.page (pp + x / 0x1000)) (x % 0x1000) b) } := by
  have hr := h.range
  have hw : WINDOW % 2 ^ 48 = windowVp * 0x1000 := by decide
  have hw' : WINDOW % 0x1000 = 0 := by decide
  have hvp : (WINDOW + x) % 2 ^ 48 / 0x1000 = windowVp + x / 0x1000 := by omega
  have hoff : (WINDOW + x) % 0x1000 = x % 0x1000 := by omega
  unfold Spaces.poke
  rw [getPageEntry_eq h.cr3, hvp, h.shows _ (by omega)]
  dsimp only
  rw [if_neg (by omega), hoff, show ((pp + x / 0x1000) * 0x1000 + 3) / 0x1000 = pp + x / 0x1000 by omega]

/-- **A write through the window** puts the bytes into the frames, and changes nothing else. -/
theorem write_window : ∀ (l : List UInt8) (z : Spaces) (a : ℕ), WindowShows z pp n → a + l.length ≤ n * 0x1000 →
    ∃ page, z.write (WINDOW + a) l = some { z with page := page } ∧
      (∀ i, i < l.length → page (pp + (a + i) / 0x1000) ((a + i) % 0x1000) = l.getD i 0) ∧
      ∀ q y, (∀ i < l.length, ¬ (q = pp + (a + i) / 0x1000 ∧ y = (a + i) % 0x1000)) → page q y = z.page q y := by
  intro l
  induction l with
  | nil =>
    intro z a _ _
    exact ⟨z.page, rfl, fun i hi => absurd hi (by simp), fun _ _ _ => rfl⟩
  | cons b l ih =>
    intro z a hz hlen
    rw [List.length_cons] at hlen
    set page₁ := Function.update z.page (pp + a / 0x1000) (Function.update (z.page (pp + a / 0x1000)) (a % 0x1000) b)
      with hpage₁
    obtain ⟨page, h1, h2, h3⟩ := ih { z with page := page₁ } (a + 1) ⟨hz.cr3, hz.shows, hz.range⟩ (by omega)
    refine ⟨page, ?_, fun i hi => ?_, fun q y hout => ?_⟩
    · unfold Spaces.write
      rw [hz.poke (by omega) b, Option.bind_some]
      exact h1
    · cases i with
      | zero =>
        -- the bytes that follow are at other places
        rw [h3 _ _ fun j _ hc => by omega]
        simp [hpage₁]
      | succ i =>
        rw [show a + (i + 1) = a + 1 + i by omega]
        exact h2 i (by simpa using hi)
    · rw [h3 q y fun i hi => by
        have := hout (i + 1) (by simpa using hi)
        rwa [show a + (i + 1) = a + 1 + i by omega] at this]
      have h0 := hout 0 (by simp)
      rw [Nat.add_zero] at h0
      dsimp only
      rw [hpage₁]
      by_cases hq : q = pp + a / 0x1000
      · subst hq
        rw [Function.update_self, Function.update_of_ne fun hy => h0 ⟨rfl, hy⟩]
      · rw [Function.update_of_ne hq]

/-! ## Reads without errors -/

/-- No read of the file fails. -/
def NoError (disk : ℕ → DriverRead) (node : FileVnode) (content : List UInt8) : Prop :=
  ∀ k off n, 0 < n → off + n ≤ content.length →
    disk k node.inodeNum off n = some ((n : ℤ), (content.drop off).take n)

theorem read_exact (hF : Holds disk node content) (hE : NoError disk node content) (hp : AtPos s.fds fd node pos)
    (hn : 0 < n) (hle : pos + n ≤ content.length) :
    ∃ d, s.read disk special fd (n : ℤ) = some d ∧ d.status = (n : ℤ) ∧ d.data = (content.drop pos).take n ∧
      d.state.spaces = s.spaces ∧ AtPos d.state.fds fd node (pos + n) := by
  obtain ⟨fdes, ho, hnode, hm, rfl⟩ := hp
  have hsz := hF.size
  have hlt := hF.lt
  have hts : toSize (n : ℤ) = n := by
    rw [toSize_of_nonneg (by omega) (by omega)]
    rfl
  have hread : vfsReadFile (disk s.calls) fdes (n : ℤ) =
      some ⟨(n : ℤ), (content.drop fdes.pos).take n, { fdes with pos := fdes.pos + n }⟩ := by
    unfold vfsReadFile
    rw [hnode]
    dsimp only
    rw [if_neg (by omega), if_neg (not_not_intro hm), hts, u64_of_lt (by omega), if_neg (by omega), if_neg (by omega), hts,
      hE s.calls fdes.pos n hn hle]
    dsimp only [Option.map_some]
    rw [if_pos (by omega), hts, u64_of_lt (by omega)]
  unfold Loader.read
  rw [kread_eq ho hnode, hread]
  exact ⟨_, rfl, rfl, rfl, rfl, atPos_setFd ho hnode hm _⟩

/-- `kseek` returns. -/
theorem seek_total (hp : AtPos s.fds fd node pos) (q : ℤ) : ∃ s', s.seek fd q = some s' := by
  obtain ⟨fdes, ho, -⟩ := hp
  have hfd := ho.nonneg
  unfold Loader.seek kseek
  rw [if_neg (by omega), ho.find]
  split_ifs
  · exact ⟨_, rfl⟩
  · exact ⟨_, rfl⟩

/-- An entry is read. -/
theorem readEntry_exact (hF : Holds disk node content) (hE : NoError disk node content) (hp : AtPos s.fds fd node pos)
    (hle : pos + PHDR_SIZE ≤ content.length) :
    ∃ d, s.read disk special fd PHDR_SIZE = some d ∧ d.status = PHDR_SIZE ∧ elfPhdr d.data = phdrAt content pos ∧
      d.state.spaces = s.spaces ∧ AtPos d.state.fds fd node (pos + PHDR_SIZE) := by
  obtain ⟨d, h1, h2, h3, h4, h5⟩ := read_exact hF hE hp (n := PHDR_SIZE) (by decide) hle
  exact ⟨d, h1, h2, by rw [h3]; rfl, h4, h5⟩

theorem tableAt_succ (content : List UInt8) (off n : ℕ) :
    tableAt content off (n + 1) = phdrAt content off :: tableAt content (off + PHDR_SIZE) n := by
  unfold tableAt
  rw [List.range_succ_eq_map, List.map_cons, List.map_map, Nat.mul_zero, Nat.add_zero]
  congr 1
  refine List.map_congr_left fun i _ => ?_
  show phdrAt content (off + PHDR_SIZE * (i + 1)) = _
  rw [Nat.mul_succ, Nat.add_comm (PHDR_SIZE * i), Nat.add_assoc]

/-- **The first pass lets the table through.** -/
theorem checkEntries_passes (hF : Holds disk node content) (hE : NoError disk node content) :
    ∀ n (s : Loader) pos, AtPos s.fds fd node pos → pos + PHDR_SIZE * n ≤ content.length →
    (∀ e ∈ tableAt content pos n, Spaces.accepts e.toElfPhdrEntry = true) →
    ∃ s', Loader.checkEntries disk special fd n s = some (true, s') ∧ s'.spaces = s.spaces ∧
      AtPos s'.fds fd node (pos + PHDR_SIZE * n) := by
  intro n
  induction n with
  | zero =>
    intro s pos hp _ _
    exact ⟨s, rfl, rfl, hp⟩
  | succ n ih =>
    intro s pos hp hle hacc
    rw [Nat.mul_succ] at hle ⊢
    rw [tableAt_succ] at hacc
    obtain ⟨d, h1, h2, h3, h4, h5⟩ := readEntry_exact hF hE hp (by omega)
    obtain ⟨s', k1, k2, k3⟩ := ih d.state _ h5 (by omega) fun e he => hacc e (List.mem_cons_of_mem _ he)
    refine ⟨s', ?_, k2.trans h4, ?_⟩
    · unfold Loader.checkEntries
      rw [h1, Option.bind_some, if_neg (not_not_intro h2), h3, if_pos (hacc _ List.mem_cons_self)]
      exact k1
    · rwa [show pos + (PHDR_SIZE * n + PHDR_SIZE) = pos + PHDR_SIZE + PHDR_SIZE * n by omega]

/-! ## A segment and its content -/

/-- The byte `k` of a segment: the file's, and zero behind it. -/
def segByte (content : List UInt8) (e : ElfPhdr) (k : ℕ) : UInt8 :=
  if k < e.sizeFile then content.getD (e.dataOff + k) 0 else 0

/-- **The data of a segment is in its frames.** -/
theorem fillSegment_fills {e : ElfPhdr} (hF : Holds disk node content) (hE : NoError disk node content)
    (hp : AtPos s.fds fd node pos) (hpos : pos ≤ content.length) (hw : WindowShows s.spaces pp n)
    (hmem : e.sizeMem ≤ n * 0x1000) (hsize : e.sizeFile ≤ e.sizeMem) (hdata : e.dataOff + e.sizeFile ≤ content.length) :
    ∃ s' page, s.fillSegment disk special fd e = some s' ∧ s'.spaces = { s.spaces with page := page } ∧
      (∀ i < e.sizeMem, page (pp + i / 0x1000) (i % 0x1000) = segByte content e i) ∧
      ∀ q, (q < pp ∨ pp + n ≤ q) → page q = s.spaces.page q := by
  have hlt := hF.lt
  obtain ⟨page₁, h1, in1, out1⟩ := write_window (List.replicate e.sizeMem 0) s.spaces 0 hw (by simpa using hmem)
  rw [Nat.add_zero] at h1
  rw [List.length_replicate] at in1 out1
  obtain ⟨s₁, h2⟩ := seek_total (s := { s with spaces := { s.spaces with page := page₁ } }) hp (toInt64 e.dataOff)
  obtain ⟨sp2, p2, hp2⟩ := seek_moves (s := { s with spaces := { s.spaces with page := page₁ } }) hp h2
  -- what is read: the bytes of the segment, none if it has none in the file
  obtain ⟨d, h3, hd, sp3, p3, hp3⟩ : ∃ d, s₁.read disk special fd (toInt64 e.sizeFile) = some d ∧
      d.data = (content.drop e.dataOff).take e.sizeFile ∧ d.state.spaces = s₁.spaces ∧
      ∃ p, AtPos d.state.fds fd node p := by
    have hint : ∀ a, a < 2 ^ 63 → toInt64 a = (a : ℤ) := fun a ha => if_pos ha
    rw [hint e.sizeFile (by omega)]
    rcases Nat.eq_zero_or_pos e.sizeFile with h0 | h0
    · obtain ⟨fdes, ho, hnode, hm, -⟩ := hp2
      refine ⟨⟨0, [], { s₁ with fds := setFd s₁.fds fd fdes, calls := s₁.calls + 1 }⟩, ?_, by simp [h0], rfl, fdes.pos,
        atPos_setFd ho hnode hm fdes.pos⟩
      unfold Loader.read
      rw [kread_eq ho hnode, h0]
      unfold vfsReadFile
      rw [hnode]
      rfl
    · obtain ⟨s₂, h2', -, -, hp2'⟩ := seek_spec (s := { s with spaces := { s.spaces with page := page₁ } }) hF hp
        (show e.dataOff < content.length by omega)
      rw [hint e.dataOff (by omega)] at h2
      obtain rfl := Option.some.inj (h2.symm.trans h2')
      obtain ⟨d, k1, -, k3, k4, k5⟩ := read_exact hF hE hp2' h0 hdata
      exact ⟨d, k1, k3, k4, _, k5⟩
  have hdlen : d.data.length = e.sizeFile := by
    rw [hd, List.length_take, List.length_drop]
    omega
  have hsp : d.state.spaces = { s.spaces with page := page₁ } := sp3.trans sp2
  obtain ⟨page₂, h4, in2, out2⟩ := write_window d.data { s.spaces with page := page₁ } 0 ⟨hw.cr3, hw.shows, hw.range⟩
    (by rw [hdlen]; omega)
  rw [Nat.add_zero] at h4
  rw [hdlen] at in2 out2
  obtain ⟨s₃, h5⟩ := seek_total (s := { d.state with spaces := { s.spaces with page := page₂ } }) hp3 (pos : ℤ)
  obtain ⟨sp5, -⟩ := seek_moves (s := { d.state with spaces := { s.spaces with page := page₂ } }) hp3 h5
  refine ⟨s₃, page₂, ?_, sp5, fun i hi => ?_, fun q hq => ?_⟩
  · unfold Loader.fillSegment
    rw [h1, Option.bind_some, ktell_spec hp (by omega), Option.bind_some, h2, Option.bind_some, h3, Option.bind_some, hsp, h4]
    exact h5
  · unfold segByte
    split_ifs with hf
    · have := in2 i hf
      rw [Nat.zero_add] at this
      rw [this, hd, List.getD_eq_getElem?_getD, List.getD_eq_getElem?_getD, List.getElem?_take_of_lt hf, List.getElem?_drop]
    · rw [out2 _ _ fun j hj hc => by omega]
      have := in1 i hi
      rw [Nat.zero_add] at this
      dsimp only
      rw [this, List.getD_replicate _ hi]
  · funext y
    rw [out2 q y fun j hj hc => by omega]
    exact out1 q y fun j hj hc => by omega

/-- **A segment is in the address space `r`**, in frames that are used. -/
def SegmentIn (content : List UInt8) (z : Spaces) (r : ℕ) (e : ElfPhdr) : Prop :=
  ∀ i < e.sizeMem, ∃ q, flat z.vmm r (e.firstPage + i / 0x1000) = q * 0x1000 + 7 ∧ isppUsed z.mem q ≠ 0 ∧
    z.page q (i % 0x1000) = segByte content e i

/-- What was used stays used, with its content. -/
def UsedKept (z z' : Spaces) : Prop := ∀ q, isppUsed z.mem q ≠ 0 → isppUsed z'.mem q ≠ 0 ∧ z'.page q = z.page q

theorem lt_pageCount {e : ElfPhdrEntry} {i : ℕ} (hi : i < e.sizeMem) : i / 0x1000 < Spaces.pageCount e := by
  unfold Spaces.pageCount
  split_ifs
  · omega
  · omega

theorem sizeMem_le_pageCount (e : ElfPhdrEntry) : e.sizeMem ≤ Spaces.pageCount e * 0x1000 := by
  unfold Spaces.pageCount
  split_ifs
  · omega
  · omega

theorem SegmentIn.kept {e : ElfPhdr} (h : SegmentIn content z r e) (hu : UsedKept z z')
    (hflat : ∀ k < Spaces.pageCount e.toElfPhdrEntry, flat z'.vmm r (e.firstPage + k) = flat z.vmm r (e.firstPage + k)) :
    SegmentIn content z' r e := by
  intro i hi
  obtain ⟨q, h1, h2, h3⟩ := h i hi
  obtain ⟨h4, h5⟩ := hu q h2
  exact ⟨q, (hflat _ (lt_pageCount hi)).trans h1, h4, by rw [h5]; exact h3⟩

/-- There are `k` free pages in a row, from `b` on, and `c` structures. -/
structure Room (z : Spaces) (b k c : ℕ) : Prop where
  limit : BelowLimit z.mem
  run : FreeRun z.mem b k
  end_lt : b + k < pageLimit
  slots : c ≤ z.vmm.freeSlots.card

/-- The structures that a segment may need. -/
def segmentSlots (e : ElfPhdrEntry) : ℕ := 6 * (Spaces.pageCount e / 512 + 2)

/-- A segment that `load_elf` can put in its place. -/
structure SegmentPlain (content : List UInt8) (e : ElfPhdr) : Prop where
  size : e.sizeFile ≤ e.sizeMem
  data : e.dataOff + e.sizeFile ≤ content.length
  below : Spaces.pageCount e.toElfPhdrEntry = 0 ∨
    e.firstPage + Spaces.pageCount e.toElfPhdrEntry ≤ APPLICATION_END % 2 ^ 48 / 0x1000
  fits : Spaces.pageCount e.toElfPhdrEntry ≤ windowSize

theorem Marked.belowLimit {m m' : MemoryMap} {p k : ℕ} (h : Marked m p k m') (hl : BelowLimit m) : BelowLimit m' := by
  intro q hq
  rw [h.valid] at hq
  exact hl q hq

/-- The pages of such a segment can be mapped, if there are structures for them. -/
theorem SegmentPlain.fits_in {e : ElfPhdr} {c : ℕ} (he : SegmentPlain content e)
    (hc : segmentSlots e.toElfPhdrEntry + c ≤ z.vmm.freeSlots.card) : SegmentFits z e.toElfPhdrEntry := by
  have hend : APPLICATION_END % 2 ^ 48 / 0x1000 ≤ windowVp := by decide
  have hwin : windowVp + windowSize ≤ 2 ^ 36 := by decide
  have hfits := he.fits
  have hbelow := he.below
  have hfirst : e.firstPage < 2 ^ 36 := by
    unfold ElfPhdrEntry.firstPage
    omega
  unfold segmentSlots at hc
  unfold SegmentFits
  omega

/-- What is mapped at the window is shown there, in whatever address space is loaded. -/
theorem SegmentMapped.shows {p n vp : ℕ} (h : SegmentMapped z z' r vp n p) (hr : z.Root r) (hcr : z.Root z.cr3)
    (hlt : p + n ≤ 2 ^ 52) : WindowShows z' p n := by
  have hcr' : z'.Root z'.cr3 := by
    rw [h.cr3_eq, h.keeps.root]
    exact hcr
  have hw : 511 * 512 ^ 3 ≤ windowVp := by decide
  have hrange := h.range
  refine ⟨h.keeps.inv.tables.root _ hcr', fun j hj => ?_, hrange⟩
  have hslot : (windowVp + j) / 512 ^ 3 = 511 := by omega
  rw [h.keeps.inv.flat_kernel hcr' (h.keeps.root ▸ hr) hslot, h.window j hj, Nat.mod_eq_of_lt (by omega)]

/-- **A segment is loaded.** -/
theorem loadSegment_loads {e : ElfPhdr} {b k c : ℕ} (hF : Holds disk node content) (hE : NoError disk node content)
    (hp : AtPos s.fds fd node pos) (hpos : pos ≤ content.length) (h : SpaceInv s.spaces) (hr : s.spaces.Root r)
    (hcr : s.spaces.Root s.spaces.cr3) (ht : e.segmentType = 1) (he : SegmentPlain content e)
    (hroom : Room s.spaces b (Spaces.pageCount e.toElfPhdrEntry + k) (segmentSlots e.toElfPhdrEntry + c)) :
    ∃ s', s.loadSegment disk special fd r e = some s' ∧ SegmentIn content s'.spaces r e ∧
      UsedKept s.spaces s'.spaces ∧ Room s'.spaces (b + Spaces.pageCount e.toElfPhdrEntry) k c := by
  have hSF := he.fits_in hroom.slots
  set n := Spaces.pageCount e.toElfPhdrEntry with hn
  have hlim := hroom.end_lt
  -- the frames
  have hrun : FreeRun s.spaces.mem b n := fun q h1 h2 => hroom.run q h1 (by omega)
  obtain ⟨p, hpb, hpe, hfree, hmark⟩ := allocpps_first hroom.limit hrun (by omega) (by omega)
  -- the pages
  obtain ⟨s₁, h1⟩ := (mapSegment_yields h hr).2 hSF
  obtain ⟨e1, pg1, m1⟩ := (mapSegment_yields h hr).1 s₁ h1
  rw [← hn, hpe] at m1
  have hlim52 : pageLimit < 2 ^ 52 := by decide
  have hshows : WindowShows s₁.spaces p n := m1.shows hr hcr (by omega)
  -- the content
  have hp₁ : AtPos s₁.fds fd node pos := by
    rw [e1]
    exact hp
  obtain ⟨s₂, page, h2, sp2, in2, out2⟩ := fillSegment_fills hF hE hp₁ hpos hshows
    (by rw [hn]; exact sizeMem_le_pageCount _) he.size he.data
  -- the window is closed
  have m2 : SegmentMapped s.spaces s₂.spaces r e.firstPage n p := by
    rw [sp2]
    exact m1.with_page page
  obtain ⟨st, v, h3, -⟩ := unmapMemory_erases m2.keeps.inv.tables (m2.keeps.root ▸ hr) m2.range
    fun j hj => by
      rw [show WINDOW % 2 ^ 48 / 0x1000 = windowVp from rfl, m2.window j hj]
      omega
  have h4 : s₂.spaces.unmapMemory WINDOW n r = some { s₂.spaces with vmm := v } :=
    Option.map_eq_some_iff.2 ⟨_, h3, rfl⟩
  obtain ⟨-, -, hin, hcard⟩ := unwindow_spec m2 hr h4
  have hmem₂ : s₂.spaces.mem = (Nettapus.allocpps s.spaces.mem n).2 := m2.mem_eq
  refine ⟨{ s₂ with spaces := { s₂.spaces with vmm := v } }, ?_, fun i hi => ?_, fun q hq => ?_, ?_⟩
  · unfold Loader.loadSegment
    rw [if_pos ht, h1, Option.bind_some, h2, Option.bind_some, ← hn, h4]
    rfl
  · have hi' : i / 0x1000 < n := lt_pageCount hi
    have hend : APPLICATION_END % 2 ^ 48 / 0x1000 ≤ windowVp := by decide
    have hbelow := he.below
    rw [← hn] at hbelow
    refine ⟨p + i / 0x1000, ?_, ?_, ?_⟩
    · show flat v r (e.firstPage + i / 0x1000) = _
      have e2 : flat v r (e.firstPage + i / 0x1000) = flat s₂.spaces.vmm r (e.firstPage + i / 0x1000) :=
        hin _ hi' (Or.inl (by omega))
      rw [e2, m2.inside _ hi' (Or.inl (by omega)), Nat.mod_eq_of_lt (by omega)]
    · show isppUsed s₂.spaces.mem _ ≠ 0
      rw [hmem₂]
      exact hmark.used (Or.inr ⟨by omega, by omega⟩)
    · show s₂.spaces.page _ _ = _
      rw [sp2]
      exact in2 i hi
  · -- the frames of the segment were free
    have hout : q < p ∨ p + n ≤ q := by
      by_contra hc
      exact hq (hfree q (by omega) (by omega))
    constructor
    · show isppUsed s₂.spaces.mem q ≠ 0
      rw [hmem₂]
      exact hmark.used (Or.inl hq)
    · show s₂.spaces.page q = _
      rw [sp2]
      exact (out2 q hout).trans (by rw [pg1])
  · refine ⟨?_, ?_, by omega, ?_⟩
    · show BelowLimit s₂.spaces.mem
      rw [hmem₂]
      exact hmark.belowLimit hroom.limit
    · show FreeRun s₂.spaces.mem (b + n) k
      rw [hmem₂]
      exact hmark.freeRun hpb hroom.run
    · show c ≤ v.freeSlots.card
      have hv : v.freeSlots = s₂.spaces.vmm.freeSlots := hcard
      have hslots := hroom.slots
      have := m2.slots
      rw [hv]
      unfold segmentSlots at hslots
      omega

/-! ## The second pass -/

/-- The pages that the LOAD segments of a table need, and the structures. -/
def pagesNeeded (l : List ElfPhdr) : ℕ :=
  (l.map fun e => if e.segmentType = 1 then Spaces.pageCount e.toElfPhdrEntry else 0).sum

def slotsNeeded (l : List ElfPhdr) : ℕ :=
  (l.map fun e => if e.segmentType = 1 then segmentSlots e.toElfPhdrEntry else 0).sum

/-- Two LOAD segments have no page in common. -/
def Apart (e e' : ElfPhdr) : Prop := e.segmentType = 1 → e'.segmentType = 1 →
  ∀ k < Spaces.pageCount e.toElfPhdrEntry, ∀ k' < Spaces.pageCount e'.toElfPhdrEntry, e.firstPage + k ≠ e'.firstPage + k'

/-- The state of the second pass, when the segments `done` are in their places and `l` is left. -/
structure Loading (content : List UInt8) (z : Spaces) (r b : ℕ) (done l : List ElfPhdr) : Prop where
  inv : SpaceInv z
  root : z.Root r
  cr3 : z.Root z.cr3
  room : Room z b (pagesNeeded l) (slotsNeeded l)
  loaded : ∀ e ∈ done, e.segmentType = 1 → SegmentIn content z r e
  plain : ∀ e ∈ done, e.segmentType = 1 → SegmentPlain content e

/-- **An entry is passed.** -/
theorem Loading.step {b : ℕ} {done l : List ElfPhdr} {e : ElfPhdr} (hF : Holds disk node content)
    (hE : NoError disk node content) (hp : AtPos s.fds fd node pos) (hpos : pos ≤ content.length)
    (h : Loading content s.spaces r b done (e :: l)) (he : e.segmentType = 1 → SegmentPlain content e)
    (hapart : ∀ e' ∈ done, Apart e' e) :
    ∃ s' b', s.loadSegment disk special fd r e = some s' ∧ Loading content s'.spaces r b' (done ++ [e]) l := by
  have hplain' : ∀ e' ∈ done ++ [e], e'.segmentType = 1 → SegmentPlain content e' := by
    intro e' he' ht'
    rcases List.mem_append.1 he' with he' | he'
    · exact h.plain e' he' ht'
    · rw [List.mem_singleton.1 he'] at ht' ⊢
      exact he ht'
  by_cases ht : e.segmentType = 1
  · have hroom := h.room
    unfold pagesNeeded slotsNeeded at hroom
    rw [List.map_cons, List.sum_cons, if_pos ht, List.map_cons, List.sum_cons, if_pos ht] at hroom
    obtain ⟨s', h1, h2, h3, h4⟩ := loadSegment_loads hF hE hp hpos h.inv h.root h.cr3 ht (he ht) hroom
    obtain ⟨hL, -, -⟩ := loadSegment_maps hF hp hpos h.inv h.root h1
    have hL := hL ht
    refine ⟨s', _, h1, hL.keeps.inv, hL.keeps.root ▸ h.root, ?_, h4, fun e' he' ht' => ?_, hplain'⟩
    · rw [hL.cr3_eq, hL.keeps.root]
      exact h.cr3
    · rcases List.mem_append.1 he' with he' | he'
      · -- the pages of the segments before are not touched
        refine (h.loaded e' he' ht').kept h3 fun k hk => ?_
        have hend : APPLICATION_END % 2 ^ 48 / 0x1000 ≤ windowVp := by decide
        have hbelow := (h.plain e' he' ht').below
        refine hL.other r _ h.root (Or.inl (by omega)) (Or.inl ?_)
        by_contra hc
        exact hapart e' he' ht' ht k hk (e'.firstPage + k - e.firstPage) (by omega) (by omega)
      · rw [List.mem_singleton.1 he']
        exact h2
  · refine ⟨s, b, ?_, h.inv, h.root, h.cr3, ?_, fun e' he' ht' => ?_, hplain'⟩
    · unfold Loader.loadSegment
      rw [if_neg ht]
    · have hroom := h.room
      unfold pagesNeeded slotsNeeded at hroom
      rw [List.map_cons, List.sum_cons, if_neg ht, List.map_cons, List.sum_cons, if_neg ht, Nat.zero_add, Nat.zero_add] at hroom
      exact hroom
    · rcases List.mem_append.1 he' with he' | he'
      · exact h.loaded e' he' ht'
      · rw [List.mem_singleton.1 he'] at ht'
        exact absurd ht' ht

/-- **The second pass** puts all segments of a table in their places. -/
theorem loadEntries_loads (hF : Holds disk node content) (hE : NoError disk node content) :
    ∀ n (s : Loader) pos b done, AtPos s.fds fd node pos → pos + PHDR_SIZE * n ≤ content.length →
    Loading content s.spaces r b done (tableAt content pos n) →
    (∀ e ∈ tableAt content pos n, e.segmentType = 1 → SegmentPlain content e) →
    (done ++ tableAt content pos n).Pairwise Apart →
    ∃ s', Loader.loadEntries disk special fd r n s = some (true, s') ∧ s'.spaces.Root r ∧ SpaceInv s'.spaces ∧
      ∀ e ∈ done ++ tableAt content pos n, e.segmentType = 1 → SegmentIn content s'.spaces r e := by
  intro n
  induction n with
  | zero =>
    intro s pos b done _ _ hL _ _
    refine ⟨s, rfl, hL.root, hL.inv, fun e he ht => hL.loaded e ?_ ht⟩
    simpa [tableAt] using he
  | succ n ih =>
    intro s pos b done hp hle hL hplain hpair
    rw [Nat.mul_succ] at hle
    rw [tableAt_succ] at hL hplain hpair ⊢
    obtain ⟨d, h1, h2, h3, h4, h5⟩ := readEntry_exact hF hE hp (by omega)
    rw [← h4] at hL
    have hapart : ∀ e' ∈ done, Apart e' (phdrAt content pos) := fun e' he' =>
      (List.pairwise_append.1 hpair).2.2 e' he' _ List.mem_cons_self
    obtain ⟨s₁, b₁, h6, hL₁⟩ := hL.step hF hE h5 (by omega) (hplain _ List.mem_cons_self) hapart
    obtain ⟨-, -, p, hp₁, hpp⟩ := loadSegment_maps hF h5 (by omega) hL.inv hL.root h6
    have happ : done ++ phdrAt content pos :: tableAt content (pos + PHDR_SIZE) n =
        done ++ [phdrAt content pos] ++ tableAt content (pos + PHDR_SIZE) n := by simp
    have hload : Loader.loadEntries disk special fd r (n + 1) s = Loader.loadEntries disk special fd r n s₁ := by
      rw [Loader.loadEntries, h1, Option.bind_some, if_neg (not_not_intro h2), h3, h6, Option.bind_some]
    rw [hload, happ]
    cases n with
    | zero =>
      refine ⟨s₁, rfl, hL₁.root, hL₁.inv, fun e he ht => hL₁.loaded e ?_ ht⟩
      simpa [tableAt] using he
    | succ n =>
      -- there is one more entry, so this place is before the end
      obtain rfl : p = pos + PHDR_SIZE := hpp (by rw [Nat.mul_succ] at hle; unfold PHDR_SIZE at *; omega)
      exact ih s₁ _ b₁ _ hp₁ (by omega) hL₁ (fun e he => hplain e (List.mem_cons_of_mem _ he)) (happ ▸ hpair)

/-! ## Files -/

/-- The program header table of a file. -/
def elfTable (content : List UInt8) : List ElfPhdr :=
  tableAt content (elfHdr64 (content.take 64)).programHdr (elfHdr64 (content.take 64)).phdrEntryCount

/-- **A file that describes its segments**: its header is one of a 64-bit little-endian ELF with a table, which is in
the file; and its LOAD segments are in the file, below the stacks, and apart. -/
structure ElfOk (content : List UInt8) : Prop where
  length : 64 ≤ content.length
  header : (elfHdr64 (content.take 64)).valid = true
  table : (elfHdr64 (content.take 64)).programHdr + PHDR_SIZE * (elfHdr64 (content.take 64)).phdrEntryCount ≤ content.length
  segments : ∀ e ∈ elfTable content, e.segmentType = 1 →
    e.sizeFile ≤ e.sizeMem ∧ e.dataOff + e.sizeFile ≤ content.length ∧ e.vaddr + e.sizeMem ≤ APPLICATION_END
  disjoint : (elfTable content).Pairwise fun e e' => e.segmentType = 1 → e'.segmentType = 1 →
    ∀ k < e.sizeMem, ∀ k' < e'.sizeMem, e.vaddr + k ≠ e'.vaddr + k'

/-- **A file that `load_elf` understands.** The table is behind the header, no entry is turned down, and a LOAD segment
that is not empty begins with a page, has addresses that the processor takes, and fits into the window. -/
structure ElfPlain (content : List UInt8) : Prop where
  table : (elfHdr64 (content.take 64)).programHdr = 64
  accepted : ∀ e ∈ elfTable content, Spaces.accepts e.toElfPhdrEntry = true
  segments : ∀ e ∈ elfTable content, e.segmentType = 1 → e.sizeMem ≠ 0 →
    e.vaddr % 0x1000 = 0 ∧ (e.vaddr + e.sizeMem ≤ 2 ^ 47 ∨ 2 ^ 64 - 2 ^ 47 ≤ e.vaddr) ∧
      Spaces.pageCount e.toElfPhdrEntry ≤ windowSize

/-- **The file is loaded**: an address space is returned in which all LOAD segments are, with their bytes, and
`entry_point` is set. -/
def LoadsFile (disk : ℕ → DriverRead) (special : FileDescriptor → ℤ → Option (Delivered FileDescriptor)) (fd : ℤ)
    (s : Loader) (content : List UInt8) : Prop :=
  ∃ r s', Loader.loadElf disk special fd s = some (r, some (elfHdr64 (content.take 64)).entryAddr, s') ∧ r ≠ NULL ∧
    ∀ e ∈ elfTable content, e.segmentType = 1 →
      (∀ k < e.sizeFile, s'.spaces.peek r (e.vaddr + k) = content[e.dataOff + k]?) ∧
      ∀ k < e.sizeMem, e.sizeFile ≤ k → s'.spaces.peek r (e.vaddr + k) = some 0

theorem pageCount_zero {e : ElfPhdrEntry} (h : e.sizeMem = 0) : Spaces.pageCount e = 0 := by
  unfold Spaces.pageCount
  rw [h]
  rfl

/-- The segments of such a file can be put in their places. -/
theorem ElfPlain.segmentPlain (hp : ElfPlain content) (ho : ElfOk content) {e : ElfPhdr} (he : e ∈ elfTable content)
    (ht : e.segmentType = 1) : SegmentPlain content e := by
  obtain ⟨h1, h2, h3⟩ := ho.segments e he ht
  by_cases h0 : e.sizeMem = 0
  · have hn := pageCount_zero h0
    exact ⟨h1, h2, Or.inl hn, by rw [hn]; exact Nat.zero_le _⟩
  · obtain ⟨h4, h5, h6⟩ := hp.segments e he ht h0
    refine ⟨h1, h2, Or.inr ?_, h6⟩
    have hend : APPLICATION_END % 2 ^ 48 / 0x1000 = 0xFF7000000 := by decide
    rw [hend]
    unfold APPLICATION_END at h3
    unfold ElfPhdrEntry.firstPage Spaces.pageCount
    split_ifs
    · omega
    · omega

/-- Segments that are apart have no page in common, if they begin with pages. -/
theorem ElfPlain.apart (hp : ElfPlain content) (ho : ElfOk content) : (elfTable content).Pairwise Apart := by
  refine ho.disjoint.imp_of_mem fun {e e'} he he' hd ht ht' k hk k' hk' heq => ?_
  have hne : ∀ {a : ElfPhdr} {j : ℕ}, j < Spaces.pageCount a.toElfPhdrEntry → a.sizeMem ≠ 0 := fun hj h0 => by
    rw [pageCount_zero h0] at hj
    omega
  obtain ⟨h1, h2, -⟩ := hp.segments e he ht (hne hk)
  obtain ⟨h1', h2', -⟩ := hp.segments e' he' ht' (hne hk')
  obtain ⟨-, -, h3⟩ := ho.segments e he ht
  obtain ⟨-, -, h3'⟩ := ho.segments e' he' ht'
  have hlt : ∀ {a : ElfPhdr} {j : ℕ}, j < Spaces.pageCount a.toElfPhdrEntry → j * 0x1000 < a.sizeMem := by
    intro a j hj
    unfold Spaces.pageCount at hj
    split_ifs at hj
    · omega
    · omega
  have hk₁ := hlt hk
  have hk₁' := hlt hk'
  unfold ElfPhdrEntry.firstPage at heq
  unfold APPLICATION_END at h3 h3'
  exact hd ht ht' _ hk₁ _ hk₁' (by omega)

/-- A byte of a segment, as a task reads it. -/
theorem SegmentIn.peek {e : ElfPhdr} (h : SegmentIn content z r e) (hr : r ≠ NULL) (ha : e.vaddr % 0x1000 = 0)
    (hc : e.vaddr + e.sizeMem ≤ 2 ^ 47 ∨ 2 ^ 64 - 2 ^ 47 ≤ e.vaddr) (hend : e.vaddr + e.sizeMem ≤ APPLICATION_END) {k : ℕ}
    (hk : k < e.sizeMem) : z.peek r (e.vaddr + k) = some (segByte content e k) := by
  unfold APPLICATION_END at hend
  have hcan : Spaces.canonical (e.vaddr + k) = true := by
    unfold Spaces.canonical
    simp only [Bool.or_eq_true, Bool.and_eq_true, decide_eq_true_eq]
    omega
  have hvp : (e.vaddr + k) % 2 ^ 48 / 0x1000 = e.firstPage + k / 0x1000 := by
    unfold ElfPhdrEntry.firstPage
    omega
  obtain ⟨q, h1, -, h3⟩ := h k hk
  unfold Spaces.peek
  rw [getPageEntry_eq hr, hvp, h1, hcan, show (e.vaddr + k) % 0x1000 = k % 0x1000 by omega]
  dsimp only
  rw [Bool.true_and, if_pos (by simp), show (q * 0x1000 + 7) / 0x1000 = q by omega, h3]

/-- The room that is left behind `create_address_space`. -/
theorem SpaceCreated.room {b k c : ℕ} (h : SpaceCreated z r z₁) (hroom : Room z b (2 + k) (13 + c)) : Room z₁ (b + 2) k c := by
  have hlt := hroom.end_lt
  obtain ⟨p, hp, -, hm⟩ := allocpp_first (hroom.run b le_rfl (by omega)) (by omega)
  have hrun : FreeRun (Nettapus.allocpp z.mem).2 (b + 1) (1 + k) := hm.freeRun hp fun q h1 h2 => hroom.run q h1 (by omega)
  obtain ⟨p', hp', -, hm'⟩ := allocpp_first (hrun (b + 1) le_rfl (by omega)) (by omega)
  refine ⟨?_, ?_, by omega, ?_⟩
  · rw [h.mem_eq]
    exact hm'.belowLimit (hm.belowLimit hroom.limit)
  · rw [h.mem_eq]
    exact hm'.freeRun hp' hrun
  · have h1 := h.slots
    have h2 := hroom.slots
    omega

/-- **The second pass is reached**, if no read fails and there are structures for an address space. -/
theorem elf_starts (h : SpaceInv s.spaces) (hF : Holds disk node content) (hE : NoError disk node content)
    (hp : AtPos s.fds fd node 0) (hval : (elfHdr64 (content.take 64)).valid = true)
    (htab : 64 + PHDR_SIZE * (elfHdr64 (content.take 64)).phdrEntryCount ≤ content.length)
    (hacc : ∀ e ∈ elfEntries content, Spaces.accepts e.toElfPhdrEntry = true) (hslots : 13 ≤ s.spaces.vmm.freeSlots.card) :
    ∃ r s', ElfStart disk special fd s r (elfHdr64 (content.take 64)) s' ∧ SpaceCreated s.spaces r s'.spaces ∧
      AtPos s'.fds fd node 64 := by
  have hfd : 0 ≤ fd := by
    obtain ⟨fdes, hop, -⟩ := hp
    exact hop.nonneg
  have hpos := ElfHdr64.count_ne_zero hval
  obtain ⟨d, h1, h2, h3, h4, h5⟩ := read_exact (n := 64) hF hE hp (by decide) (by omega)
  rw [List.drop_zero] at h3
  obtain ⟨s₁, h6, h7, h8⟩ := checkEntries_passes hF hE
    (elfHdr64 (content.take 64)).phdrEntryCount d.state 64 h5 htab hacc
  obtain ⟨s₂, h9, h10, -, h11⟩ := seek_spec (q := 64) hF h8 (by unfold PHDR_SIZE at htab; omega)
  have hsp : s₂.spaces = s.spaces := h10.trans (h7.trans h4)
  obtain ⟨⟨r, z₁⟩, hc⟩ := (createAddressSpace_yields h).2 hslots
  rw [← h3] at h6 hval ⊢
  exact ⟨r, { s₂ with spaces := z₁ }, .start hfd h1 h2 hval h6 h9 (by rw [hsp]; exact hc),
    (createAddressSpace_yields h).1 _ hc, h11⟩

/-- **`load_elf` loads what the file describes**, if it understands the file: there is memory for it, and no read
fails. -/
theorem elf_loads {b : ℕ} (h : SpaceInv s.spaces) (hcr : s.spaces.Root s.spaces.cr3) (hF : Holds disk node content)
    (hE : NoError disk node content) (hp : AtPos s.fds fd node 0) (ho : ElfOk content)
    (hroom : Room s.spaces b (2 + pagesNeeded (elfTable content)) (13 + slotsNeeded (elfTable content)))
    (hplain : ElfPlain content) : LoadsFile disk special fd s content := by
  have htab := ho.table
  have htable : elfTable content = tableAt content 64 (elfHdr64 (content.take 64)).phdrEntryCount := by
    unfold elfTable
    rw [hplain.table]
  rw [hplain.table] at htab
  have hslots := hroom.slots
  have hacc : ∀ e ∈ elfEntries content, Spaces.accepts e.toElfPhdrEntry = true := fun e he =>
    hplain.accepted e (by rw [htable]; exact he)
  obtain ⟨r, s₁, hs, hC, hat⟩ := elf_starts h hF hE hp ho.header htab hacc (by omega)
  have hroot : s₁.spaces.Root r := Or.inr hC.space.mem
  have hL : Loading content s₁.spaces r (b + 2) [] (elfTable content) := by
    refine ⟨hC.space.inv, hroot, ?_, hC.room hroom, fun e he => absurd he (by simp), fun e he => absurd he (by simp)⟩
    rw [hC.cr3_eq]
    exact hC.space.root hcr
  have hsegs : ∀ e ∈ elfTable content, e.segmentType = 1 → SegmentPlain content e := fun e he ht =>
    hplain.segmentPlain ho he ht
  have hpair := hplain.apart ho
  rw [htable] at hL hsegs hpair
  obtain ⟨s', hload, -, -, hall⟩ := loadEntries_loads hF hE
    (elfHdr64 (content.take 64)).phdrEntryCount s₁ 64 (b + 2) [] hat htab hL hsegs hpair
  have hrn : r ≠ NULL := hC.space.inv.tables.root r hroot
  refine ⟨r, s', hs.loadElf hload, hrn, fun e he ht => ?_⟩
  have hin := hall e (by rw [List.nil_append, ← htable]; exact he) ht
  obtain ⟨k1, k2, k3⟩ := ho.segments e he ht
  have hbyte : ∀ k < e.sizeMem, s'.spaces.peek r (e.vaddr + k) = some (segByte content e k) := fun k hk => by
    obtain ⟨k4, k5, -⟩ := hplain.segments e he ht (by omega)
    exact hin.peek hrn k4 k5 k3 hk
  refine ⟨fun k hk => ?_, fun k hk hk' => ?_⟩
  · rw [hbyte k (by omega)]
    unfold segByte
    rw [if_pos hk, List.getD_eq_getElem?_getD, List.getElem?_eq_getElem (by omega)]
    rfl
  · rw [hbyte k hk]
    unfold segByte
    rw [if_neg (by omega)]

/-! ## Two files -/

theorem elfTable_oneByteElf (vaddr : ℕ) (hcount : (elfHdr64 ((oneByteElf vaddr).take 64)).phdrEntryCount = 1)
    (hplace : (elfHdr64 ((oneByteElf vaddr).take 64)).programHdr = 64) :
    elfTable (oneByteElf vaddr) = [phdrAt (oneByteElf vaddr) 64] := by
  unfold elfTable
  rw [hcount, hplace]
  rfl

theorem noError_sample {content : List UInt8} (h : content.length < 2 ^ 63) :
    NoError (sampleDisk content) (sampleNode content) content := by
  intro k off n _ hle
  unfold sampleDisk
  rw [if_pos ⟨hle, by omega⟩]

theorem cr3_heapSpaces : heapSpaces.Root heapSpaces.cr3 := by
  unfold Spaces.Root
  left
  decide +kernel

theorem isppValid_bootedSpaces {p : ℕ} : isppValid bootedSpaces.mem p = true ↔ 0x400 ≤ p ∧ p < 0x800 := by
  have hblock : u64 (0x400 + 0x400) = 0x800 := by decide
  rw [isppValid_iff]
  constructor
  · rintro ⟨i, -, h1, h2⟩
    change 0x400 ≤ p at h1
    change p < u64 (0x400 + 0x400) at h2
    omega
  · rintro ⟨h1, h2⟩
    refine ⟨0, by decide, h1, ?_⟩
    show p < u64 (0x400 + 0x400)
    omega

/-- There is room for a hundred pages. -/
theorem room_heapSpaces {k c : ℕ} (hk : k ≤ 100) (hc : c ≤ 0x1000) : Room heapSpaces 0x400 k c := by
  have hz := heapSpaces_eq
  generalize heapSpaces = z at hz ⊢
  obtain ⟨⟨st, v⟩, hv, rfl⟩ := Option.map_eq_some_iff.1 hz
  have hslots := mapMemory_slots (r := bootedSpaces.kpml4) spaceInit_bootedSpaces.inv.tables (Or.inl rfl) hv
  rw [card_freeSlots_bootedSpaces] at hslots
  have hlim : pageLimit = 0x600000 := by decide
  refine ⟨fun p hp => ?_, fun q h1 h2 => ?_, by omega, ?_⟩
  · have := isppValid_bootedSpaces.1 hp
    omega
  · rw [isppUsed_eq_zero_iff]
    refine ⟨isppValid_bootedSpaces.2 ⟨h1, by omega⟩, ?_⟩
    unfold pageBit bootedSpaces
    simp [Bitmap.test]
  · show c ≤ v.freeSlots.card
    omega

/-- A file whose segment is at `0x400000`. -/
theorem elf_loads_low : LoadsFile (sampleDisk (oneByteElf 0x400000)) (fun _ _ => none) 0 (sampleLoader (oneByteElf 0x400000))
    (oneByteElf 0x400000) := by
  have htab := elfTable_oneByteElf 0x400000 (by decide +kernel) (by decide +kernel)
  refine elf_loads (b := 0x400) heapSpaces_inv cr3_heapSpaces (holds_sample (by decide)) (noError_sample (by decide))
    (atPos_sample _) ⟨by decide +kernel, by decide +kernel, by decide +kernel, fun e he _ => ?_, ?_⟩ ?_
    ⟨by decide +kernel, fun e he => ?_, fun e he _ _ => ?_⟩
  · rw [htab] at he
    obtain rfl := List.mem_singleton.1 he
    decide +kernel
  · rw [htab]
    exact List.pairwise_singleton _ _
  · rw [htab]
    exact room_heapSpaces (by decide +kernel) (by decide +kernel)
  · rw [htab] at he
    obtain rfl := List.mem_singleton.1 he
    decide +kernel
  · rw [htab] at he
    obtain rfl := List.mem_singleton.1 he
    decide +kernel

/-- **A segment that does not begin with a page is misplaced**: its byte should be at `0x400010`, and is at
`0x400000`. -/
theorem elf_misplaces : ElfOk (oneByteElf 0x400010) ∧ SpaceInv heapSpaces ∧ heapSpaces.Root heapSpaces.cr3 ∧
    Holds (sampleDisk (oneByteElf 0x400010)) (sampleNode (oneByteElf 0x400010)) (oneByteElf 0x400010) ∧
    NoError (sampleDisk (oneByteElf 0x400010)) (sampleNode (oneByteElf 0x400010)) (oneByteElf 0x400010) ∧
    AtPos (sampleLoader (oneByteElf 0x400010)).fds 0 (sampleNode (oneByteElf 0x400010)) 0 ∧
    Room heapSpaces 0x400 (2 + pagesNeeded (elfTable (oneByteElf 0x400010)))
      (13 + slotsNeeded (elfTable (oneByteElf 0x400010))) ∧
    ¬ LoadsFile (sampleDisk (oneByteElf 0x400010)) (fun _ _ => none) 0 (sampleLoader (oneByteElf 0x400010))
      (oneByteElf 0x400010) := by
  have htab := elfTable_oneByteElf 0x400010 (by decide +kernel) (by decide +kernel)
  refine ⟨⟨by decide +kernel, by decide +kernel, by decide +kernel, fun e he _ => ?_, ?_⟩, heapSpaces_inv, cr3_heapSpaces,
    holds_sample (by decide), noError_sample (by decide), atPos_sample _, ?_, ?_⟩
  · rw [htab] at he
    obtain rfl := List.mem_singleton.1 he
    decide +kernel
  · rw [htab]
    exact List.pairwise_singleton _ _
  · rw [htab]
    exact room_heapSpaces (by decide +kernel) (by decide +kernel)
  · rintro ⟨r, s', hl, -, hseg⟩
    have hrun : (Loader.loadElf (sampleDisk (oneByteElf 0x400010)) (fun _ _ => none) 0
        (sampleLoader (oneByteElf 0x400010))).map
        (fun p => (p.2.2.spaces.peek p.1 0x400000, p.2.2.spaces.peek p.1 0x400010)) = some (some 0x7f, some 0) := by
      decide +kernel
    rw [hl, Option.map_some] at hrun
    obtain ⟨-, hpeek⟩ := Prod.mk.inj (Option.some.inj hrun)
    have hbyte := (hseg (phdrAt (oneByteElf 0x400010) 64) (by rw [htab]; exact List.mem_singleton_self _)
      (by decide +kernel)).1 0 (by decide +kernel)
    rw [show (phdrAt (oneByteElf 0x400010) 64).vaddr + 0 = 0x400010 by decide +kernel] at hbyte
    rw [show (oneByteElf 0x400010)[(phdrAt (oneByteElf 0x400010) 64).dataOff + 0]? = some 0x7f by decide +kernel] at hbyte
    have : some (0 : UInt8) = some 0x7f := hpeek.symm.trans hbyte
    exact absurd this (by decide)

end Nettapus
