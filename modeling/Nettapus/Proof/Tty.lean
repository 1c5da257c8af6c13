import Nettapus.Code.Tty
import Nettapus.Lib.Runs
import Mathlib.Data.List.Infix
import Mathlib.Data.List.Induction

/-!
# The terminal

A cell is a rectangle of pixels, and `inCell_iff` is that `putchar` stays in it only for fonts with a width of 9: the first
pixel of a row is put at `8 - x`, so a font with a width of 8 is a pixel too far to the right, and one with a width of 10
goes behind the beginning.

`Tty.Placed` is the invariant of the cursor. It may stand at the column `cols`, where `putchar` draws behind the line, and at
`cols + 1`, where `putc` goes to the next line and does not draw the character at all.

`tty_iff` is when a string is shown as it should be.
-/

namespace Nettapus

open Runs

variable {d : Display} {t : Tty} {c : UInt8} {chars : List UInt8} {fg bg : UInt32} {cx cy x y : ℕ}

/-! ## Cells -/

namespace Display

def cols (d : Display) : ℕ := d.vga.width / d.fontHdr.width

def rows (d : Display) : ℕ := d.vga.height / d.fontHdr.height

/-- The word is that of a pixel of the cell. -/
def InCell (d : Display) (cx cy i : ℕ) : Prop :=
  ∃ px py, cx * d.fontHdr.width ≤ px ∧ px < (cx + 1) * d.fontHdr.width ∧
    cy * d.fontHdr.height ≤ py ∧ py < (cy + 1) * d.fontHdr.height ∧ i = d.vga.pixel px py

/-- What there is of a screen with a cell. -/
structure Sized (d : Display) (p : ℕ) : Prop where
  pitch : d.vga.pitch = 4 * p
  width_pos : 0 < d.fontHdr.width
  height_pos : 0 < d.fontHdr.height
  width_le : d.cols * d.fontHdr.width ≤ d.vga.width
  height_le : d.rows * d.fontHdr.height ≤ d.vga.height
  bounds : d.vga.width ≤ p ∧ 0 < d.vga.width ∧ 0 < d.vga.height ∧ d.vga.height * p ≤ 0x1400000

theorem sized (hcols : 1 ≤ d.cols) (hrows : 1 ≤ d.rows) : ∃ p, d.Sized p := by
  obtain ⟨p, hp⟩ := d.vga.pitch_dvd
  have hwidth := d.vga.width_le
  have hmapped := d.vga.mapped
  have hw : 0 < d.fontHdr.width := Nat.pos_of_ne_zero fun h => by simp [cols, h] at hcols
  have hh : 0 < d.fontHdr.height := Nat.pos_of_ne_zero fun h => by simp [rows, h] at hrows
  have hcw : d.cols * d.fontHdr.width ≤ d.vga.width := Nat.div_mul_le_self _ _
  have hrh : d.rows * d.fontHdr.height ≤ d.vga.height := Nat.div_mul_le_self _ _
  refine ⟨p, hp, hw, hh, hcw, hrh, by omega, ?_, ?_, ?_⟩
  · exact Nat.lt_of_lt_of_le (Nat.mul_pos hcols hw) hcw
  · exact Nat.lt_of_lt_of_le (Nat.mul_pos hrows hh) hrh
  · rw [hp, Nat.mul_left_comm] at hmapped
    omega

/-- The getters give the variables. -/
theorem Sized.getters {p : ℕ} (h : d.Sized p) : d.vga.getFbHeight = d.vga.height ∧ d.vga.getFbWidth = d.vga.width ∧
    d.vga.getFbBpp = 32 ∧ d.vga.getFbPitch = 4 * p := by
  obtain ⟨hwidth, h0, hheight, hmul⟩ := h.bounds
  have hp : p ≤ d.vga.height * p := Nat.le_mul_of_pos_left _ hheight
  have hh : d.vga.height ≤ d.vga.height * p := Nat.le_mul_of_pos_right _ (by omega)
  refine ⟨Nat.mod_eq_of_lt (by omega), Nat.mod_eq_of_lt (by omega), ?_, ?_⟩
  · rw [Vga.getFbBpp, d.vga.bpp_eq]
    exact Nat.mod_eq_of_lt (by decide)
  · rw [Vga.getFbPitch, h.pitch]
    exact Nat.mod_eq_of_lt (by omega)

/-- How far to the right the bit `x` is put. -/
def shift (x : ℕ) : ℕ := u32 (sub32 8 x * 32) / 32

theorem shift_le (hx : x ≤ 8) : shift x = 8 - x := by
  simp only [shift, sub32, u32]
  omega

theorem shift_nine : shift 9 = 2 ^ 27 - 1 := by decide

theorem shift_lt (x : ℕ) : shift x < 2 ^ 27 := by
  simp only [shift, u32]
  omega

/-- Where `putchar` writes: in the line of the cell, and as far from its beginning as `shift` says. -/
theorem Sized.dest_eq {p : ℕ} (h : d.Sized p) (hcx : cx ≤ d.cols) (hcy : cy < d.rows) (hy : y < d.fontHdr.height) :
    d.dest cx cy x y = cx * d.fontHdr.width + shift x + (cy * d.fontHdr.height + y) * p := by
  obtain ⟨hwidth, h0, hheight, hmul⟩ := h.bounds
  obtain ⟨-, -, hbpp, hpitch⟩ := h.getters
  have hleft : cx * d.fontHdr.width ≤ d.vga.width := Nat.le_trans (Nat.mul_le_mul_right _ hcx) h.width_le
  have hbelow : (cy + 1) * d.fontHdr.height ≤ d.vga.height := Nat.le_trans (Nat.mul_le_mul_right _ hcy) h.height_le
  rw [Nat.succ_mul] at hbelow
  have hp : p ≤ d.vga.height * p := Nat.le_mul_of_pos_left _ hheight
  have htop : cy * d.fontHdr.height * p ≤ 0x1400000 := Nat.le_trans (Nat.mul_le_mul_right p (by omega)) hmul
  have hline : y * p ≤ 0x1400000 := Nat.le_trans (Nat.mul_le_mul_right p (by omega)) hmul
  have hshift := shift_lt x
  have hx : u32 (cx * d.fontHdr.width * 32) / 32 = cx * d.fontHdr.width := by
    rw [u32, Nat.mod_eq_of_lt (by omega)]
    omega
  have hrow : ∀ n, n ≤ 0x1400000 → u32 (4 * n) / 4 = n := by
    intro n hn
    rw [u32, Nat.mod_eq_of_lt (by omega)]
    omega
  rw [dest, hbpp, hpitch, hx, Nat.mul_left_comm _ 4 p, Nat.mul_left_comm y 4 p, hrow _ htop, hrow _ hline, ← shift, u32,
    Nat.mod_eq_of_lt (by omega), Nat.add_mul]
  omega

theorem Sized.pixel_eq {p : ℕ} (h : d.Sized p) (x y : ℕ) : d.vga.pixel x y = x + y * p := by
  rw [Vga.pixel, d.vga.bpp_eq, h.pitch, Nat.mul_left_comm y 4 p]
  omega

theorem mem_pixels {c : UInt16} {p : ℕ × UInt32} (h : p ∈ d.pixels c cx cy fg bg) :
    ∃ x y, x < d.fontHdr.width ∧ y < d.fontHdr.height ∧ p.1 = d.dest cx cy x y := by
  simp only [pixels, List.mem_flatMap, List.mem_map, List.mem_range] at h
  obtain ⟨y, hy, x, hx, rfl⟩ := h
  exact ⟨x, y, hx, hy, rfl⟩

theorem pixels_mem (c : UInt16) (cx cy : ℕ) (fg bg : UInt32) (hx : x < d.fontHdr.width) (hy : y < d.fontHdr.height) :
    ∃ p ∈ d.pixels c cx cy fg bg, p.1 = d.dest cx cy x y := by
  refine ⟨(d.dest cx cy x y, if d.glyphBit c x y then fg else bg), ?_, rfl⟩
  simp only [pixels, List.mem_flatMap, List.mem_map, List.mem_range]
  exact ⟨y, hy, x, hx, rfl⟩

/-- **Cells**: `putchar` writes pixels of its cell only, if the font has a width of 9, and never otherwise. -/
theorem inCell_iff (hcols : 1 ≤ d.cols) (hrows : 1 ≤ d.rows) (c : UInt16) (hcx : cx ≤ d.cols) (hcy : cy < d.rows)
    (fg bg : UInt32) :
    (∀ p ∈ d.pixels c cx cy fg bg, d.InCell cx cy p.1) ↔ d.fontHdr.width = 9 := by
  obtain ⟨p, h⟩ := sized hcols hrows
  constructor
  · intro hin
    -- the last line of the cell, where nothing that is too far to the right is in the next one
    have hlast : ∀ x, x < d.fontHdr.width → shift x < d.fontHdr.width := by
      intro x hx
      have hy : d.fontHdr.height - 1 < d.fontHdr.height := Nat.sub_lt h.height_pos Nat.one_pos
      obtain ⟨q, hq, hdest⟩ := pixels_mem c cx cy fg bg hx hy
      obtain ⟨px, py, -, hpx, -, hpy, heq⟩ := hin q hq
      rw [Nat.succ_mul] at hpx hpy
      rw [hdest, h.dest_eq hcx hcy hy, h.pixel_eq] at heq
      have hline : py * p ≤ (cy * d.fontHdr.height + (d.fontHdr.height - 1)) * p := Nat.mul_le_mul_right p (by omega)
      omega
    have hnine : 9 ≤ d.fontHdr.width := by
      have := hlast 0 h.width_pos
      rwa [shift_le (Nat.zero_le 8)] at this
    by_contra hne
    have hten := hlast 9 (by omega)
    have hle : d.fontHdr.width ≤ d.vga.width := Nat.le_trans (Nat.le_mul_of_pos_left _ hcols) h.width_le
    have hbounds := h.bounds
    have hp : p ≤ d.vga.height * p := Nat.le_mul_of_pos_left _ hbounds.2.2.1
    rw [shift_nine] at hten
    omega
  · intro hw q hq
    obtain ⟨x, y, hx, hy, hdest⟩ := mem_pixels hq
    refine ⟨cx * d.fontHdr.width + (8 - x), cy * d.fontHdr.height + y, by omega, ?_, by omega, ?_, ?_⟩
    · rw [Nat.succ_mul]
      omega
    · rw [Nat.succ_mul]
      omega
    · rw [hdest, h.dest_eq hcx hcy hy, h.pixel_eq, shift_le (by omega)]

/-! ## The cursor -/

/-- The cursor is in a row of the screen, and at most one column behind the one behind the line. -/
structure Placed (d : Display) (t : Tty) : Prop where
  row : t.cursory < d.rows
  col : t.cursorx ≤ d.cols + 1

theorem placed_init (hrows : 1 ≤ d.rows) (fb : ℕ → UInt32) : d.Placed (.init fb) := ⟨hrows, Nat.zero_le _⟩

theorem rows_eq (hcols : 1 ≤ d.cols) (hrows : 1 ≤ d.rows) : d.vga.getFbHeight / d.fontHdr.height = d.rows ∧
    u32 (d.vga.getFbWidth / d.fontHdr.width + 1) = d.cols + 1 ∧ d.rows < 2 ^ 31 ∧ d.cols < 2 ^ 31 := by
  obtain ⟨p, h⟩ := sized hcols hrows
  obtain ⟨hheight, hwidth, -, -⟩ := h.getters
  have hbounds := h.bounds
  have hp : p ≤ d.vga.height * p := Nat.le_mul_of_pos_left _ hbounds.2.2.1
  have hh : d.vga.height ≤ d.vga.height * p := Nat.le_mul_of_pos_right _ (by omega)
  have hrle : d.rows ≤ d.vga.height := Nat.div_le_self _ _
  have hcle : d.cols ≤ d.vga.width := Nat.div_le_self _ _
  rw [hheight, hwidth]
  exact ⟨rfl, Nat.mod_eq_of_lt (show d.cols + 1 < 2 ^ 32 by omega), by omega, by omega⟩

theorem sub32_succ {n : ℕ} (h : n < 2 ^ 31) : sub32 (n + 1) 1 = n := by
  simp only [sub32]
  omega

theorem nextLine_eq {n y y' x : ℕ} {fb : ℕ → UInt32} {draws : List Draw}
    (hrows : d.vga.getFbHeight / d.fontHdr.height = n) (hy : u32 (y + 1) = y') (hback : sub32 y' 1 = y) :
    d.nextLine bg ⟨fb, x, y, draws⟩ = if y' ≥ n then ⟨d.scrollFb bg fb, 0, y, draws⟩ else ⟨fb, 0, y', draws⟩ := by
  simp only [nextLine, scroll, hrows, hy, hback]

/-- The next line begins at the left, and is one of the screen. -/
theorem nextLine_spec (hcols : 1 ≤ d.cols) (hrows : 1 ≤ d.rows) (h : d.Placed t) : (d.nextLine bg t).cursorx = 0 ∧
    (d.nextLine bg t).cursory < d.rows ∧ (d.nextLine bg t).draws = t.draws := by
  obtain ⟨hrows', -, hr, -⟩ := rows_eq hcols hrows
  rcases t with ⟨fb, x, y, draws⟩
  have hrow : y < d.rows := h.row
  have hnext : u32 (y + 1) = y + 1 := Nat.mod_eq_of_lt (by omega)
  rw [nextLine_eq hrows' hnext (sub32_succ (by omega))]
  split_ifs with hend
  · simp [hrow]
  · simpa using hend

theorem putc_newline (d : Display) (t : Tty) (fg bg : UInt32) : d.putc newline fg bg t = d.nextLine bg t := by
  simp [putc]

/-- Backspace draws a space over the character before the cursor. -/
theorem putc_backspace (d : Display) (t : Tty) (fg bg : UInt32) : (d.putc backspace fg bg t).cursorx = t.cursorx - 1 ∧
    (d.putc backspace fg bg t).cursory = t.cursory ∧
    (d.putc backspace fg bg t).draws = t.draws ++ [⟨charToU16 space, t.cursorx - 1, t.cursory⟩] := by
  by_cases h0 : t.cursorx = 0
  · simp [putc, backspace, newline, putchar, h0]
  · simp [putc, backspace, newline, putchar, h0]

/-- Behind the end of the line a character is not drawn. -/
theorem putc_behind (hcols : 1 ≤ d.cols) (hrows : 1 ≤ d.rows) (hn : c ≠ newline) (hb : c ≠ backspace)
    (hx : d.cols + 1 ≤ t.cursorx) : d.putc c fg bg t = d.nextLine bg t := by
  rw [putc, if_neg hn, if_neg hb, if_pos (by rw [(rows_eq hcols hrows).2.1]; exact hx)]

theorem putc_char (hcols : 1 ≤ d.cols) (hrows : 1 ≤ d.rows) (hn : c ≠ newline) (hb : c ≠ backspace)
    (hx : t.cursorx ≤ d.cols) (fg bg : UInt32) : (d.putc c fg bg t).cursorx = t.cursorx + 1 ∧
    (d.putc c fg bg t).cursory = t.cursory ∧
    (d.putc c fg bg t).draws = t.draws ++ [⟨charToU16 c, t.cursorx, t.cursory⟩] := by
  obtain ⟨-, hc, -, hlt⟩ := rows_eq hcols hrows
  rw [putc, if_neg hn, if_neg hb, if_neg (by rw [hc]; omega)]
  refine ⟨?_, by simp [putchar], by simp [putchar]⟩
  simp only [putchar]
  exact Nat.mod_eq_of_lt (by omega)

/-- **A step** keeps the cursor at its place. -/
theorem putc_placed (hcols : 1 ≤ d.cols) (hrows : 1 ≤ d.rows) (h : d.Placed t) (c : UInt8) (fg bg : UInt32) :
    d.Placed (d.putc c fg bg t) := by
  have hline : d.Placed (d.nextLine bg t) := by
    obtain ⟨hx, hy, -⟩ := nextLine_spec hcols hrows h
    exact ⟨hy, by omega⟩
  have hcol := h.col
  by_cases hn : c = newline
  · rw [hn, putc_newline]
    exact hline
  by_cases hb : c = backspace
  · obtain ⟨hx, hy, -⟩ := putc_backspace d t fg bg
    rw [hb]
    exact ⟨hy ▸ h.row, by omega⟩
  by_cases hx : d.cols + 1 ≤ t.cursorx
  · rw [putc_behind hcols hrows hn hb hx]
    exact hline
  · obtain ⟨hx', hy, -⟩ := putc_char hcols hrows hn hb (Nat.lt_succ_iff.1 (Nat.lt_of_not_le hx)) fg bg
    exact ⟨hy ▸ h.row, by omega⟩

theorem putcs_append (chars : List UInt8) (c : UInt8) : d.putcs (chars ++ [c]) fg bg t = d.putc c fg bg (d.putcs chars fg bg t) := by
  simp [putcs]

theorem putcs_placed (hcols : 1 ≤ d.cols) (hrows : 1 ≤ d.rows) (h : d.Placed t) (chars : List UInt8) (fg bg : UInt32) :
    d.Placed (d.putcs chars fg bg t) := by
  induction chars using List.reverseRecOn with
  | nil => exact h
  | append_singleton chars c ih =>
    rw [putcs_append]
    exact putc_placed hcols hrows ih c fg bg

/-- The states that calls lead to. -/
def Reachable (d : Display) (fb : ℕ → UInt32) : Tty → Prop := Reach (· = .init fb) d.step Any

/-- **The cursor** is at its place in every state. -/
theorem reachable_placed (hcols : 1 ≤ d.cols) (hrows : 1 ≤ d.rows) {fb : ℕ → UInt32} (h : d.Reachable fb t) : d.Placed t := by
  refine Reach.inv h ?_ fun s call s' hs _ hstep => ?_
  · rintro s rfl
    exact placed_init hrows fb
  · cases call with
    | kputc c locked fg bg =>
      obtain rfl := Option.some.inj hstep
      unfold kputc
      split_ifs
      · exact hs
      · exact putc_placed hcols hrows hs c fg bg
    | kputData data fg bg =>
      obtain rfl := Option.some.inj hstep
      cases data with
      | none => exact hs
      | some data => exact putcs_placed hcols hrows hs data fg bg
    | kputsColor str fg bg =>
      obtain rfl := Option.some.inj hstep
      cases str with
      | none => exact hs
      | some str => exact putcs_placed hcols hrows hs (cString str) fg bg

/-! ## Strings -/

/-- **What a terminal is for**: every character is drawn, once and in order, in a cell of the screen, `putchar` stays in the
cells that it draws, and the cursor stays on the screen. -/
structure Shows (d : Display) (t : Tty) (chars : List UInt8) (fg bg : UInt32) : Prop where
  drawn : Every (fun pre c => c ≠ newline → c ≠ backspace → ∃ col row, col < d.cols ∧ row < d.rows ∧
    (d.putcs (pre ++ [c]) fg bg t).draws = (d.putcs pre fg bg t).draws ++ [⟨charToU16 c, col, row⟩]) chars
  inside : Every (fun pre c => ∀ draw,
    (d.putcs (pre ++ [c]) fg bg t).draws = (d.putcs pre fg bg t).draws ++ [draw] →
    ∀ p ∈ d.pixels draw.c draw.cx draw.cy fg bg, d.InCell draw.cx draw.cy p.1) chars
  row : ∀ pre, pre <+: chars → (d.putcs pre fg bg t).cursory < d.rows

/-- The column behind some characters, from a column on, if no line is too long. -/
def column (x : ℕ) (chars : List UInt8) : ℕ :=
  chars.foldl (fun x c => if c = newline then 0 else if c = backspace then x - 1 else x + 1) x

theorem column_append (x : ℕ) (chars : List UInt8) (c : UInt8) : column x (chars ++ [c]) =
    if c = newline then 0 else if c = backspace then column x chars - 1 else column x chars + 1 := by
  simp [column]

/-- There is a column for the character. -/
def Fits (d : Display) (x : ℕ) (pre : List UInt8) (c : UInt8) : Prop :=
  c ≠ newline → c ≠ backspace → column x pre < d.cols

/-- As long as there is a column for every character, the cursor is where they say. -/
theorem cursorx_eq (hcols : 1 ≤ d.cols) (hrows : 1 ≤ d.rows) (h : d.Placed t) (hfits : Every (d.Fits t.cursorx) chars)
    (fg bg : UInt32) :
    (d.putcs chars fg bg t).cursorx = column t.cursorx chars := by
  induction chars using List.reverseRecOn with
  | nil => rfl
  | append_singleton chars c ih =>
    obtain ⟨hbefore, hc⟩ := every_append.1 hfits
    have hx := ih hbefore
    rw [putcs_append, column_append]
    by_cases hn : c = newline
    · rw [hn, putc_newline, if_pos rfl]
      exact (nextLine_spec hcols hrows (putcs_placed hcols hrows h chars fg bg)).1
    by_cases hb : c = backspace
    · rw [if_neg hn, hb, (putc_backspace d _ fg bg).1, if_pos rfl, hx]
    · have hlt := hc hn hb
      rw [if_neg hn, if_neg hb, (putc_char hcols hrows hn hb (by omega) fg bg).1, hx]

/-- With a column for it, a character is drawn there; without one, it is drawn behind the line or not at all. -/
theorem drawn_iff (hcols : 1 ≤ d.cols) (hrows : 1 ≤ d.rows) (h : d.Placed t) (hn : c ≠ newline) (hb : c ≠ backspace)
    (fg bg : UInt32) : (∃ col row, col < d.cols ∧ row < d.rows ∧
      (d.putc c fg bg t).draws = t.draws ++ [⟨charToU16 c, col, row⟩]) ↔ t.cursorx < d.cols := by
  by_cases hx : d.cols + 1 ≤ t.cursorx
  · rw [putc_behind hcols hrows hn hb hx, (nextLine_spec hcols hrows h).2.2]
    simp only [List.self_eq_append_right, List.cons_ne_self, and_false, exists_false, false_iff]
    omega
  · obtain ⟨-, -, hdraws⟩ := putc_char hcols hrows hn hb (Nat.lt_succ_iff.1 (Nat.lt_of_not_le hx)) fg bg
    constructor
    · rintro ⟨col, row, hcol, -, heq⟩
      rw [hdraws] at heq
      simp only [List.append_cancel_left_eq, List.cons.injEq, Draw.mk.injEq, and_true] at heq
      omega
    · intro hlt
      exact ⟨_, _, hlt, h.row, hdraws⟩

/-- One call of `putchar` stays in its cell only with that font. -/
theorem inside_draw (hcols : 1 ≤ d.cols) (hrows : 1 ≤ d.rows) {s : Tty} {draw : Draw} (hs : s.draws = t.draws ++ [draw])
    (hcx : draw.cx ≤ d.cols) (hcy : draw.cy < d.rows) : (∀ draw, s.draws = t.draws ++ [draw] →
      ∀ p ∈ d.pixels draw.c draw.cx draw.cy fg bg, d.InCell draw.cx draw.cy p.1) ↔ d.fontHdr.width = 9 := by
  rw [← inCell_iff hcols hrows draw.c hcx hcy fg bg, hs]
  simp

/-- What one call of `putc` draws is in its cell, or nothing is drawn. -/
theorem inside_iff (hcols : 1 ≤ d.cols) (hrows : 1 ≤ d.rows) (h : d.Placed t)
    (hx : c ≠ newline → c ≠ backspace → t.cursorx < d.cols) (fg bg : UInt32) :
    (∀ draw, (d.putc c fg bg t).draws = t.draws ++ [draw] →
      ∀ p ∈ d.pixels draw.c draw.cx draw.cy fg bg, d.InCell draw.cx draw.cy p.1) ↔ c = newline ∨ d.fontHdr.width = 9 := by
  have hcol := h.col
  by_cases hn : c = newline
  · simp [hn, putc_newline, (nextLine_spec hcols hrows h).2.2]
  rw [or_iff_right hn]
  by_cases hb : c = backspace
  · rw [hb]
    apply inside_draw hcols hrows (putc_backspace d t fg bg).2.2 _ h.row
    simpa using hcol
  · have hlt := hx hn hb
    exact inside_draw hcols hrows (putc_char hcols hrows hn hb (Nat.le_of_lt hlt) fg bg).2.2 (Nat.le_of_lt hlt) h.row

theorem drawn_every (hcols : 1 ≤ d.cols) (hrows : 1 ≤ d.rows) (h : d.Placed t) (chars : List UInt8) (fg bg : UInt32) :
    Every (d.Fits t.cursorx) chars ↔ Every (fun pre c => c ≠ newline → c ≠ backspace → ∃ col row,
      col < d.cols ∧ row < d.rows ∧
      (d.putcs (pre ++ [c]) fg bg t).draws = (d.putcs pre fg bg t).draws ++ [⟨charToU16 c, col, row⟩]) chars := by
  apply every_congr
  intro pre c hpre
  apply forall_congr'
  intro hn
  apply forall_congr'
  intro hb
  rw [putcs_append, drawn_iff hcols hrows (putcs_placed hcols hrows h pre fg bg) hn hb fg bg, cursorx_eq hcols hrows h hpre fg bg]

theorem inside_every (hcols : 1 ≤ d.cols) (hrows : 1 ≤ d.rows) (h : d.Placed t) {chars : List UInt8} (fg bg : UInt32)
    (hfits : Every (d.Fits t.cursorx) chars) : Every (fun pre c => ∀ draw,
      (d.putcs (pre ++ [c]) fg bg t).draws = (d.putcs pre fg bg t).draws ++ [draw] →
      ∀ p ∈ d.pixels draw.c draw.cx draw.cy fg bg, d.InCell draw.cx draw.cy p.1) chars ↔
    ∀ c ∈ chars, c = newline ∨ d.fontHdr.width = 9 := by
  have hpre : ∀ pre c post, chars = pre ++ c :: post → Every (d.Fits t.cursorx) pre := fun pre c post heq =>
    hfits.of_prefix ⟨c :: post, heq.symm⟩
  rw [← every_const]
  refine forall₄_congr fun pre c post heq => ?_
  have hcursor := cursorx_eq hcols hrows h (hpre pre c post heq) fg bg
  dsimp only
  rw [putcs_append]
  exact inside_iff hcols hrows (putcs_placed hcols hrows h pre fg bg) (hcursor ▸ hfits pre c post heq) fg bg

/-- **Strings**: what `kputs_color` shows as it should, from any state that can be reached. -/
theorem tty_iff (hcols : 1 ≤ d.cols) (hrows : 1 ≤ d.rows) {fb : ℕ → UInt32} (h : d.Reachable fb t) (str : List UInt8)
    (fg bg : UInt32) : d.Shows t (cString str) fg bg ↔
      (∀ pre c post, cString str = pre ++ c :: post → c ≠ newline → c ≠ backspace → column t.cursorx pre < d.cols) ∧
      ((∀ c ∈ cString str, c = newline) ∨ d.fontHdr.width = 9) := by
  have hplaced := reachable_placed hcols hrows h
  have hdrawn := drawn_every hcols hrows hplaced (cString str) fg bg
  have hfont : (∀ c ∈ cString str, c = newline ∨ d.fontHdr.width = 9) ↔
      (∀ c ∈ cString str, c = newline) ∨ d.fontHdr.width = 9 := by
    by_cases hw : d.fontHdr.width = 9 <;> simp [hw]
  change _ ↔ Every (d.Fits t.cursorx) (cString str) ∧ _
  rw [← hfont]
  constructor
  · rintro ⟨hchars, hinside, -⟩
    have hfits := hdrawn.2 hchars
    exact ⟨hfits, (inside_every hcols hrows hplaced fg bg hfits).1 hinside⟩
  · rintro ⟨hfits, hnine⟩
    exact ⟨hdrawn.1 hfits, (inside_every hcols hrows hplaced fg bg hfits).2 hnine,
      fun pre _ => (putcs_placed hcols hrows hplaced pre fg bg).row⟩

/-- A screen with two columns, and a font with a width of 9. -/
def narrow : Display :=
  ⟨⟨18, 8, 32, 72, rfl, by decide, by decide, by decide⟩, ⟨8, 8, 9⟩, fun _ => 0⟩

/-- Two lines with a letter each. -/
theorem tty_iff_narrow : narrow.Shows (.init fun _ => 0) (cString [0x41, newline, 0x41, 0]) 0x909090 0 := by
  have hcolumn : ∀ pre ∈ (cString [0x41, newline, 0x41, 0]).inits, column 0 pre < narrow.cols := by decide
  refine (tty_iff (by decide) (by decide) (.init rfl) [0x41, newline, 0x41, 0] 0x909090 0).2
    ⟨fun pre c post heq _ _ => ?_, .inr rfl⟩
  exact hcolumn pre ((List.mem_inits _ _).2 ⟨_, heq.symm⟩)

/-- The mode that the kernel asks for, and a font with a width of 8. -/
def eightWide : Display :=
  ⟨⟨1024, 768, 32, 4096, rfl, by decide, by decide, by decide⟩, ⟨8, 8, 8⟩, fun _ => 0⟩

/-- The first pixel of a letter is beside its cell, and the last letter of a line that is too long is not drawn. -/
theorem tty_lost : ¬ eightWide.Shows (.init fun _ => 0) (cString [0x41, 0]) 0x909090 0 ∧
    ¬ narrow.Shows (.init fun _ => 0) (cString [0x41, 0x41, 0x41, 0x41, 0]) 0x909090 0 := by
  constructor
  · intro h
    have hdraw : (eightWide.putcs [0x41] 0x909090 0 (.init fun _ => 0)).draws = [⟨0x41, 0, 0⟩] := by decide +kernel
    obtain ⟨p, hp, hdest⟩ := pixels_mem (d := eightWide) 0x41 0 0 0x909090 0 (x := 0) (y := 0) (by decide) (by decide)
    obtain ⟨px, py, -, hpx, -, hpy, heq⟩ := h.inside [] 0x41 [] (by decide) ⟨0x41, 0, 0⟩ hdraw p hp
    have hfirst : p.1 = 8 := hdest.trans (by decide)
    simp only [eightWide, Vga.pixel, hfirst] at hpx hpy heq
    omega
  · intro h
    obtain ⟨col, row, -, -, heq⟩ := h.drawn [0x41, 0x41, 0x41] 0x41 [] (by decide) (by decide) (by decide)
    have hlost : (narrow.putcs ([0x41, 0x41, 0x41] ++ [0x41]) 0x909090 0 (.init fun _ => 0)).draws =
        (narrow.putcs [0x41, 0x41, 0x41] 0x909090 0 (.init fun _ => 0)).draws := by decide +kernel
    rw [hlost] at heq
    simp at heq

end Display

end Nettapus
