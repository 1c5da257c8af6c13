import Nettapus.Code.Path
import Mathlib.Logic.Function.Basic

/-!
# The terminal (`tty/tty.c`, `vga/vga.c`)

The frame buffer is an array of 32-bit words. `Vga` is a mode that the boot loader gives: one with the 32 bits for a pixel that
the kernel asks for, which fits between the address it is mapped at and the end of the address space. The font is the one that
`tty_init` loaded; it is called once. Every call of `putchar` is put down in `draws`.

Colours are those of the caller. `tty_lock` is only looked at by `kputc`, which does nothing as long as another task has it.
-/

namespace Nettapus

/-- Reduction to 32 bits. -/
def u32 (n : ℕ) : ℕ := n % 2 ^ 32

/-- 32-bit subtraction. -/
def sub32 (a b : ℕ) : ℕ := (a + 2 ^ 32 - b % 2 ^ 32) % 2 ^ 32

/-- `FB_width` and the other variables of `vga.c`. -/
structure Vga where
  width : ℕ
  height : ℕ
  bpp : ℕ
  pitch : ℕ
  bpp_eq : bpp = 32
  pitch_dvd : 4 ∣ pitch
  width_le : width * 4 ≤ pitch
  /-- The buffer is mapped at `0xFFFFFFFFFB000000`. -/
  mapped : height * pitch ≤ 0x5000000

namespace Vga

variable (v : Vga)

def getFbHeight : ℕ := u32 v.height
def getFbWidth : ℕ := u32 v.width
def getFbBpp : ℕ := u32 v.bpp
def getFbPitch : ℕ := u32 v.pitch

/-- The word that `vga_put_pixel` writes. -/
def pixel (x y : ℕ) : ℕ := x * v.bpp / 32 + y * v.pitch / 4

end Vga

/-- `struct PS_font`, as far as it is used for drawing. -/
structure PsFont where
  glyphSize : ℕ
  height : ℕ
  width : ℕ
  deriving DecidableEq, Repr

/-- The mode, the header of the font, and the memory from the font on. -/
structure Display where
  vga : Vga
  fontHdr : PsFont
  font : ℕ → UInt8

/-- A call of `putchar`. -/
structure Draw where
  c : UInt16
  cx : ℕ
  cy : ℕ
  deriving DecidableEq, Repr

structure Tty where
  fb : ℕ → UInt32
  cursorx : ℕ
  cursory : ℕ
  draws : List Draw

/-- The variables as they start. -/
def Tty.init (fb : ℕ → UInt32) : Tty := ⟨fb, 0, 0, []⟩

/-- A `char` is signed. -/
def charToU16 (c : UInt8) : UInt16 := c.toInt8.toInt16.toUInt16

def newline : UInt8 := 0x0A
def backspace : UInt8 := 0x08
def space : UInt8 := 0x20

namespace Display

variable (d : Display)

/-- The word that `putchar` writes for the bit `x` of the row `y` of a glyph. -/
def dest (cx cy x y : ℕ) : ℕ :=
  u32 (cx * d.fontHdr.width * d.vga.getFbBpp) / 32 + u32 (cy * d.fontHdr.height * d.vga.getFbPitch) / 4 +
    u32 (u32 (sub32 8 x * d.vga.getFbBpp) / 32 + u32 (y * d.vga.getFbPitch) / 4)

/-- `glyph[y] & (1 << x)`, with the sign of the row. -/
def glyphBit (c : UInt16) (x y : ℕ) : Bool :=
  let row := d.font (u32 (d.fontHdr.glyphSize * c.toNat) + y)
  row.toInt8.toInt32.toUInt32 &&& ((1 : UInt32) <<< UInt32.ofNat x) ≠ 0

/-- What `putchar` writes, in order. -/
def pixels (c : UInt16) (cx cy : ℕ) (fg bg : UInt32) : List (ℕ × UInt32) :=
  (List.range d.fontHdr.height).flatMap fun y => (List.range d.fontHdr.width).map fun x =>
    (d.dest cx cy x y, if d.glyphBit c x y then fg else bg)

def putchar (c : UInt16) (cx cy : ℕ) (fg bg : UInt32) (t : Tty) : Tty :=
  { t with
    fb := (d.pixels c cx cy fg bg).foldl (fun fb p => Function.update fb p.1 p.2) t.fb
    draws := t.draws ++ [⟨c, cx, cy⟩] }

/-- The two loops of `scroll`. -/
def scrollFb (bg : UInt32) (fb : ℕ → UInt32) : ℕ → UInt32 :=
  let size := u32 (d.vga.getFbHeight * d.vga.getFbPitch) / 4
  let row := u32 (d.vga.getFbPitch * d.fontHdr.height) / 4
  let moved := (List.range (sub32 size row)).foldl (fun fb i => Function.update fb i (fb (u32 (i + row)))) fb
  (List.range' (sub32 size row) (size - sub32 size row)).foldl (fun fb i => Function.update fb i bg) moved

def scroll (bg : UInt32) (t : Tty) : Tty := { t with fb := d.scrollFb bg t.fb }

/-- The cursor goes to the beginning of the next line. -/
def nextLine (bg : UInt32) (t : Tty) : Tty :=
  let t := { t with cursorx := 0, cursory := u32 (t.cursory + 1) }
  if t.cursory ≥ d.vga.getFbHeight / d.fontHdr.height then
    { d.scroll bg t with cursory := sub32 t.cursory 1 }
  else t

def putc (c : UInt8) (fg bg : UInt32) (t : Tty) : Tty :=
  if c = newline then d.nextLine bg t
  else if c = backspace then
    let t := if t.cursorx ≠ 0 then { t with cursorx := t.cursorx - 1 } else t
    d.putchar (charToU16 space) t.cursorx t.cursory fg bg t
  -- at the end of the line there is no `putchar`
  else if t.cursorx ≥ u32 (d.vga.getFbWidth / d.fontHdr.width + 1) then d.nextLine bg t
  else d.putchar (charToU16 c) t.cursorx t.cursory fg bg { t with cursorx := u32 (t.cursorx + 1) }

/-- The loop over some characters. -/
def putcs (chars : List UInt8) (fg bg : UInt32) (t : Tty) : Tty := chars.foldl (fun t c => d.putc c fg bg t) t

def kputc (c : UInt8) (locked : Bool) (fg bg : UInt32) (t : Tty) : Tty := if locked then t else d.putc c fg bg t

/-- A pointer that is `NULL` is no list. -/
def kputData (data : Option (List UInt8)) (fg bg : UInt32) (t : Tty) : Tty :=
  data.elim t fun data => d.putcs data fg bg t

def kputsColor (str : Option (List UInt8)) (fg bg : UInt32) (t : Tty) : Tty :=
  str.elim t fun str => d.putcs (cString str) fg bg t

end Display

inductive TtyCall
  | kputc (c : UInt8) (locked : Bool) (fg bg : UInt32)
  | kputData (data : Option (List UInt8)) (fg bg : UInt32)
  | kputsColor (str : Option (List UInt8)) (fg bg : UInt32)
  deriving DecidableEq

def Display.step (d : Display) (t : Tty) : TtyCall → Option Tty
  | .kputc c locked fg bg => some (d.kputc c locked fg bg t)
  | .kputData data fg bg => some (d.kputData data fg bg t)
  | .kputsColor str fg bg => some (d.kputsColor str fg bg t)

end Nettapus
