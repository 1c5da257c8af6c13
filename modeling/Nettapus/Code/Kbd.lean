import Nettapus.Code.Base
import Nettapus.Code.Pipe
import Mathlib.Control.Basic

/-!
# The keyboard (`kbd/kbd.c`)

`kbd_handle_key` is called by the interrupt of the keyboard, with a scancode. It keeps the line in a buffer, and writes it
to a pipe when it is complete. An access to an array goes through `index`, which puts it down and ends the run if it is not
inside the array.

Interrupts come between any two accesses to memory of the task that reads the pipe; the call of `vfs_read_pipe` that has
the mutex is here once more, for that, with its accesses to `size` and to the bytes of the pipe. What it copies to its
buffer, and the queues, are in `Code/Pipe.lean`.
-/

namespace Nettapus

open Bytes

/-! ## Tables and variables -/

def keyset1 : String :=
  "#*1234567890-=\x08\tQWERTYUIOP[]\n*ASDFGHJKL;'`*\\ZXCVBNM,./*** *************789-456+1230.###**"

def keyset1Up : String :=
  "#*!'^+%&/()=_?\x08\tQWERTYUIOP[]\n*ASDFGHJKL;'`*\\ZXCVBNM,./*** *************789-456+1230.###**"

def keyset1Low : String :=
  "#*1234567890-=\x08\tqwertyuiop[]\n*asdfghjkl;'`*\\zxcvbnm,./*** *************789-456+1230.###**"

inductive KbdArray
  | keyset1
  | keyset1Up
  | keyset1Low
  | keyBuf
  deriving DecidableEq, Repr

/-- The number of elements. -/
def KbdArray.size : KbdArray → ℕ
  | .keyBuf => 0x200
  | _ => 0xFF

/-- The bytes of a table, with zeros behind the string. -/
def KbdArray.byte (a : KbdArray) (i : ℕ) : UInt8 :=
  let s := match a with
    | .keyset1 => Nettapus.keyset1
    | .keyset1Up => Nettapus.keyset1Up
    | .keyset1Low => Nettapus.keyset1Low
    | .keyBuf => ""
  s.toUTF8.data.toList.getD i 0

def KBD_LCTRL_PRESSED : UInt8 := 0x1D
def KBD_LCTRL_RELEASED : UInt8 := 0x9D
def KBD_LSHIFT_PRESSED : UInt8 := 0x2A
def KBD_LSHIFT_RELEASED : UInt8 := 0xAA
def KBD_RSHIFT_PRESSED : UInt8 := 0x36
def KBD_RSHIFT_RELEASED : UInt8 := 0xB6
def KBD_LALT_PRESSED : UInt8 := 0x38
def KBD_LALT_RELEASED : UInt8 := 0xB8
def KBD_CAPSLOCK_PRESSED : UInt8 := 0x3A
def KBD_NUMLOCK_PRESSED : UInt8 := 0x45
def KBD_SCROLLLOCK_PRESSED : UInt8 := 0x46

/-- Where the call of `vfs_read_pipe` stands. -/
inductive KbdReadPc
  /-- At the head of the loop, before `node->size > amount` in `to_read`. -/
  | compare
  /-- Before `node->size` is read as `to_read`. -/
  | take
  /-- In the `memcpy` that removes `toRead` bytes, before the byte `i`. -/
  | remove (toRead i : ℕ)
  /-- Before `node->size` is read in `node->size -= to_read`. -/
  | subtract (toRead : ℕ)
  /-- Before the difference is written there. -/
  | store (toRead size : ℕ)
  deriving DecidableEq, Repr

structure KbdReader where
  amount : ℤ
  pc : KbdReadPc
  deriving DecidableEq, Repr

/-- The variables of the driver, `kbd_pipe`, and the call that reads it. -/
structure Kbd where
  lshift : Bool
  rshift : Bool
  lctrl : Bool
  lalt : Bool
  capslock : Bool
  numlock : Bool
  scrolllock : Bool
  keyBuf : Mem
  keyBufCursor : ℕ
  /-- `kbd_pipe->pipe_mem` and `kbd_pipe->size`. -/
  pipeMem : Mem
  size : ℕ
  reader : Option KbdReader
  /-- The arrays and indices that were used, and the characters given to `kputc`. -/
  used : List (KbdArray × ℕ)
  shown : List UInt8
  /-- The bytes that `kbd_flush` wrote to the pipe, in order. -/
  appended : List UInt8

/-- `init_kbd`: an empty pipe. The variables of the driver start as zeros. -/
def initKbd (pipeMem : Mem) : Kbd :=
  ⟨false, false, false, false, false, false, false, fun _ => 0, 0, pipeMem, 0, none, [], [], []⟩

/-! ## `kbd_handle_key` -/

/-- What the driver does to the state, as far as it gets. -/
abbrev KbdM := OptionT (StateM Kbd)

/-- Behind the end of the array the run stops. -/
def index (a : KbdArray) (i : ℕ) : KbdM Unit := do
  modify fun s => { s with used := s.used ++ [(a, i)] }
  if i < a.size then pure () else failure

def readKeyset (a : KbdArray) (key : UInt8) : KbdM UInt8 := do
  index a key.toNat
  pure (a.byte key.toNat)

def writeKeyBuf (i : ℕ) (c : UInt8) : KbdM Unit := do
  index .keyBuf i
  modify fun s => { s with keyBuf := Function.update s.keyBuf i c }

def kputc (c : UInt8) : KbdM Unit := modify fun s => { s with shown := s.shown ++ [c] }

/-- The first `n` bytes of the buffer go behind those in the pipe. -/
def Kbd.append (s : Kbd) (n : ℕ) : Kbd :=
  let pipeMem : Mem := fun x => if s.size ≤ x ∧ x < s.size + n then s.keyBuf (x - s.size) else s.pipeMem x
  { s with pipeMem := pipeMem, size := s.size + n, appended := s.appended ++ bytes pipeMem s.size n }

def kbdFlush : KbdM Unit := do
  let s ← MonadState.get
  if s.keyBufCursor ≠ 0 then
    let toCpy := if u64 (s.size + s.keyBufCursor) > 0x1000 then sub64 0x1000 s.size else s.keyBufCursor
    -- `memcpy` reads the buffer from its beginning
    (List.range toCpy).forM (index .keyBuf)
    modify fun s => s.append toCpy
    modify fun s => { s with keyBufCursor := 0 }

/-- The `switch` over the keys that are not displayed. -/
def Kbd.switchKey (s : Kbd) (key : UInt8) : Kbd :=
  if key = 0x1 then s
  else if key = KBD_LCTRL_PRESSED then { s with lctrl := true }
  else if key = KBD_LCTRL_RELEASED then { s with lctrl := false }
  else if key = KBD_LSHIFT_PRESSED then { s with lshift := true }
  else if key = KBD_LSHIFT_RELEASED then { s with lshift := false }
  else if key = KBD_RSHIFT_PRESSED then { s with rshift := true }
  else if key = KBD_RSHIFT_RELEASED then { s with rshift := false }
  else if key = KBD_LALT_PRESSED then { s with lalt := true }
  else if key = KBD_LALT_RELEASED then { s with lalt := false }
  else if key = KBD_CAPSLOCK_PRESSED then { s with capslock := !s.capslock }
  else if key = KBD_NUMLOCK_PRESSED then { s with numlock := !s.numlock }
  else if key = KBD_SCROLLLOCK_PRESSED then { s with scrolllock := !s.scrolllock }
  else s

/-- The character of a key goes to the end of the buffer. -/
def putKey (a : KbdArray) (key : UInt8) : KbdM Unit := do
  let c ← readKeyset a key
  let s ← MonadState.get
  writeKeyBuf s.keyBufCursor c
  modify fun s => { s with keyBufCursor := s.keyBufCursor + 1 }
  kputc (← readKeyset a key)

/-- The part of `kbd_handle_key` for a key that is displayed, up to the test for a newline. -/
def typeKey (key : UInt8) : KbdM Unit := do
  let s ← MonadState.get
  if (← readKeyset .keyset1Up key) = 0x08 ∧ s.keyBufCursor ≠ 0 then
    modify fun s => { s with keyBufCursor := s.keyBufCursor - 1 }
    writeKeyBuf (s.keyBufCursor - 1) 0
    kputc 0x08
  else if (← readKeyset .keyset1Up key) = 0x08 then pure ()
  else if s.lshift || s.rshift || s.capslock then putKey .keyset1Up key
  else putKey .keyset1Low key

/-- The keys that are not displayed. `||` looks at `keyset1` only if the first test fails. -/
def isSpecial (key : UInt8) : KbdM Bool := do
  if (← readKeyset .keyset1Low key) = 0x2A then pure true
  else pure ((← readKeyset .keyset1 key) = 0)

def kbdHandleKey (key : UInt8) : KbdM Unit := do
  if (← readKeyset .keyset1Low key) = 0x23 then pure ()
  else if ← isSpecial key then modify fun s => s.switchKey key
  else
    typeKey key
    if (← readKeyset .keyset1Up key) = 0x0A then
      let s ← MonadState.get
      writeKeyBuf (sub64 s.keyBufCursor 1) 0
      kbdFlush

/-! ## Runs with a reader -/

/-- The next step of the call of `vfs_read_pipe`. Without data in the pipe it goes to sleep, and gives the mutex back. -/
def Kbd.readStep (s : Kbd) (r : KbdReader) : Kbd :=
  match r.pc with
  | .compare =>
    if r.amount > 0 then
      if (s.size : ℤ) > r.amount then { s with reader := some { r with pc := .remove r.amount.toNat 0 } }
      else { s with reader := some { r with pc := .take } }
    else { s with reader := none }
  | .take =>
    if s.size = 0 then { s with reader := none }
    else { s with reader := some { r with pc := .remove s.size 0 } }
  | .remove toRead i =>
    if i < sub64 DEFAULT_PIPE_SIZE toRead then
      { s with
        pipeMem := Function.update s.pipeMem i (s.pipeMem (toRead + i))
        reader := some { r with pc := .remove toRead (i + 1) } }
    else { s with reader := some { amount := r.amount - toRead, pc := .subtract toRead } }
  | .subtract toRead => { s with reader := some { r with pc := .store toRead (sub64 s.size toRead) } }
  | .store _ size => { s with size := size, reader := some { r with pc := .compare } }

inductive KbdEvent
  | key (key : UInt8)
  /-- A call of `vfs_read_pipe` gets the mutex: for the first time, or after it was woken with this amount left. -/
  | enter (amount : ℤ)
  | read
  deriving DecidableEq

def kbdStep : KbdEvent → KbdM Unit
  | .key key => kbdHandleKey key
  | .enter amount => modify fun s =>
    if s.reader.isNone then { s with reader := some ⟨amount, .compare⟩ } else s
  | .read => modify fun s => s.reader.elim s s.readStep

/-- What comes of a sequence of events: whether it gets to the end, and the state. -/
def kbdRun (events : List KbdEvent) (s : Kbd) : Option Unit × Kbd := (events.forM kbdStep).run.run s

end Nettapus
