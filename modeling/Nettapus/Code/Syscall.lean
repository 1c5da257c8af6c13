import Nettapus.Code.Vmm
import Mathlib.Data.Int.Notation

/-!
# System calls with a buffer (`syscall/syscalls.c`)

The functions that the syscall interrupt calls check the pointer of the user program and
then call the function of the kernel that does the work. Here a function ends with an
error code, `.error`, or with the arguments that it hands on, `.ok`.

`v` and `pml4t` are the page structures and the PML4T of the calling task.
-/

namespace Nettapus

namespace Syscall

/-- Pointers of user programs are below this address. -/
def userLimit : ℕ := 0xFFFFFF7FFFFFF000

variable (v : Vmm) (pml4t : ℕ)

/-- The two checks that every call makes of a pointer. -/
def checkPointer (ptr : ℕ) : Except ℤ Unit :=
  if v.isMapped ptr pml4t = 0 then .error (-ERR_INVALID_PARAM)
  else if userLimit ≤ ptr then .error (-ERR_INVALID_PARAM)
  else .ok ()

/-- `read`: the arguments of `kread`. -/
def read (fd : ℤ) (buf : ℕ) (amount : ℤ) : Except ℤ (ℤ × ℕ × ℤ) := do
  checkPointer v pml4t buf
  if amount < 0 then .error 0
  .ok (fd, buf, amount)

/-- `write`: the arguments of `kwrite`. -/
def write (fd : ℤ) (buf : ℕ) (amount : ℤ) : Except ℤ (ℤ × ℕ × ℤ) := do
  checkPointer v pml4t buf
  if amount < 0 then .error 0
  .ok (fd, buf, amount)

/-- `pipe`: the pointer for `kpipeu`, which stores two numbers of four bytes there. -/
def pipe (ret : ℕ) : Except ℤ ℕ := do
  checkPointer v pml4t ret
  .ok ret

/-- `task_get_arg`, for the arguments of the calling task. -/
def taskGetArg (args : List (List UInt8)) (arg : ℕ) : Option (List UInt8) := args[arg]?

/-- `getarg`: the bytes that `memcpy` writes at `buf`, and their number. -/
def getarg (args : List (List UInt8)) (arg buf limit : ℕ) : Except ℤ (ℕ × List UInt8 × ℕ) := do
  checkPointer v pml4t buf
  match taskGetArg args arg with
  | none => .error (-ERR_NOT_FOUND)
  | some str => .ok (buf, str, if limit ≤ str.length then sub64 limit 1 else str.length)

end Syscall

/-- The calls of a user program that have a buffer. -/
inductive BufferCall
  | read (fd : ℤ) (buf : ℕ) (amount : ℤ)
  | write (fd : ℤ) (buf : ℕ) (amount : ℤ)
  | pipe (ret : ℕ)
  | getarg (args : List (List UInt8)) (arg buf limit : ℕ)

namespace BufferCall

/-- Where the buffer starts. -/
def start : BufferCall → ℕ
  | read _ buf _ => buf
  | write _ buf _ => buf
  | pipe ret => ret
  | getarg _ _ buf _ => buf

/-- The number of bytes of the buffer. -/
def length : BufferCall → ℕ
  | read _ _ amount => amount.toNat
  | write _ _ amount => amount.toNat
  | pipe _ => 8
  | getarg _ _ _ limit => limit

end BufferCall

end Nettapus
