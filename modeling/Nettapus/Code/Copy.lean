import Nettapus.Code.Base
import Nettapus.Lib.Bytes

/-!
# Copies (`string/memcpy.c`, `string/memmove.c`)

The two functions of the kernel's string library that copy. The result is the returned pointer, and the memory.
Addresses are 64-bit numbers, and wrap.
-/

namespace Nettapus

open Bytes

/-- The loop upwards, after `n` rounds. -/
def copyLoop (m : Mem) (dst src : ℕ) : ℕ → Mem
  | 0 => m
  | i + 1 =>
    let m := copyLoop m dst src i
    Function.update m (u64 (dst + i)) (m (u64 (src + i)))

/-- The loop downwards, from `i = n` on. -/
def copyBackLoop (dst src : ℕ) : ℕ → Mem → Mem
  | 0, m => m
  | i + 1, m => copyBackLoop dst src i (Function.update m (u64 (dst + i)) (m (u64 (src + i))))

def memcpy (m : Mem) (dstptr srcptr size : ℕ) : ℕ × Mem := (dstptr, copyLoop m dstptr srcptr size)

def memmove (m : Mem) (dstptr srcptr size : ℕ) : ℕ × Mem :=
  if dstptr < srcptr then (dstptr, copyLoop m dstptr srcptr size)
  else (dstptr, copyBackLoop dstptr srcptr size m)

end Nettapus
