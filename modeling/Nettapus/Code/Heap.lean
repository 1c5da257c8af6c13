import Nettapus.Code.Base
import Nettapus.Lib.Bytes

/-!
# The kernel heap (`mem/heap.c`)

Free chunks are kept in a doubly linked list in address order. A chunk is a 24-byte
header (`uint32_t size`, padding, `prev`, `next`) followed by `size` bytes of data;
the header lives in the memory itself, so the model is over bytes.

A `while` loop of the source is a function with a bound on its iterations, `none`
when the bound runs out. `kmalloc` and `kfree` take the number of headers that fit
into the heap as the bound, and return `none` only when the loop is still running
after that many iterations.
-/

namespace Nettapus

open Bytes

/-- A field of `struct chunk_header`. -/
inductive Field
  | size
  | prev
  | next
  deriving DecidableEq

/-- The offset of a field in the header. -/
def Field.off : Field → ℕ
  | .size => 0
  | .prev => 8
  | .next => 16

/-- The width of a field in bytes: `size` is a `uint32_t`, the links are pointers. -/
def Field.width : Field → ℕ
  | .size => 4
  | .prev => 8
  | .next => 8

/-- `sizeof(chunk_header_t)`. -/
def hdrSize : ℕ := 24

/-- `h->f`. -/
def get (m : Mem) (f : Field) (h : ℕ) : ℕ := load m (h + f.off) f.width

/-- `h->f = v`. -/
def set (m : Mem) (f : Field) (h v : ℕ) : Mem := store m (h + f.off) v f.width

/-- `struct heap`, and the memory its chunks live in. -/
structure Heap where
  mem : Mem
  firstFree : ℕ
  start : ℕ
  stop : ℕ

/-- Unlinks a chunk. -/
def unlink (m : Mem) (h : ℕ) : ℕ × Mem :=
  if h = NULL then (ERR_INVALID_PARAM, m)
  else
    let m := if get m .next h ≠ NULL then set m .prev (get m .next h) (get m .prev h) else m
    let m := if get m .prev h ≠ NULL then set m .next (get m .prev h) (get m .next h) else m
    let m := set m .prev h NULL
    let m := set m .next h NULL
    (GENERIC_SUCCESS, m)

/-- The size `divideChunk` gives to the first part. -/
def divideSize (size : ℕ) : ℕ :=
  let size := if size < 16 then 16 else size
  if size % 2 ≠ 0 then u64 (size + 1) else size

/-- The address of the second part: after the first one, 16-byte aligned. -/
def divideAddr (size chunk : ℕ) : ℕ :=
  let c2 := u64 (chunk + size + hdrSize)
  if c2 % 16 ≠ 0 then u64 (c2 + (16 - c2 % 16)) else c2

/-- Splits a chunk and returns the second part, or `NULL` when there is not enough
space to split and align. -/
def divideChunk (m : Mem) (size chunk : ℕ) : ℕ × Mem :=
  if chunk = NULL then (NULL, m)
  else
    let size := divideSize size
    if get m .size chunk ≤ u64 (size + hdrSize + 15) then (NULL, m)
    else
      let c2 := divideAddr size chunk
      let m := set m .size c2 (sub64 (get m .size chunk) (sub64 c2 chunk))
      let m := if get m .next chunk ≠ NULL then set m .prev (get m .next chunk) c2 else m
      let m := set m .next c2 (get m .next chunk)
      let m := set m .prev c2 chunk
      let m := set m .size chunk size
      let m := set m .next chunk c2
      (c2, m)

/-- Merges `h2` into `h1` when it comes directly after it. -/
def mergeChunk (m : Mem) (h1 h2 : ℕ) : ℕ × Mem :=
  if h1 = NULL ∨ h2 = NULL then (NULL, m)
  else if u64 (h1 + get m .size h1 + hdrSize) ≠ h2 then (NULL, m)
  else
    let m := set m .next h1 (get m .next h2)
    let m := if get m .next h2 ≠ NULL then set m .prev (get m .next h2) h1 else m
    let m := set m .size h1 (get m .size h1 + get m .size h2 + hdrSize)
    let m := fill m h2 0 hdrSize
    (h1, m)

/-- The `while (chunk != NULL)` loop of `kmalloc`. -/
def kmallocLoop (h : Heap) (bytes : ℕ) : ℕ → ℕ → Option (ℕ × Heap)
  | 0, _ => none
  | fuel + 1, chunk =>
    if chunk = NULL then some (NULL, h)
    else if get h.mem .size chunk < bytes then
      kmallocLoop h bytes fuel (get h.mem .next chunk)
    else if get h.mem .size chunk = bytes then
      -- the size matches: the chunk is handed out as it is
      let first := if chunk = h.firstFree then get h.mem .next chunk else h.firstFree
      some (u64 (chunk + hdrSize), { h with mem := (unlink h.mem chunk).2, firstFree := first })
    else if get h.mem .size chunk - bytes > 48 then
      let d := divideChunk h.mem bytes chunk
      let first := if chunk = h.firstFree then d.1 else h.firstFree
      some (u64 (chunk + hdrSize), { h with mem := (unlink d.2 chunk).2, firstFree := first })
    else
      -- not worth chopping
      let first := if chunk = h.firstFree then get h.mem .next chunk else h.firstFree
      some (u64 (chunk + hdrSize), { h with mem := (unlink h.mem chunk).2, firstFree := first })

/-- The number of iterations a loop over the chunks of the heap is given. -/
def Heap.bound (h : Heap) : ℕ := (h.stop - h.start) / hdrSize + 1

/-- Rounds a request up to a multiple of four. -/
def roundUp (bytes : ℕ) : ℕ := if bytes % 4 ≠ 0 then u64 (bytes + (4 - bytes % 4)) else bytes

def kmalloc (h : Heap) (bytes : ℕ) : Option (ℕ × Heap) :=
  if bytes = 0 then some (NULL, h)
  else kmallocLoop h (roundUp bytes) h.bound h.firstFree

/-- The `while (1)` loop of `kfree`: `i` and `j` are neighbours in the free list. -/
def kfreeLoop (chunk : ℕ) : ℕ → Mem → ℕ → ℕ → Option (ℕ × Mem)
  | 0, _, _, _ => none
  | fuel + 1, m, i, j =>
    if i = NULL then some (0xff, m)
    else if j = NULL then
      -- the end of the list
      let m := set m .next i chunk
      let m := set m .prev chunk i
      let m := set m .next chunk NULL
      some (GENERIC_SUCCESS, m)
    else if u64 (i + hdrSize + get m .size i) = j then
      -- adjacent free chunks are merged on the way, and the iteration is done again
      let temp := get m .next j
      kfreeLoop chunk fuel (mergeChunk m i j).2 i temp
    else if i < chunk ∧ chunk < j then
      let m := set m .next i chunk
      let m := set m .prev chunk i
      let m := set m .prev j chunk
      let m := set m .next chunk j
      some (GENERIC_SUCCESS, m)
    else kfreeLoop chunk fuel m j (get m .next j)

def kfree (h : Heap) (ptr : ℕ) : Option (ℕ × Heap) :=
  if ptr = NULL then some (1, h)
  else
    let chunk := sub64 ptr hdrSize
    if h.firstFree = NULL then some (0, { h with firstFree := chunk })
    else
      let i := h.firstFree
      let j := get h.mem .next i
      if chunk < i then
        let m := set h.mem .prev chunk NULL
        let m := set m .next chunk i
        let m := set m .prev i chunk
        some (GENERIC_SUCCESS, { h with mem := m, firstFree := chunk })
      else
        (kfreeLoop chunk h.bound h.mem i j).map fun r => (r.1, { h with mem := r.2 })

/-- The address the heap is mapped at. -/
def heapStart : ℕ := 0xFFFFFFFFA0000000

/-- `init_heap`, after its call of `map_memory` returned `stat`: one free chunk, "the
wilderness", covers the 256 pages. -/
def initHeap (stat : ℕ) (h : Heap) : ℕ × Heap :=
  if stat ≠ 0 then (1, h)
  else
    let start := heapStart
    let stop := start + 256 * 0x1000
    let m := set h.mem .size start ((stop - start) - hdrSize)
    let m := set m .prev start NULL
    let m := set m .next start NULL
    (GENERIC_SUCCESS, { mem := m, firstFree := start, start := start, stop := stop })

end Nettapus
