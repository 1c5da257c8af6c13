import Nettapus.Code.Base
import Nettapus.Lib.Bytes
import Mathlib.Data.List.Basic

/-!
# Pipes (`fs/vfs/pipe.c`, `fs/vfs/read.c`, `fs/vfs/write.c`)

The node of a pipe with the calls of `vfs_read_pipe` and `vfs_write_pipe` on it. The
node's mutex is taken to give exclusion: `holder` is the call that has it. The two queues
are taken to be ideal: they keep their waiting tasks in order. A step of the machine is
one mutex-protected turn of a call's loop: a transfer, or the way to sleep, or the end of
the call.

The buffers of the calls are in the same memory as the pipe, outside of its block, and
everything outside the block may change at any time (`Event.poke`).
-/

namespace Nettapus

open Bytes

def DEFAULT_PIPE_SIZE : ℕ := 0x1000

/-- `FD_READ` and `FD_WRITE`. -/
inductive FdMode
  | read
  | write
  deriving DecidableEq, Repr

/-- The variables of a call. `requested` is the `amount` that it was made with. -/
structure PipeCall where
  mode : FdMode
  buf : ℕ
  amount : ℕ
  ret : ℕ
  requested : ℕ
  deriving DecidableEq, Repr

structure PipeSys where
  mem : Mem
  /-- `node->pipe_mem`, `node->size` and the holder of `node->mutex`. -/
  pipeMem : ℕ
  size : ℕ
  holder : Option ℕ
  /-- The calls that are blocked. -/
  readQueue : List ℕ
  writeQueue : List ℕ
  /-- The calls that were woken and did not get the mutex again yet. -/
  woken : List ℕ
  /-- The calls that did not get the mutex for the first time yet. -/
  pending : List ℕ
  call : ℕ → PipeCall
  /-- The bytes that were copied into the pipe and out of it, in order. -/
  bytesIn : List UInt8
  bytesOut : List UInt8
  /-- The requested amount and the result of every call that returned. -/
  completed : List (ℕ × ℕ)

/-- `kpipeu`: an empty pipe, whose block is at `pipeMem`. -/
def kpipeu (mem : Mem) (pipeMem : ℕ) : PipeSys :=
  ⟨mem, pipeMem, 0, none, [], [], [], [], fun _ => ⟨.read, 0, 0, 0, 0⟩, [], [], []⟩

namespace PipeSys

variable (p : PipeSys)

/-- `signal_queue`: the first call of a queue is woken. -/
def signalRead : PipeSys :=
  match p.readQueue with
  | [] => p
  | i :: q => { p with readQueue := q, woken := p.woken ++ [i] }

def signalWrite : PipeSys :=
  match p.writeQueue with
  | [] => p
  | i :: q => { p with writeQueue := q, woken := p.woken ++ [i] }

/-- The call `i` returns, and releases the mutex. -/
def finish (i : ℕ) : PipeSys :=
  { p with holder := none, completed := p.completed ++ [((p.call i).requested, (p.call i).ret)] }

/-- The call goes on with the rest of its buffer. -/
def progress (i n : ℕ) : PipeSys :=
  { p with call := Function.update p.call i { p.call i with
      amount := (p.call i).amount - n
      buf := (p.call i).buf + n
      ret := (p.call i).ret + n } }

def toRead (i : ℕ) : ℕ := if p.size > (p.call i).amount then (p.call i).amount else p.size

def toWrite (i : ℕ) : ℕ :=
  if DEFAULT_PIPE_SIZE - p.size > (p.call i).amount then (p.call i).amount else DEFAULT_PIPE_SIZE - p.size

/-- A turn of the loop of `vfs_read_pipe`. -/
def vfsReadPipe (i : ℕ) : PipeSys :=
  if (p.call i).amount > 0 then
    if p.toRead i = 0 then
      -- `wait_queue`, then `release_semaphore`, then `signal_queue`
      signalWrite { p with readQueue := p.readQueue ++ [i], holder := none }
    else
      let n := p.toRead i
      let m := copyUp p.mem (p.call i).buf p.pipeMem n
      let m' := copyUp m p.pipeMem (p.pipeMem + n) (DEFAULT_PIPE_SIZE - n)
      progress { p with
        mem := m'
        size := p.size - n
        bytesOut := p.bytesOut ++ bytes m' (p.call i).buf n } i n
  else (signalWrite p).finish i

/-- A turn of the loop of `vfs_write_pipe`. -/
def vfsWritePipe (i : ℕ) : PipeSys :=
  if (p.call i).amount > 0 then
    if p.toWrite i = 0 then
      signalRead { p with writeQueue := p.writeQueue ++ [i], holder := none }
    else
      let n := p.toWrite i
      progress { p with
        mem := copyUp p.mem (p.pipeMem + p.size) (p.call i).buf n
        size := p.size + n
        bytesIn := p.bytesIn ++ bytes p.mem (p.call i).buf n } i n
  else (signalRead p).finish i

/-- No call is made under this number. -/
def Free (i : ℕ) : Prop :=
  p.holder ≠ some i ∧ i ∉ p.pending ∧ i ∉ p.woken ∧ i ∉ p.readQueue ∧ i ∉ p.writeQueue

instance (i : ℕ) : Decidable (p.Free i) := inferInstanceAs (Decidable (_ ∧ _ ∧ _ ∧ _ ∧ _))

/-- The `n` bytes at `a` are outside the block of the pipe. -/
def Outside (a n : ℕ) : Prop := a + n ≤ p.pipeMem ∨ p.pipeMem + DEFAULT_PIPE_SIZE ≤ a

instance (a n : ℕ) : Decidable (p.Outside a n) := inferInstanceAs (Decidable (_ ∨ _))

end PipeSys

inductive PipeEvent
  | start (i : ℕ) (mode : FdMode) (buf amount : ℕ)
  | enter (i : ℕ)
  | turn
  | poke (x : ℕ) (v : UInt8)
  deriving DecidableEq

/-- One step of the machine. Amounts are positive. -/
def PipeSys.step (p : PipeSys) : PipeEvent → Option PipeSys
  | .start i mode buf amount =>
    if p.Free i ∧ 0 < amount ∧ p.Outside buf amount then
      some { p with
        pending := p.pending ++ [i]
        call := Function.update p.call i ⟨mode, buf, amount, 0, amount⟩ }
    else none
  | .enter i =>
    if p.holder = none ∧ (i ∈ p.pending ∨ i ∈ p.woken) then
      some { p with holder := some i, pending := p.pending.erase i, woken := p.woken.erase i }
    else none
  | .turn =>
    p.holder.map fun i =>
      match (p.call i).mode with
      | .read => p.vfsReadPipe i
      | .write => p.vfsWritePipe i
  | .poke x v =>
    if p.Outside x 1 then some { p with mem := Function.update p.mem x v } else none

end Nettapus
