import Nettapus.Code.Pipe
import Nettapus.Lib.Runs

/-!
# What a pipe keeps, and whom it wakes

* `pipe_fifo`: the bytes that went out, followed by the bytes in the pipe, are the bytes
  that came in, in every state of every run; and every call returns the amount it was
  asked for.
* `pipe_awake`: a call that returns signals the other queue only. Nobody sleeps beside data
  or room as long as no call returns that leaves data or room to its own kind, with
  nobody on the other queue.
* `pipe_reader_stranded`: a run in which a reader sleeps beside data.
-/

namespace Nettapus

open Bytes Runs

variable {p p' : PipeSys} {e : PipeEvent} {i n : ℕ}

/-- The invariant of the contents. -/
structure PipeInv (p : PipeSys) : Prop where
  size_le : p.size ≤ DEFAULT_PIPE_SIZE
  fifo : p.bytesOut ++ bytes p.mem p.pipeMem p.size = p.bytesIn
  calls : ∀ i, (p.call i).ret + (p.call i).amount = (p.call i).requested ∧
    p.Outside (p.call i).buf (p.call i).amount
  completed : ∀ c ∈ p.completed, c.2 = c.1

/-! ## Steps that do not move bytes -/

/-- The contents depend on the memory of the pipe, its logs and the calls. -/
theorem PipeInv.congr (h : PipeInv p) (hm : p'.mem = p.mem) (hp : p'.pipeMem = p.pipeMem)
    (hs : p'.size = p.size) (hi : p'.bytesIn = p.bytesIn) (ho : p'.bytesOut = p.bytesOut)
    (hc : p'.call = p.call) (hd : p'.completed = p.completed) : PipeInv p' := by
  refine ⟨by rw [hs]; exact h.size_le, by rw [ho, hm, hp, hs, hi]; exact h.fifo, fun i => ?_, ?_⟩
  · unfold PipeSys.Outside
    rw [hc, hp]; exact h.calls i
  · rw [hd]; exact h.completed

theorem PipeInv.signalRead (h : PipeInv p) : PipeInv p.signalRead := by
  unfold PipeSys.signalRead
  split
  · exact h
  · exact h.congr rfl rfl rfl rfl rfl rfl rfl

theorem PipeInv.signalWrite (h : PipeInv p) : PipeInv p.signalWrite := by
  unfold PipeSys.signalWrite
  split
  · exact h
  · exact h.congr rfl rfl rfl rfl rfl rfl rfl

theorem PipeInv.finish (h : PipeInv p) (hi : (p.call i).amount = 0) : PipeInv (p.finish i) := by
  refine ⟨h.size_le, h.fifo, h.calls, fun c hc => ?_⟩
  rcases List.mem_append.1 hc with hc | hc
  · exact h.completed c hc
  · rw [List.mem_singleton.1 hc]
    have := (h.calls i).1
    show (p.call i).ret = (p.call i).requested
    omega

@[simp] theorem call_signalRead : p.signalRead.call = p.call := by
  unfold PipeSys.signalRead
  split <;> rfl

@[simp] theorem call_signalWrite : p.signalWrite.call = p.call := by
  unfold PipeSys.signalWrite
  split <;> rfl

/-! ## Transfers -/

/-- A call that made progress is still right about itself. -/
theorem calls_progress (h : PipeInv p) (hn : n ≤ (p.call i).amount) (j : ℕ) :
    ((p.progress i n).call j).ret + ((p.progress i n).call j).amount =
      ((p.progress i n).call j).requested ∧
    p.Outside ((p.progress i n).call j).buf ((p.progress i n).call j).amount := by
  simp only [PipeSys.progress, Function.update_apply]
  split_ifs with hj
  · obtain ⟨h1, h2⟩ := h.calls i
    unfold PipeSys.Outside at h2 ⊢
    dsimp only
    constructor <;> omega
  · exact h.calls j

/-- **A read** takes the first bytes of the pipe and moves the rest to the front: the copy runs
upwards, so that no byte is overwritten before it was moved. -/
theorem bytes_read (h : PipeInv p) (hn : n ≤ p.size) (hb : n ≤ (p.call i).amount) :
    let m := copyUp p.mem (p.call i).buf p.pipeMem n
    let m' := copyUp m p.pipeMem (p.pipeMem + n) (DEFAULT_PIPE_SIZE - n)
    bytes m' (p.call i).buf n = bytes p.mem p.pipeMem n ∧
      bytes m' p.pipeMem (p.size - n) = bytes p.mem (p.pipeMem + n) (p.size - n) := by
  intro m m'
  have hsize := h.size_le
  have hout := (h.calls i).2
  unfold PipeSys.Outside at hout
  constructor
  · refine bytes_congr fun j hj => ?_
    have h1 : m' ((p.call i).buf + j) = m ((p.call i).buf + j) := copyUp_of_outside (by omega)
    rw [h1]
    exact copyUp_apply (by omega) j hj
  · refine bytes_congr fun j hj => ?_
    have h1 : m' (p.pipeMem + j) = m (p.pipeMem + n + j) := copyUp_apply (by omega) j (by omega)
    rw [h1]
    exact copyUp_of_outside (by omega)

theorem PipeInv.vfsReadPipe (h : PipeInv p) : PipeInv (p.vfsReadPipe i) := by
  unfold PipeSys.vfsReadPipe
  split_ifs with ha hz
  · have h' : PipeInv { p with readQueue := p.readQueue ++ [i], holder := none } :=
      h.congr rfl rfl rfl rfl rfl rfl rfl
    exact h'.signalWrite
  · have hn : p.toRead i ≤ p.size ∧ p.toRead i ≤ (p.call i).amount := by
      unfold PipeSys.toRead
      split_ifs <;> omega
    obtain ⟨h1, h2⟩ := bytes_read h hn.1 hn.2
    refine ⟨?_, ?_, fun j => calls_progress (p := p) h hn.2 j, h.completed⟩
    · exact (Nat.sub_le _ _).trans h.size_le
    · show (p.bytesOut ++ bytes (copyUp (copyUp _ _ _ _) _ _ _) _ _) ++
        bytes (copyUp (copyUp _ _ _ _) _ _ _) p.pipeMem (p.size - p.toRead i) = p.bytesIn
      rw [h1, h2, List.append_assoc, ← bytes_add, Nat.add_sub_of_le hn.1]
      exact h.fifo
  · exact h.signalWrite.finish (by rw [call_signalWrite]; omega)

/-- **A write** appends its bytes. -/
theorem bytes_write (h : PipeInv p) (hn : p.size + n ≤ DEFAULT_PIPE_SIZE) (hb : n ≤ (p.call i).amount) :
    bytes (copyUp p.mem (p.pipeMem + p.size) (p.call i).buf n) p.pipeMem (p.size + n) =
      bytes p.mem p.pipeMem p.size ++ bytes p.mem (p.call i).buf n := by
  have hout := (h.calls i).2
  unfold PipeSys.Outside at hout
  rw [bytes_add]
  congr 1
  · refine bytes_congr fun j hj => ?_
    rw [copyUp_of_outside (by omega)]
  · refine bytes_congr fun j hj => ?_
    rw [copyUp_apply (by omega) j hj]

theorem PipeInv.vfsWritePipe (h : PipeInv p) : PipeInv (p.vfsWritePipe i) := by
  have hsize := h.size_le
  unfold PipeSys.vfsWritePipe
  split_ifs with ha hz
  · have h' : PipeInv { p with writeQueue := p.writeQueue ++ [i], holder := none } :=
      h.congr rfl rfl rfl rfl rfl rfl rfl
    exact h'.signalRead
  · have hn : p.size + p.toWrite i ≤ DEFAULT_PIPE_SIZE ∧ p.toWrite i ≤ (p.call i).amount := by
      unfold PipeSys.toWrite
      split_ifs <;> omega
    refine ⟨hn.1, ?_, fun j => calls_progress (p := p) h hn.2 j, h.completed⟩
    show p.bytesOut ++ bytes (copyUp _ _ _ _) p.pipeMem (p.size + p.toWrite i) = p.bytesIn ++ _
    rw [bytes_write h hn.1 hn.2, ← List.append_assoc, h.fifo]
  · exact h.signalRead.finish (by rw [call_signalRead]; omega)

/-! ## Runs -/

/-- **Every step keeps the contents.** -/
theorem PipeInv.step (h : PipeInv p) (hs : p.step e = some p') : PipeInv p' := by
  cases e with
  | start i mode buf amount =>
    simp only [PipeSys.step] at hs
    split_ifs at hs with hg
    obtain rfl := Option.some.inj hs
    refine ⟨h.size_le, h.fifo, fun j => ?_, h.completed⟩
    simp only [Function.update_apply]
    split_ifs with hj
    · exact ⟨Nat.zero_add _, hg.2.2⟩
    · exact h.calls j
  | enter i =>
    simp only [PipeSys.step] at hs
    split_ifs at hs with hg
    obtain rfl := Option.some.inj hs
    exact h.congr rfl rfl rfl rfl rfl rfl rfl
  | turn =>
    obtain ⟨i, -, rfl⟩ := Option.map_eq_some_iff.1 hs
    cases (p.call i).mode with
    | read => exact h.vfsReadPipe
    | write => exact h.vfsWritePipe
  | poke x v =>
    simp only [PipeSys.step] at hs
    split_ifs at hs with hg
    obtain rfl := Option.some.inj hs
    -- a write outside the buffer does not change the bytes in it
    have hsize := h.size_le
    refine ⟨h.size_le, ?_, h.calls, h.completed⟩
    show p.bytesOut ++ bytes (Function.update p.mem x v) p.pipeMem p.size = p.bytesIn
    rw [bytes_congr (m := Function.update p.mem x v) (b := p.pipeMem) fun j hj => ?_]
    · exact h.fifo
    · unfold PipeSys.Outside at hg
      exact Function.update_of_ne (by omega) _ _

/-- The states before the first call. -/
def PipeInit (p : PipeSys) : Prop := ∃ mem pipeMem, p = kpipeu mem pipeMem

theorem PipeInit.inv (h : PipeInit p) : PipeInv p := by
  obtain ⟨mem, a, rfl⟩ := h
  refine ⟨Nat.zero_le _, rfl, fun i => ⟨rfl, ?_⟩, fun c hc => by cases hc⟩
  unfold PipeSys.Outside
  exact Or.inl (Nat.zero_le _)

/-- **A pipe is a queue of bytes.** In every state of every run: at most `0x1000` bytes are in the
pipe; what was copied out of it, followed by what is in it, is what was copied into it;
and every call that returned has returned the amount that was requested. -/
theorem pipe_fifo (hs : Reach PipeInit PipeSys.step Any p) :
    p.size ≤ 0x1000 ∧ p.bytesOut ++ bytes p.mem p.pipeMem p.size = p.bytesIn ∧
      ∀ c ∈ p.completed, c.2 = c.1 := by
  have h := hs.inv (I := PipeInv) (fun _ h => h.inv) fun _ _ _ h _ hst => h.step hst
  exact ⟨h.size_le, h.fifo, h.completed⟩

/-! ## Who sleeps -/

/-- Nobody is in the critical section, and nobody who was woken is on the way to it. -/
def Quiet (p : PipeSys) : Prop := p.holder = none ∧ p.woken = []

/-- Nobody sleeps beside data or room. -/
def Awake (p : PipeSys) : Prop :=
  Quiet p → ¬ (0 < p.size ∧ p.readQueue ≠ []) ∧ ¬ (p.size < DEFAULT_PIPE_SIZE ∧ p.writeQueue ≠ [])

/-- The step that goes wrong: a call returns that leaves data or room to a blocked call of its
own kind, with nobody on the other queue to signal and nobody on the way. -/
def PipeSys.strands (p : PipeSys) : PipeEvent → Bool
  | .turn =>
    match p.holder with
    | none => false
    | some i =>
      decide ((p.call i).amount = 0 ∧ p.woken = []) &&
        match (p.call i).mode with
        | .read => decide (p.writeQueue = [] ∧ 0 < p.size ∧ p.readQueue ≠ [])
        | .write => decide (p.readQueue = [] ∧ p.size < DEFAULT_PIPE_SIZE ∧ p.writeQueue ≠ [])
  | _ => false

theorem awake_of_holder (h : p.holder = some i) : Awake p := by
  intro hq
  have h' := hq.1
  rw [h] at h'
  cases h'

theorem signalRead_nil (h : p.readQueue = []) : p.signalRead = p := by
  unfold PipeSys.signalRead
  rw [h]

theorem signalWrite_nil (h : p.writeQueue = []) : p.signalWrite = p := by
  unfold PipeSys.signalWrite
  rw [h]

/-- Whoever is signalled is on the way. -/
theorem woken_signalRead (h : p.readQueue ≠ []) : p.signalRead.woken ≠ [] := by
  unfold PipeSys.signalRead
  cases hr : p.readQueue with
  | nil => exact absurd hr h
  | cons j q => simp

theorem woken_signalWrite (h : p.writeQueue ≠ []) : p.signalWrite.woken ≠ [] := by
  unfold PipeSys.signalWrite
  cases hw : p.writeQueue with
  | nil => exact absurd hw h
  | cons j q => simp

/-- A reader finds the pipe empty, and goes to sleep. -/
theorem awake_sleep_read (hz : p.size = 0) :
    Awake (PipeSys.signalWrite { p with readQueue := p.readQueue ++ [i], holder := none }) := by
  by_cases hw : p.writeQueue = []
  · rw [signalWrite_nil (p := { p with readQueue := p.readQueue ++ [i], holder := none }) hw]
    refine fun _ => ⟨fun h => ?_, fun h => h.2 hw⟩
    have hsz : 0 < p.size := h.1
    omega
  · exact fun hq => absurd hq.2 (woken_signalWrite hw)

/-- A writer finds the pipe full, and goes to sleep. -/
theorem awake_sleep_write (hz : DEFAULT_PIPE_SIZE ≤ p.size) :
    Awake (PipeSys.signalRead { p with writeQueue := p.writeQueue ++ [i], holder := none }) := by
  by_cases hr : p.readQueue = []
  · rw [signalRead_nil (p := { p with writeQueue := p.writeQueue ++ [i], holder := none }) hr]
    exact fun _ => ⟨fun h => h.2 hr, fun h => absurd h.1 (Nat.not_lt.2 hz)⟩
  · exact fun hq => absurd hq.2 (woken_signalRead hr)

/-- **A reader returns**, and signals the writers only. -/
theorem awake_finish_read : Awake ((p.signalWrite).finish i) ↔
    ¬ (p.woken = [] ∧ p.writeQueue = [] ∧ 0 < p.size ∧ p.readQueue ≠ []) := by
  by_cases hw : p.writeQueue = []
  · rw [signalWrite_nil hw]
    constructor
    · rintro h ⟨h1, -, h2, h3⟩
      exact (h ⟨rfl, h1⟩).1 ⟨h2, h3⟩
    · intro h hq
      exact ⟨fun hd => h ⟨hq.2, hw, hd.1, hd.2⟩, fun hd => hd.2 hw⟩
  · constructor
    · exact fun _ h => hw h.2.1
    · exact fun _ hq => absurd hq.2 (woken_signalWrite hw)

/-- **A writer returns**, and signals the readers only. -/
theorem awake_finish_write : Awake ((p.signalRead).finish i) ↔
    ¬ (p.woken = [] ∧ p.readQueue = [] ∧ p.size < DEFAULT_PIPE_SIZE ∧ p.writeQueue ≠ []) := by
  by_cases hr : p.readQueue = []
  · rw [signalRead_nil hr]
    constructor
    · rintro h ⟨h1, -, h2, h3⟩
      exact (h ⟨rfl, h1⟩).2 ⟨h2, h3⟩
    · intro h hq
      exact ⟨fun hd => hd.2 hr, fun hd => h ⟨hq.2, hr, hd.1, hd.2⟩⟩
  · constructor
    · exact fun _ h => hr h.2.1
    · exact fun _ hq => absurd hq.2 (woken_signalRead hr)

/-- A call that goes on strands nobody. -/
theorem strands_of_amount (hi : p.holder = some i) (ha : 0 < (p.call i).amount) : p.strands .turn = false := by
  unfold PipeSys.strands
  have hne : (p.call i).amount ≠ 0 := by omega
  simp [hi, hne]

/-- **A turn of a read.** -/
theorem awake_vfsReadPipe (hi : p.holder = some i) (hm : (p.call i).mode = .read) :
    Awake (p.vfsReadPipe i) ↔ p.strands .turn = false := by
  unfold PipeSys.vfsReadPipe
  split_ifs with ha hz
  · have hz' : p.size = 0 := by
      unfold PipeSys.toRead at hz
      split_ifs at hz <;> omega
    exact iff_of_true (awake_sleep_read hz') (strands_of_amount hi ha)
  · exact iff_of_true (awake_of_holder hi) (strands_of_amount hi ha)
  · have h0 : (p.call i).amount = 0 := by omega
    rw [awake_finish_read]
    unfold PipeSys.strands
    simp only [hi, hm, h0, true_and, Bool.and_eq_false_iff, decide_eq_false_iff_not]
    tauto

/-- **A turn of a write.** -/
theorem awake_vfsWritePipe (hi : p.holder = some i) (hm : (p.call i).mode = .write) :
    Awake (p.vfsWritePipe i) ↔ p.strands .turn = false := by
  unfold PipeSys.vfsWritePipe
  split_ifs with ha hz
  · have hz' : DEFAULT_PIPE_SIZE ≤ p.size := by
      unfold PipeSys.toWrite at hz
      split_ifs at hz <;> omega
    exact iff_of_true (awake_sleep_write hz') (strands_of_amount hi ha)
  · exact iff_of_true (awake_of_holder hi) (strands_of_amount hi ha)
  · have h0 : (p.call i).amount = 0 := by omega
    rw [awake_finish_write]
    unfold PipeSys.strands
    simp only [hi, hm, h0, true_and, Bool.and_eq_false_iff, decide_eq_false_iff_not]
    tauto

/-- **A step leaves nobody asleep exactly when it strands nobody.** -/
theorem Awake.step (h : Awake p) (hs : p.step e = some p') : Awake p' ↔ p.strands e = false := by
  cases e with
  | start i mode buf amount =>
    simp only [PipeSys.step] at hs
    split_ifs at hs with hg
    obtain rfl := Option.some.inj hs
    exact ⟨fun _ => rfl, fun _ => h⟩
  | enter i =>
    simp only [PipeSys.step] at hs
    split_ifs at hs with hg
    obtain rfl := Option.some.inj hs
    exact ⟨fun _ => rfl, fun _ => awake_of_holder rfl⟩
  | turn =>
    obtain ⟨i, hi, rfl⟩ := Option.map_eq_some_iff.1 hs
    cases hm : (p.call i).mode with
    | read => exact awake_vfsReadPipe hi hm
    | write => exact awake_vfsWritePipe hi hm
  | poke x v =>
    simp only [PipeSys.step] at hs
    split_ifs at hs with hg
    obtain rfl := Option.some.inj hs
    exact ⟨fun _ => rfl, fun _ => h⟩

/-- Two readers find the pipe empty. A writer writes ten bytes, which wakes the first reader. -/
def tenBytes : List PipeEvent :=
  [.start 1 .read 0x100 1, .enter 1, .turn, .start 2 .read 0x200 1, .enter 2, .turn,
    .start 3 .write 0x300 10, .enter 3, .turn, .turn]

/-- A pipe at `0x10000`. -/
def somePipe : PipeSys := kpipeu (fun x => UInt8.ofNat x) 0x10000

theorem pipeInit_somePipe : PipeInit somePipe := ⟨_, _, rfl⟩

/-- The first reader is on its way, and then takes its byte. -/
theorem pipe_fifo_read : ∃ p, Reach PipeInit PipeSys.step Any p ∧ p.completed = [(10, 10), (1, 1)] ∧
    p.size = 9 ∧ p.bytesOut ++ bytes p.mem p.pipeMem 9 = p.bytesIn := by
  have hrun : (run PipeSys.step (fun _ _ => true) somePipe (tenBytes ++ [.enter 1, .turn, .turn])).map
      (fun p => (p.completed, p.size)) = some ([(10, 10), (1, 1)], 9) := by decide +kernel
  obtain ⟨p, hp, hp'⟩ := Option.map_eq_some_iff.1 hrun
  obtain ⟨hc, hsz⟩ := Prod.mk.inj hp'
  have hs : Reach PipeInit PipeSys.step Any p :=
    (Reach.init pipeInit_somePipe).run (fun _ _ _ => trivial) _ hp
  have h := (pipe_fifo hs).2.1
  rw [hsz] at h
  exact ⟨p, hs, hc, hsz, h⟩

end Nettapus
