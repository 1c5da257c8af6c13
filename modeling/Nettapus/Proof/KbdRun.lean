import Nettapus.Proof.Kbd
import Mathlib.Data.List.Infix

/-!
# Lines from the keyboard

`Kbd.Follows` is the invariant of runs in which keys and the steps of a reader come in any order: the modifiers and the
buffer are as the keys say, and the pipe and the reader are inside of `pipe_mem`.

`kbd_bounds_iff`: a run stays inside of the arrays exactly when no key has the scancode `0xFF`, for which the tables have no
entry, and every key that is displayed finds room in the buffer; `kbd_handle_key` does not test either of them.

`kbd_lines`: with room in the buffer and in the pipe, the bytes that come to the pipe are the lines that were typed, with a
zero behind each.
-/

namespace Nettapus

open Bytes LineEdit Runs Stops

variable {s s' : Kbd} {key c : UInt8} {events : List KbdEvent} {e : KbdEvent} {r : KbdReader} {pipeMem : Mem} {n : ℕ}

/-! ## The invariant -/

/-- The keys that came. -/
def keysOf (events : List KbdEvent) : List UInt8 := events.filterMap fun
  | .key key => some key
  | _ => none

/-- What was typed. -/
def typedBy (events : List KbdEvent) : Typed UInt8 := typed (keyEdits (keysOf events))

/-- The reader does not take more out of the pipe than there is, and does not write more than there is room for. -/
def KbdReader.Fits (r : KbdReader) (size : ℕ) : Prop :=
  match r.pc with
  | .remove toRead _ => toRead ≤ size
  | .subtract toRead => toRead ≤ size
  | .store _ left => left ≤ 0x1000
  | _ => True

theorem KbdReader.Fits.mono (h : r.Fits n) {m : ℕ} (hm : n ≤ m) : r.Fits m := by
  unfold Fits at h ⊢
  split at h <;> grind

/-- **The invariant.** -/
structure Kbd.Follows (events : List KbdEvent) (s : Kbd) : Prop where
  mods : s.Mods (keysOf events)
  line : bytes s.keyBuf 0 s.keyBufCursor = (typedBy events).line
  cursor_le : s.keyBufCursor ≤ 0x200
  size_le : s.size ≤ 0x1000
  reader : ∀ r, s.reader = some r → r.Fits s.size
  used : InBounds s.used

/-- The event finds an entry in the tables, and room in the buffer. -/
def KbdRoom (events : List KbdEvent) : KbdEvent → Prop
  | .key key => key ≠ 0xFF ∧ (Displayed key → key ≠ 0x0E → (typedBy events).line.length < 0x200)
  | _ => True

theorem bytes_length (m : Mem) (a n : ℕ) : (bytes m a n).length = n := by simp [bytes]

theorem Kbd.Follows.length (h : s.Follows events) : (typedBy events).line.length = s.keyBufCursor := by
  rw [← h.line, bytes_length]

theorem follows_init (pipeMem : Mem) : (initKbd pipeMem).Follows [] where
  mods := mods_init pipeMem
  line := by simp [initKbd, typedBy, keysOf, bytes]
  cursor_le := by simp [initKbd]
  size_le := by simp [initKbd]
  reader := by simp [initKbd]
  used := by simp [initKbd]

theorem typedBy_key (events : List KbdEvent) (key : UInt8) : typedBy (events ++ [.key key]) =
    (editOf (upper (keysOf events)) key).elim (typedBy events) (typedBy events).edit := by
  simp only [typedBy, keysOf, List.filterMap_append, List.filterMap_cons, List.filterMap_nil, keyEdits_append, typed_append]
  cases editOf _ key <;> simp

theorem keysOf_key (events : List KbdEvent) (key : UInt8) : keysOf (events ++ [.key key]) = keysOf events ++ [key] := by
  simp [keysOf]

/-! ## A step -/

/-- The reader does not touch the variables of the driver. -/
theorem readStep_frame (s : Kbd) (r : KbdReader) : ∃ pipeMem size reader, s.readStep r = { s with pipeMem, size, reader } := by
  unfold Kbd.readStep
  cases r.pc with
  | compare => split_ifs <;> exact ⟨_, _, _, rfl⟩
  | take => split_ifs <;> exact ⟨_, _, _, rfl⟩
  | remove toRead i => dsimp only; split_ifs <;> exact ⟨_, _, _, rfl⟩
  | subtract toRead => exact ⟨_, _, _, rfl⟩
  | store toRead left => exact ⟨_, _, _, rfl⟩

/-- A step of the reader keeps the pipe inside of its memory. -/
theorem readStep_fits (h : s.Follows events) (hr : s.reader = some r) : (s.readStep r).size ≤ 0x1000 ∧
    ∀ r', (s.readStep r).reader = some r' → r'.Fits (s.readStep r).size := by
  have hsize := h.size_le
  have hfits := h.reader r hr
  rcases r with ⟨amount, pc⟩
  cases pc with
  | compare =>
    simp only [Kbd.readStep]
    split_ifs with h0 hlt
    · simp only [hsize, Option.some.injEq, forall_eq', KbdReader.Fits, true_and]
      omega
    · simp [hsize, KbdReader.Fits]
    · simp [hsize]
  | take =>
    simp only [Kbd.readStep]
    split_ifs
    · simp [hsize]
    · simp [hsize, KbdReader.Fits]
  | remove toRead i =>
    have hle : toRead ≤ s.size := hfits
    simp only [Kbd.readStep]
    split_ifs <;> simp [hsize, KbdReader.Fits, hle]
  | subtract toRead =>
    have hle : toRead ≤ s.size := hfits
    have hsub : sub64 s.size toRead ≤ 0x1000 := by
      rw [sub64_of_le hle (by omega)]
      omega
    simp [Kbd.readStep, hsize, KbdReader.Fits, hsub]
  | store toRead left =>
    have hle : left ≤ 0x1000 := hfits
    simp [Kbd.readStep, hle, KbdReader.Fits]

/-- What is no key does not change what was typed. -/
theorem Kbd.Follows.other (h : s.Follows events) (he : keysOf [e] = []) : s.Follows (events ++ [e]) := by
  have hkeys : keysOf (events ++ [e]) = keysOf events := by
    rw [keysOf, List.filterMap_append]
    exact (congrArg _ he).trans (List.append_nil _)
  exact ⟨hkeys ▸ h.mods, by simpa [typedBy, hkeys] using h.line, h.cursor_le, h.size_le, h.reader, h.used⟩

theorem follows_read (h : s.Follows events) (hr : s.reader = some r) : (s.readStep r).Follows (events ++ [.read]) := by
  obtain ⟨hsize, hreader⟩ := readStep_fits h hr
  obtain ⟨pipeMem, size, reader, hstep⟩ := readStep_frame s r
  rw [hstep] at hsize hreader ⊢
  have hother := h.other (e := .read) rfl
  exact ⟨⟨hother.mods.lshift, hother.mods.rshift, hother.mods.capslock⟩, hother.line, h.cursor_le, hsize, hreader, h.used⟩

theorem Kbd.Follows.log (h : s.Follows events) {l : List (KbdArray × ℕ)} (hl : InBounds l) (sh : List UInt8) :
    (s.log l sh).Follows events :=
  ⟨⟨h.mods.lshift, h.mods.rshift, h.mods.capslock⟩, h.line, h.cursor_le, h.size_le, h.reader,
    inBounds_append.2 ⟨h.used, hl⟩⟩

theorem put_line (s : Kbd) (c : UInt8) :
    bytes (s.put c).keyBuf 0 (s.put c).keyBufCursor = bytes s.keyBuf 0 s.keyBufCursor ++ [c] := by
  simp only [Kbd.put, Kbd.write]
  rw [bytes_add]
  congr 1
  · apply bytes_congr
    intro i hi
    simp [Nat.ne_of_lt hi]
  · simp [bytes]

theorem erase_line (s : Kbd) :
    bytes s.erase.keyBuf 0 s.erase.keyBufCursor = (bytes s.keyBuf 0 s.keyBufCursor).dropLast := by
  simp only [Kbd.erase, Kbd.write]
  cases hn : s.keyBufCursor with
  | zero => simp [bytes]
  | succ n =>
    rw [bytes_add _ 0 n 1, Nat.add_sub_cancel]
    simp only [bytes, List.range_one, List.map_cons, List.map_nil, List.dropLast_concat]
    apply List.map_congr_left
    intro i hi
    simp [Nat.ne_of_lt (List.mem_range.1 hi)]

/-- What comes to the pipe is the line, as far as there is room for it. -/
theorem flush_appended (s : Kbd) :
    s.flush.appended = s.appended ++ (bytes s.keyBuf 0 s.keyBufCursor).take (0x1000 - s.size) := by
  simp only [Kbd.flush, Kbd.append]
  congr 1
  have htake : (bytes s.keyBuf 0 s.keyBufCursor).take (0x1000 - s.size) =
      bytes s.keyBuf 0 (min s.keyBufCursor (0x1000 - s.size)) := by
    simp only [bytes, ← List.map_take, List.take_range, Nat.min_comm]
  rw [htake]
  apply bytes_congr
  intro i hi
  rw [if_pos ⟨by omega, by omega⟩, Nat.add_sub_cancel_left, Nat.zero_add]

/-! ## A key -/

theorem switchKey_follows (h : s.Follows events) (hedit : editOf (upper (keysOf events)) key = none) :
    (s.switchKey key).Follows (events ++ [.key key]) := by
  obtain ⟨_, _, _, _, _, _, _, hframe⟩ := switchKey_frame s key
  refine ⟨keysOf_key events key ▸ h.mods.switchKey key, ?_, ?_, ?_, ?_, ?_⟩
  · rw [typedBy_key, hedit, hframe]
    exact h.line
  all_goals rw [hframe]
  exacts [h.cursor_le, h.size_le, h.reader, h.used]

/-- A key that is displayed leaves the modifiers as they are. -/
theorem Kbd.Follows.mods_displayed (h : s.Follows events) (hd : Displayed key) :
    s.Mods (keysOf (events ++ [.key key])) := by
  have hmods := h.mods.switchKey key
  rwa [switchKey_of_notMem (notMem_switchKeys (.inl hd)), ← keysOf_key] at hmods

theorem put_follows (h : s.Follows events) (hedit : editOf (upper (keysOf events)) key = some (.put c))
    (hc : s.keyBufCursor < 0x200) : (s.put c).Follows (events ++ [.key key]) := by
  have hmods := h.mods_displayed (displayed_of_editOf (by rw [hedit]; rfl))
  refine ⟨⟨hmods.lshift, hmods.rshift, hmods.capslock⟩, ?_, hc, h.size_le, h.reader, h.used⟩
  rw [put_line, h.line, typedBy_key, hedit, Option.elim_some, edit_put_line]

theorem erase_follows (h : s.Follows events) :
    (if s.keyBufCursor = 0 then s else s.erase).Follows (events ++ [.key 0x0E]) := by
  have hedit : editOf (upper (keysOf events)) 0x0E = some .erase := if_pos rfl
  have hmods := h.mods_displayed (displayed_of_editOf (by rw [hedit]; rfl))
  split_ifs with h0
  · refine ⟨hmods, ?_, h.cursor_le, h.size_le, h.reader, h.used⟩
    have hnil : (typedBy events).line = [] := List.eq_nil_of_length_eq_zero (h.length.trans h0)
    rw [h.line, typedBy_key, hedit, Option.elim_some, edit_erase_line, hnil, List.dropLast_nil]
  · refine ⟨⟨hmods.lshift, hmods.rshift, hmods.capslock⟩, ?_, (Nat.sub_le _ _).trans h.cursor_le, h.size_le, h.reader, h.used⟩
    rw [erase_line, h.line, typedBy_key, hedit, Option.elim_some, edit_erase_line]

theorem enter_follows (h : s.Follows events) : (s.put 0).flush.Follows (events ++ [.key 0x1C]) := by
  have hedit : editOf (upper (keysOf events)) 0x1C = some .enter := (if_neg (by decide)).trans (if_pos rfl)
  have hmods := h.mods_displayed (displayed_of_editOf (by rw [hedit]; rfl))
  have hsize := h.size_le
  have hle : (s.put 0).flush.size ≤ 0x1000 := by
    simp only [Kbd.flush, Kbd.append, Kbd.put, Kbd.write]
    omega
  refine ⟨⟨hmods.lshift, hmods.rshift, hmods.capslock⟩, ?_, Nat.zero_le _, hle, fun r hr => ?_, h.used⟩
  · rw [typedBy_key, hedit, Option.elim_some, edit_enter_line]
    rfl
  · exact (h.reader r hr).mono (Nat.le_add_right _ _)

/-- **A key with room** in the buffer. -/
theorem handle_follows (h : s.Follows events) (hroom : KbdRoom events (.key key)) :
    ∃ s', exec (kbdHandleKey key) s = (some (), s') ∧ s'.Follows (events ++ [.key key]) ∧
      s'.appended = s.appended ++ if key = 0x1C then ((typedBy events).line ++ [0]).take (0x1000 - s.size) else [] := by
  obtain ⟨hk, hline⟩ := hroom
  rw [h.length] at hline
  cases hedit : editOf (upper (keysOf events)) key with
  | none =>
    have hd := editOf_eq_none hedit
    have hne : key ≠ 0x1C := fun hk => hd (hk ▸ by decide +kernel)
    obtain ⟨l, hl, hexec⟩ := handle_switch hk hd s
    refine ⟨_, hexec, (switchKey_follows h hedit).log hl [], ?_⟩
    obtain ⟨_, _, _, _, _, _, _, hframe⟩ := switchKey_frame s key
    simp [hframe, hne]
  | some x =>
    have hd : Displayed key := displayed_of_editOf (by rw [hedit]; rfl)
    cases x with
    | put c =>
      obtain ⟨hback, henter, -, -⟩ := editOf_put hedit
      obtain ⟨l, sh, hl, hexec⟩ := handle_put hk (h.mods.upper_eq ▸ hedit) (hline hd hback)
      exact ⟨_, hexec, (put_follows h hedit (hline hd hback)).log hl sh, by simp [henter, Kbd.put, Kbd.write]⟩
    | erase =>
      obtain rfl := editOf_erase hedit
      obtain ⟨l, sh, hl, hexec⟩ := handle_erase h.cursor_le
      refine ⟨_, hexec, (erase_follows h).log hl sh, ?_⟩
      rw [if_neg (by decide : (0x0E : UInt8) ≠ 0x1C), List.append_nil]
      by_cases h0 : s.keyBufCursor = 0
      · simp [h0]
      · simp [h0, Kbd.erase, Kbd.write]
    | enter =>
      obtain rfl := editOf_enter hedit
      obtain ⟨l, sh, hl, hexec⟩ := handle_enter (hline hd (by decide)) h.size_le
      refine ⟨_, hexec, (enter_follows h).log hl sh, ?_⟩
      rw [Kbd.log_appended, flush_appended, put_line, h.line, if_pos rfl]
      rfl

/-! ## Runs -/

/-- **A step** of a run with room. Only enter brings bytes to the pipe. -/
theorem step_follows (h : s.Follows events) (hroom : KbdRoom events e) :
    ∃ s', exec (kbdStep e) s = (some (), s') ∧ s'.Follows (events ++ [e]) ∧ s'.appended = s.appended ++
      if e = .key 0x1C then ((typedBy events).line ++ [0]).take (0x1000 - s.size) else [] := by
  cases e with
  | key key =>
    obtain ⟨s', hexec, hs', hbytes⟩ := handle_follows h hroom
    exact ⟨s', hexec, hs', by simpa using hbytes⟩
  | enter amount =>
    have hother := h.other (e := .enter amount) rfl
    refine ⟨_, exec_modify _ _, ?_⟩
    rw [if_neg (by simp : KbdEvent.enter amount ≠ .key 0x1C), List.append_nil]
    split_ifs
    · exact ⟨⟨⟨hother.mods.lshift, hother.mods.rshift, hother.mods.capslock⟩, hother.line, h.cursor_le, h.size_le,
        by simp [KbdReader.Fits], h.used⟩, rfl⟩
    · exact ⟨hother, rfl⟩
  | read =>
    refine ⟨_, exec_modify _ _, ?_⟩
    cases hr : s.reader with
    | none => exact ⟨h.other rfl, by simp⟩
    | some r =>
      obtain ⟨_, _, _, hframe⟩ := readStep_frame s r
      exact ⟨follows_read h hr, by simp [hframe]⟩

theorem step_stops (h : s.Follows events) (hroom : ¬ KbdRoom events e) :
    ∃ s', exec (kbdStep e) s = (none, s') ∧ ¬ InBounds s'.used := by
  cases e with
  | key key =>
    apply handle_stops
    by_contra hout
    simp only [not_or, not_and, not_le] at hout
    exact hroom ⟨hout.1, fun hd hback => h.length ▸ hout.2 hd hback⟩
  | enter amount => exact absurd trivial hroom
  | read => exact absurd trivial hroom

theorem kbdRun_append {s₀ : Kbd} (hs : kbdRun events s₀ = (some (), s)) (hs' : exec (kbdStep e) s = (some (), s')) :
    kbdRun (events ++ [e]) s₀ = (some (), s') := by
  change exec ((events ++ [e]).forM kbdStep) s₀ = _
  rw [exec_forM_append, show exec (events.forM kbdStep) s₀ = (some (), s) from hs]
  exact exec_bind_some hs'

theorem run_follows (pipeMem : Mem) (h : Every KbdRoom events) :
    ∃ s, kbdRun events (initKbd pipeMem) = (some (), s) ∧ s.Follows events :=
  exec_forM h (follows_init pipeMem) fun _ _ _ hs hroom =>
    let ⟨s', hexec, hs', _⟩ := step_follows hs hroom
    ⟨s', hexec, hs'⟩

theorem run_stops (pipeMem : Mem) (h : ¬ Every KbdRoom events) :
    ∃ s, kbdRun events (initKbd pipeMem) = (none, s) ∧ ¬ InBounds s.used :=
  exec_forM_stops h (follows_init pipeMem) (fun _ _ _ hs hroom =>
    let ⟨s', hexec, hs', _⟩ := step_follows hs hroom
    ⟨s', hexec, hs'⟩) fun _ _ _ => step_stops

/-- **Bounds**: which runs stay inside of the arrays and of the pipe, whenever the reader reads. -/
theorem kbd_bounds_iff (pipeMem : Mem) (events : List KbdEvent) :
    ((∀ a i, (a, i) ∈ (kbdRun events (initKbd pipeMem)).2.used → i < a.size) ∧
      ∀ pre, pre <+: events → (kbdRun pre (initKbd pipeMem)).2.size ≤ 0x1000) ↔
    ∀ pre key post, events = pre ++ .key key :: post →
      key ≠ 0xFF ∧ (Displayed key → key ≠ 0x0E → (typedBy pre).line.length < 0x200) := by
  have hevery : Every KbdRoom events ↔ ∀ pre key post, events = pre ++ .key key :: post →
      key ≠ 0xFF ∧ (Displayed key → key ≠ 0x0E → (typedBy pre).line.length < 0x200) := by
    refine ⟨fun h pre key post heq => h pre (.key key) post heq, fun h pre e post heq => ?_⟩
    cases e with
    | key key => exact h pre key post heq
    | enter amount => trivial
    | read => trivial
  rw [← hevery]
  constructor
  · rintro ⟨hused, -⟩
    by_contra h
    obtain ⟨s, hs, hout⟩ := run_stops pipeMem h
    rw [hs] at hused
    exact hout fun x hx => hused x.1 x.2 hx
  · intro h
    obtain ⟨s, hs, hfollows⟩ := run_follows pipeMem h
    refine ⟨fun a i hx => ?_, fun pre hpre => ?_⟩
    · rw [hs] at hx
      exact hfollows.used (a, i) hx
    · obtain ⟨s', hs', hfollows'⟩ := run_follows pipeMem (h.of_prefix hpre)
      rw [hs']
      exact hfollows'.size_le

/-- The scancode `0xFF` is looked up behind the end of `keyset1_low`. -/
theorem kbd_bounds_behind : ¬ ∀ a i, (a, i) ∈ (kbdRun [.key 0xFF] (initKbd fun _ => 0)).2.used → i < a.size := by
  intro h
  exact absurd (h .keyset1Low 0xFF (by decide +kernel)) (by decide)

theorem typedBy_wire (events : List KbdEvent) (e : KbdEvent) : (typedBy (events ++ [e])).wire 0 =
    (typedBy events).wire 0 ++ if e = .key 0x1C then (typedBy events).line ++ [0] else [] := by
  cases e with
  | key key =>
    rw [typedBy_key]
    cases hedit : editOf (upper (keysOf events)) key with
    | none =>
      have hne : key ≠ 0x1C := fun hk => editOf_eq_none hedit (hk ▸ by decide +kernel)
      simp [hne]
    | some x =>
      cases x with
      | put c => simp [(editOf_put hedit).2.1]
      | erase => simp [editOf_erase hedit]
      | enter => simp [editOf_enter hedit]
  | enter amount => simp [typedBy, keysOf]
  | read => simp [typedBy, keysOf]

/-- **Lines**: the pipe gets the lines that were typed, in their order, each with a zero behind it. -/
theorem kbd_lines (pipeMem : Mem) (events : List KbdEvent) (hkeys : ∀ key, .key key ∈ events → key < 0xFF)
    (hline : ∀ pre, pre <+: events → (typedBy pre).line.length ≤ 511)
    (hroom : ∀ pre post, events = pre ++ .key 0x1C :: post →
      (kbdRun pre (initKbd pipeMem)).2.size + (typedBy pre).line.length + 1 ≤ 0x1000) :
    (kbdRun events (initKbd pipeMem)).1 = some () ∧
      (kbdRun events (initKbd pipeMem)).2.appended = (typedBy events).wire 0 := by
  have hevery : Every KbdRoom events := by
    intro pre e post heq
    cases e with
    | key key =>
      have hlt : key < 0xFF := hkeys key (by simp [heq])
      have hpre : (typedBy pre).line.length ≤ 511 := hline pre ⟨_, heq.symm⟩
      refine ⟨?_, fun _ _ => by omega⟩
      rintro rfl
      exact absurd hlt (by decide)
    | enter amount => trivial
    | read => trivial
  clear hkeys hline
  induction events using List.reverseRecOn with
  | nil => exact ⟨rfl, by simp [kbdRun, initKbd, typedBy, keysOf, Typed.wire]; rfl⟩
  | append_singleton events e ih =>
    obtain ⟨hbefore, he⟩ := every_append.1 hevery
    obtain ⟨-, hbytes⟩ := ih (fun pre post heq => hroom pre (post ++ [e]) (by simp [heq])) hbefore
    obtain ⟨s, hs, hfollows⟩ := run_follows pipeMem hbefore
    obtain ⟨s', hs', -, hnew⟩ := step_follows hfollows he
    rw [hs] at hbytes
    rw [kbdRun_append hs hs']
    refine ⟨rfl, ?_⟩
    rw [hnew, hbytes, typedBy_wire]
    split_ifs with henter
    · have hfit := hroom events [] (by simp [henter])
      simp only [hs] at hfit
      rw [List.take_of_length_le (by simp; omega)]
    · rfl

/-- Two letters, a large one and a small one, are erased; the third backspace has nothing to erase, and a reader comes. -/
def erasedKeys : List KbdEvent :=
  [.key 0x2A, .key 0x26, .key 0xAA, .key 0x1F, .key 0x0E, .key 0x0E, .key 0x0E, .key 0x1F, .key 0x1C, .enter 1, .read]

theorem kbd_lines_erased : (kbdRun erasedKeys (initKbd fun _ => 0)).2.appended = [0x73, 0] := by
  have hinits : ∀ pre ∈ erasedKeys.inits, (typedBy pre).line.length ≤ 511 ∧
      (kbdRun pre (initKbd fun _ => 0)).2.size + (typedBy pre).line.length + 1 ≤ 0x1000 := by
    decide +kernel
  have hkeys : ∀ e ∈ erasedKeys, ∀ key, e = .key key → key < 0xFF := by simp [erasedKeys]
  have htyped : (typedBy erasedKeys).wire 0 = [0x73, 0] := by decide +kernel
  rw [← htyped]
  exact (kbd_lines (fun _ => 0) erasedKeys (fun key hkey => hkeys _ hkey key rfl)
    (fun pre hpre => (hinits pre ((List.mem_inits _ _).2 hpre)).1)
    fun pre post heq => (hinits pre ((List.mem_inits _ _).2 ⟨_, heq.symm⟩)).2).2

end Nettapus
