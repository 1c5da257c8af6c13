import Nettapus.Code.Kbd
import Nettapus.Lib.LineEdit
import Nettapus.Lib.Stops

/-!
# A key at the keyboard

What a key means for the line is `editOf`, once it is known whether letters are large; `keyEdits` is what a sequence of keys
means, with the shift keys and caps lock at their places in it. `handle_switch`, `handle_put`, `handle_erase` and
`handle_enter` are what `kbd_handle_key` does, by the meaning of the key, and `handle_stops` is when it goes outside of an
array.
-/

namespace Nettapus

open Bytes LineEdit Stops

variable {s s' : Kbd} {key c : UInt8} {keys : List UInt8} {a : KbdArray} {i n : ℕ} {up : Bool}

/-! ## What a key means -/

/-- The last one of the two scancodes is the one of the press. -/
def held (pressed released : UInt8) (keys : List UInt8) : Bool :=
  keys.reverse.find? (fun k => k = pressed ∨ k = released) = some pressed

/-- Every press of caps lock turns it over. -/
def capsOn (keys : List UInt8) : Bool := keys.count KBD_CAPSLOCK_PRESSED % 2 = 1

def upper (keys : List UInt8) : Bool :=
  held KBD_LSHIFT_PRESSED KBD_LSHIFT_RELEASED keys || held KBD_RSHIFT_PRESSED KBD_RSHIFT_RELEASED keys || capsOn keys

def Displayed (key : UInt8) : Prop :=
  KbdArray.keyset1Low.byte key.toNat ≠ 0x23 ∧ KbdArray.keyset1Low.byte key.toNat ≠ 0x2A ∧
    KbdArray.keyset1Low.byte key.toNat ≠ 0

instance : Decidable (Displayed key) := inferInstanceAs (Decidable (_ ∧ _ ∧ _))

/-- What the key does to the line. Backspace has the scancode `0x0E`, and enter `0x1C`. -/
def editOf (up : Bool) (key : UInt8) : Option (Edit UInt8) :=
  if key = 0x0E then some .erase
  else if key = 0x1C then some .enter
  else if Displayed key then
    some (.put (if up then KbdArray.keyset1Up.byte key.toNat else KbdArray.keyset1Low.byte key.toNat))
  else none

/-- What the keys mean that come after others. -/
def keyEditsFrom (before : List UInt8) : List UInt8 → List (Edit UInt8)
  | [] => []
  | key :: keys => (editOf (upper before) key).toList ++ keyEditsFrom (before ++ [key]) keys

/-- **What the keys mean**, with no modifier held at first. -/
def keyEdits (keys : List UInt8) : List (Edit UInt8) := keyEditsFrom [] keys

theorem keyEditsFrom_append (before keys : List UInt8) (key : UInt8) :
    keyEditsFrom before (keys ++ [key]) = keyEditsFrom before keys ++ (editOf (upper (before ++ keys)) key).toList := by
  induction keys generalizing before with
  | nil => simp [keyEditsFrom]
  | cons k keys ih => simp [keyEditsFrom, ih]

@[simp] theorem keyEdits_nil : keyEdits [] = [] := by simp [keyEdits, keyEditsFrom]

theorem keyEdits_append (keys : List UInt8) (key : UInt8) :
    keyEdits (keys ++ [key]) = keyEdits keys ++ (editOf (upper keys) key).toList := by
  simp [keyEdits, keyEditsFrom_append]

theorem held_append (pressed released : UInt8) (keys : List UInt8) (key : UInt8) :
    held pressed released (keys ++ [key]) =
      if key = pressed then true else if key = released then false else held pressed released keys := by
  by_cases hp : key = pressed
  · simp [held, hp]
  · by_cases hr : key = released
    · subst hr
      simp [held, hp]
    · simp [held, hp, hr]

theorem capsOn_append (keys : List UInt8) (key : UInt8) :
    capsOn (keys ++ [key]) = if key = KBD_CAPSLOCK_PRESSED then !capsOn keys else capsOn keys := by
  by_cases hk : key = KBD_CAPSLOCK_PRESSED
  · simp only [capsOn, List.count_append, hk, List.count_singleton_self, if_true]
    rcases Nat.mod_two_eq_zero_or_one (keys.count KBD_CAPSLOCK_PRESSED) with h | h <;> simp [h, Nat.add_mod]
  · simp [capsOn, List.count_append, hk]

/-! ## The tables -/

/-- The scancodes that the `switch` has a case for. -/
def switchKeys : List UInt8 :=
  [KBD_LCTRL_PRESSED, KBD_LCTRL_RELEASED, KBD_LSHIFT_PRESSED, KBD_LSHIFT_RELEASED, KBD_RSHIFT_PRESSED,
    KBD_RSHIFT_RELEASED, KBD_LALT_PRESSED, KBD_LALT_RELEASED, KBD_CAPSLOCK_PRESSED, KBD_NUMLOCK_PRESSED,
    KBD_SCROLLLOCK_PRESSED]

/-- The three tables agree on the keys that are not displayed, and on backspace and enter. -/
theorem keyset_spec (key : UInt8) :
    (KbdArray.keyset1.byte key.toNat = 0 ↔ KbdArray.keyset1Low.byte key.toNat = 0) ∧
    (KbdArray.keyset1Up.byte key.toNat = 0x08 ↔ key = 0x0E) ∧ (KbdArray.keyset1Up.byte key.toNat = 0x0A ↔ key = 0x1C) ∧
    (key ∈ switchKeys → KbdArray.keyset1Low.byte key.toNat = 0x2A ∨ KbdArray.keyset1Low.byte key.toNat = 0) := by
  have h : ∀ i : Fin 256,
      (KbdArray.keyset1.byte (UInt8.ofFin i).toNat = 0 ↔ KbdArray.keyset1Low.byte (UInt8.ofFin i).toNat = 0) ∧
      (KbdArray.keyset1Up.byte (UInt8.ofFin i).toNat = 0x08 ↔ UInt8.ofFin i = 0x0E) ∧
      (KbdArray.keyset1Up.byte (UInt8.ofFin i).toNat = 0x0A ↔ UInt8.ofFin i = 0x1C) ∧
      (UInt8.ofFin i ∈ switchKeys → KbdArray.keyset1Low.byte (UInt8.ofFin i).toNat = 0x2A ∨
        KbdArray.keyset1Low.byte (UInt8.ofFin i).toNat = 0) := by
    decide +kernel
  exact h key.toFin

/-- No key that is displayed is one of a modifier, and none of the keys that do nothing. -/
theorem notMem_switchKeys (h : Displayed key ∨ KbdArray.keyset1Low.byte key.toNat = 0x23) : key ∉ switchKeys := by
  intro hmem
  rcases (keyset_spec key).2.2.2 hmem with hlow | hlow
  · simp [Displayed, hlow] at h
  · simp [Displayed, hlow] at h

theorem editOf_eq_none (h : editOf up key = none) : ¬ Displayed key := by
  intro hd
  simp only [editOf, hd, if_true] at h
  split_ifs at h

theorem editOf_erase (h : editOf up key = some .erase) : key = 0x0E := by
  simp only [editOf] at h
  split_ifs at h <;> simp_all

theorem editOf_enter (h : editOf up key = some .enter) : key = 0x1C := by
  simp only [editOf] at h
  split_ifs at h <;> simp_all

theorem editOf_put (h : editOf up key = some (.put c)) : key ≠ 0x0E ∧ key ≠ 0x1C ∧ Displayed key ∧
    c = if up then KbdArray.keyset1Up.byte key.toNat else KbdArray.keyset1Low.byte key.toNat := by
  simp only [editOf] at h
  split_ifs at h <;> simp_all

/-- Backspace and enter are not among the keys that are not displayed. -/
theorem displayed_of_editOf (h : (editOf up key).isSome) : Displayed key := by
  by_contra hd
  simp only [editOf, hd, if_false] at h
  split_ifs at h with h1 h2
  · exact hd (h1 ▸ by decide +kernel)
  · exact hd (h2 ▸ by decide +kernel)
  · simp at h

/-! ## The modifiers -/

/-- The variables of the driver are as the keys that came say. -/
structure Kbd.Mods (s : Kbd) (keys : List UInt8) : Prop where
  lshift : s.lshift = held KBD_LSHIFT_PRESSED KBD_LSHIFT_RELEASED keys
  rshift : s.rshift = held KBD_RSHIFT_PRESSED KBD_RSHIFT_RELEASED keys
  capslock : s.capslock = capsOn keys

theorem Kbd.Mods.upper_eq (h : s.Mods keys) : (s.lshift || s.rshift || s.capslock) = upper keys := by
  rw [h.lshift, h.rshift, h.capslock, upper]

theorem mods_init (pipeMem : Mem) : (initKbd pipeMem).Mods [] := by
  constructor <;> simp [initKbd, held, capsOn]

theorem switchKey_of_notMem (h : key ∉ switchKeys) : s.switchKey key = s := by
  simp only [switchKeys, List.mem_cons, not_or] at h
  simp [Kbd.switchKey, h]

theorem Kbd.Mods.switchKey (h : s.Mods keys) (key : UInt8) : (s.switchKey key).Mods (keys ++ [key]) := by
  by_cases hk : key ∈ switchKeys
  · -- the one case of the `switch` that is left is the one of the key
    simp only [switchKeys, List.mem_cons, List.not_mem_nil, or_false] at hk
    constructor
    · rw [held_append, ← h.lshift]
      rcases hk with rfl | rfl | rfl | rfl | rfl | rfl | rfl | rfl | rfl | rfl | rfl <;> rfl
    · rw [held_append, ← h.rshift]
      rcases hk with rfl | rfl | rfl | rfl | rfl | rfl | rfl | rfl | rfl | rfl | rfl <;> rfl
    · rw [capsOn_append, ← h.capslock]
      rcases hk with rfl | rfl | rfl | rfl | rfl | rfl | rfl | rfl | rfl | rfl | rfl <;> rfl
  · rw [switchKey_of_notMem hk]
    simp only [switchKeys, List.mem_cons, List.not_mem_nil, or_false, not_or] at hk
    constructor
    · simp [held_append, hk, h.lshift]
    · simp [held_append, hk, h.rshift]
    · simp [capsOn_append, hk, h.capslock]

/-- The `switch` only changes the modifiers. -/
theorem switchKey_frame (s : Kbd) (key : UInt8) : ∃ lshift rshift lctrl lalt capslock numlock scrolllock,
    s.switchKey key = { s with lshift, rshift, lctrl, lalt, capslock, numlock, scrolllock } := by
  by_cases hk : key ∈ switchKeys
  · simp only [switchKeys, List.mem_cons, List.not_mem_nil, or_false] at hk
    rcases hk with rfl | rfl | rfl | rfl | rfl | rfl | rfl | rfl | rfl | rfl | rfl <;> exact ⟨_, _, _, _, _, _, _, rfl⟩
  · rw [switchKey_of_notMem hk]
    exact ⟨_, _, _, _, _, _, _, rfl⟩

/-! ## Steps of the driver -/

/-- The accesses are inside of their arrays. -/
def InBounds (l : List (KbdArray × ℕ)) : Prop := ∀ x ∈ l, x.2 < x.1.size

/-- More accesses and more characters on the screen. -/
@[simps]
def Kbd.log (s : Kbd) (l : List (KbdArray × ℕ)) (sh : List UInt8) : Kbd :=
  { s with used := s.used ++ l, shown := s.shown ++ sh }

@[simp] theorem log_log (s : Kbd) (l l' : List (KbdArray × ℕ)) (sh sh' : List UInt8) :
    (s.log l sh).log l' sh' = s.log (l ++ l') (sh ++ sh') := by
  simp [Kbd.log]

/-- A byte of the buffer is written. -/
def Kbd.write (s : Kbd) (i : ℕ) (c : UInt8) : Kbd := { s with keyBuf := Function.update s.keyBuf i c }

/-- A character goes to the end of the buffer. -/
def Kbd.put (s : Kbd) (c : UInt8) : Kbd := { s.write s.keyBufCursor c with keyBufCursor := s.keyBufCursor + 1 }

/-- The last character is taken out of the buffer. -/
def Kbd.erase (s : Kbd) : Kbd := { s.write (s.keyBufCursor - 1) 0 with keyBufCursor := s.keyBufCursor - 1 }

/-- The line goes to the pipe as far as there is room for it. -/
def Kbd.flush (s : Kbd) : Kbd := { s.append (min s.keyBufCursor (0x1000 - s.size)) with keyBufCursor := 0 }

theorem write_log (s : Kbd) (i : ℕ) (c : UInt8) (l : List (KbdArray × ℕ)) (sh : List UInt8) :
    (s.log l sh).write i c = (s.write i c).log l sh := by
  simp [Kbd.write, Kbd.log]

theorem put_log (s : Kbd) (c : UInt8) (l : List (KbdArray × ℕ)) (sh : List UInt8) :
    (s.log l sh).put c = (s.put c).log l sh := by
  simp [Kbd.put, Kbd.write, Kbd.log]

theorem erase_log (s : Kbd) (l : List (KbdArray × ℕ)) (sh : List UInt8) : (s.log l sh).erase = s.erase.log l sh := by
  simp [Kbd.erase, Kbd.write, Kbd.log]

theorem flush_log (s : Kbd) (l : List (KbdArray × ℕ)) (sh : List UInt8) : (s.log l sh).flush = s.flush.log l sh :=
  rfl

/-- The last character is written over. -/
theorem write_put (s : Kbd) (c d : UInt8) : (s.put c).write s.keyBufCursor d = s.put d := by
  simp [Kbd.put, Kbd.write]

@[simp] theorem inBounds_nil : InBounds [] := by simp [InBounds]

@[simp] theorem inBounds_append {l l' : List (KbdArray × ℕ)} : InBounds (l ++ l') ↔ InBounds l ∧ InBounds l' := by
  simp [InBounds, or_imp, forall_and]

@[simp] theorem inBounds_cons {l : List (KbdArray × ℕ)} : InBounds ((a, i) :: l) ↔ i < a.size ∧ InBounds l := by
  simp [InBounds]

theorem size_table (ha : a ≠ .keyBuf) : a.size = 0xFF := by
  cases a <;> simp_all [KbdArray.size]

/-- Only the scancode `0xFF` is behind the end of a table. -/
theorem inBounds_table (ha : a ≠ .keyBuf) (hk : key ≠ 0xFF) : key.toNat < a.size := by
  have hlt := key.toNat_lt
  have hne : key.toNat ≠ 0xFF := fun h => hk (UInt8.toNat_inj.1 h)
  rw [size_table ha]
  omega

theorem exec_index (h : i < a.size) (s : Kbd) : exec (index a i) s = (some (), s.log [(a, i)] []) := by
  simp [index, h, Kbd.log]

theorem exec_index_stops (h : a.size ≤ i) (s : Kbd) : exec (index a i) s = (none, s.log [(a, i)] []) := by
  simp [index, exec_bind, Nat.not_lt.2 h, Kbd.log]

theorem exec_readKeyset (ha : a ≠ .keyBuf) (hk : key ≠ 0xFF) (s : Kbd) :
    exec (readKeyset a key) s = (some (a.byte key.toNat), s.log [(a, key.toNat)] []) := by
  rw [readKeyset, exec_bind_some (exec_index (inBounds_table ha hk) s), exec_pure]

theorem exec_writeKeyBuf (h : i < 0x200) (c : UInt8) (s : Kbd) : exec (writeKeyBuf i c) s =
    (some (), (s.write i c).log [(.keyBuf, i)] []) := by
  rw [writeKeyBuf, exec_bind_some (exec_index h s), exec_modify]
  simp [Kbd.log, Kbd.write]

theorem exec_writeKeyBuf_stops (h : 0x200 ≤ i) (c : UInt8) (s : Kbd) :
    exec (writeKeyBuf i c) s = (none, s.log [(.keyBuf, i)] []) := by
  rw [writeKeyBuf, exec_bind_none (exec_index_stops h s)]

theorem exec_isSpecial (hk : key ≠ 0xFF) (s : Kbd) : ∃ l, InBounds l ∧ exec (isSpecial key) s =
    (some (decide (KbdArray.keyset1Low.byte key.toNat = 0x2A ∨ KbdArray.keyset1Low.byte key.toNat = 0)), s.log l []) := by
  have hlow : key.toNat < KbdArray.keyset1Low.size := inBounds_table (by simp) hk
  have hset : key.toNat < KbdArray.keyset1.size := inBounds_table (by simp) hk
  rw [isSpecial, exec_bind_some (exec_readKeyset (by simp) hk s)]
  by_cases hstar : KbdArray.keyset1Low.byte key.toNat = 0x2A
  · exact ⟨[(.keyset1Low, key.toNat)], by simp [hlow], by simp [hstar]⟩
  · rw [if_neg hstar, exec_bind_some (exec_readKeyset (by simp) hk _)]
    refine ⟨[(.keyset1Low, key.toNat), (.keyset1, key.toNat)], by simp [hlow, hset], ?_⟩
    simp [hstar, (keyset_spec key).1]

theorem switchKey_log (s : Kbd) (l : List (KbdArray × ℕ)) (sh : List UInt8) :
    (s.log l sh).switchKey key = (s.switchKey key).log l sh := by
  simp only [Kbd.switchKey, apply_ite (Kbd.log · l sh)]
  simp only [Kbd.log]

/-- **A key that is not displayed** changes modifiers at most. -/
theorem handle_switch (hk : key ≠ 0xFF) (hd : ¬ Displayed key) (s : Kbd) : ∃ l, InBounds l ∧
    exec (kbdHandleKey key) s = (some (), (s.switchKey key).log l []) := by
  have hlow : key.toNat < KbdArray.keyset1Low.size := inBounds_table (by simp) hk
  rw [kbdHandleKey, exec_bind_some (exec_readKeyset (by simp) hk s)]
  by_cases hhash : KbdArray.keyset1Low.byte key.toNat = 0x23
  · rw [switchKey_of_notMem (notMem_switchKeys (.inr hhash))]
    exact ⟨[(.keyset1Low, key.toNat)], by simp [hlow], by simp [hhash]⟩
  · obtain ⟨l, hl, hspecial⟩ := exec_isSpecial hk (s.log [(.keyset1Low, key.toNat)] [])
    rw [if_neg hhash, exec_bind_some hspecial, if_pos (by simpa [Displayed, hhash, imp_iff_not_or] using hd),
      exec_modify]
    exact ⟨(.keyset1Low, key.toNat) :: l, by simp [hlow, hl], by simp [switchKey_log]⟩

/-- The way to the line of a key that is displayed. -/
theorem handle_displayed (hk : key ≠ 0xFF) (hd : Displayed key) (s : Kbd) : ∃ l, InBounds l ∧
    exec (kbdHandleKey key) s = exec (do
      typeKey key
      if (← readKeyset .keyset1Up key) = 0x0A then
        let s ← MonadState.get
        writeKeyBuf (sub64 s.keyBufCursor 1) 0
        kbdFlush) (s.log l []) := by
  have hlow : key.toNat < KbdArray.keyset1Low.size := inBounds_table (by simp) hk
  obtain ⟨l, hl, hspecial⟩ := exec_isSpecial hk (s.log [(.keyset1Low, key.toNat)] [])
  rw [kbdHandleKey, exec_bind_some (exec_readKeyset (by simp) hk s), if_neg hd.1, exec_bind_some hspecial,
    if_neg (by simp [hd.2.1, hd.2.2])]
  exact ⟨(.keyset1Low, key.toNat) :: l, by simp [hlow, hl], by simp⟩

/-- The table that the characters are taken from. -/
def Kbd.keyset (s : Kbd) : KbdArray := if s.lshift || s.rshift || s.capslock then .keyset1Up else .keyset1Low

theorem keyset_ne (s : Kbd) : s.keyset ≠ .keyBuf := by
  simp only [Kbd.keyset]
  split_ifs <;> simp

@[simp] theorem keyset_log (s : Kbd) (l : List (KbdArray × ℕ)) (sh : List UInt8) : (s.log l sh).keyset = s.keyset := by
  simp [Kbd.keyset]

theorem exec_putKey (ha : a ≠ .keyBuf) (hk : key ≠ 0xFF) (hc : s.keyBufCursor < 0x200) : ∃ l, InBounds l ∧
    exec (putKey a key) s = (some (), (s.put (a.byte key.toNat)).log l [a.byte key.toNat]) := by
  have hkey : key.toNat < a.size := inBounds_table ha hk
  have hbuf : s.keyBufCursor < KbdArray.keyBuf.size := hc
  rw [putKey, exec_bind_some (exec_readKeyset ha hk s), exec_bind_some (exec_get _),
    exec_bind_some (exec_writeKeyBuf (by simpa using hc) _ _), exec_bind_some (exec_modify _ _),
    exec_bind_some (exec_readKeyset ha hk _), kputc, exec_modify]
  refine ⟨[(a, key.toNat), (.keyBuf, s.keyBufCursor), (a, key.toNat)], by simp [hkey, hbuf], ?_⟩
  simp [Kbd.log, Kbd.put, Kbd.write]

theorem exec_putKey_stops (ha : a ≠ .keyBuf) (hk : key ≠ 0xFF) (hc : 0x200 ≤ s.keyBufCursor) :
    ∃ s', exec (putKey a key) s = (none, s') ∧ ¬ InBounds s'.used := by
  rw [putKey, exec_bind_some (exec_readKeyset ha hk s), exec_bind_some (exec_get _),
    exec_bind_none (exec_writeKeyBuf_stops (by simpa using hc) _ _)]
  exact ⟨_, rfl, by simp [KbdArray.size, hc]⟩

/-- A key other than backspace is put into the buffer. -/
theorem typeKey_put (hk : key ≠ 0xFF) (he : key ≠ 0x0E) (s : Kbd) : ∃ l, InBounds l ∧
    exec (typeKey key) s = exec (putKey s.keyset key) (s.log l []) := by
  have hup : key.toNat < KbdArray.keyset1Up.size := inBounds_table (by simp) hk
  have hne : KbdArray.keyset1Up.byte key.toNat ≠ 0x08 := fun h => he ((keyset_spec key).2.1.1 h)
  rw [typeKey, exec_bind_some (exec_get s), exec_bind_some (exec_readKeyset (by simp) hk s), if_neg (by simp [hne]),
    exec_bind_some (exec_readKeyset (by simp) hk _), if_neg hne]
  refine ⟨[(.keyset1Up, key.toNat), (.keyset1Up, key.toNat)], by simp [hup], ?_⟩
  simp only [Kbd.keyset]
  split_ifs <;> simp

/-- Backspace takes the last character out of the buffer, if there is one. -/
theorem typeKey_erase (hc : s.keyBufCursor ≤ 0x200) : ∃ l sh, InBounds l ∧
    exec (typeKey 0x0E) s = (some (), (if s.keyBufCursor = 0 then s else s.erase).log l sh) := by
  have hup : (0x0E : UInt8).toNat < KbdArray.keyset1Up.size := by decide
  have heq : KbdArray.keyset1Up.byte (0x0E : UInt8).toNat = 0x08 := (keyset_spec 0x0E).2.1.2 rfl
  rw [typeKey, exec_bind_some (exec_get s), exec_bind_some (exec_readKeyset (by simp) (by decide) s)]
  by_cases h0 : s.keyBufCursor = 0
  · rw [if_neg (by simp [h0]), exec_bind_some (exec_readKeyset (by simp) (by decide) _), if_pos heq, exec_pure]
    exact ⟨[(.keyset1Up, 0x0E), (.keyset1Up, 0x0E)], [], by simpa using hup, by simp [h0]⟩
  · have hlt : s.keyBufCursor - 1 < 0x200 := by omega
    rw [if_pos ⟨heq, h0⟩, exec_bind_some (exec_modify _ _), exec_bind_some (exec_writeKeyBuf hlt _ _), kputc, exec_modify]
    refine ⟨[(.keyset1Up, 0x0E), (.keyBuf, s.keyBufCursor - 1)], [0x08], ?_, ?_⟩
    · simp only [inBounds_cons, inBounds_nil, and_true]
      exact ⟨hup, hlt⟩
    · simp [h0, Kbd.log, Kbd.erase, Kbd.write]

/-- The accesses of the loop that copies out of the buffer. -/
theorem exec_readKeyBuf (l : List ℕ) (hl : ∀ i ∈ l, i < 0x200) (s : Kbd) :
    exec (l.forM (index .keyBuf)) s = (some (), s.log (l.map fun i => (.keyBuf, i)) []) := by
  induction l generalizing s with
  | nil => simp [Kbd.log]
  | cons i l ih =>
    obtain ⟨hi, hl⟩ := List.forall_mem_cons.1 hl
    rw [exec_forM_cons _ l (exec_index hi s), ih hl]
    simp

theorem exec_kbdFlush (h0 : s.keyBufCursor ≠ 0) (hc : s.keyBufCursor ≤ 0x200) (hs : s.size ≤ 0x1000) :
    ∃ l, InBounds l ∧ exec kbdFlush s = (some (), s.flush.log l []) := by
  have hcpy : (if u64 (s.size + s.keyBufCursor) > 0x1000 then sub64 0x1000 s.size else s.keyBufCursor) =
      min s.keyBufCursor (0x1000 - s.size) := by
    rw [u64_of_lt (by omega), sub64_of_le hs (by omega)]
    split_ifs <;> omega
  have hin : ∀ i ∈ List.range (min s.keyBufCursor (0x1000 - s.size)), i < 0x200 := by
    intro i hi
    have := List.mem_range.1 hi
    omega
  rw [kbdFlush, exec_bind_some (exec_get s), if_pos h0, hcpy, exec_bind_some (exec_readKeyBuf _ hin s),
    exec_bind_some (exec_modify _ _), exec_modify]
  refine ⟨_, ?_, by simp [Kbd.log, Kbd.flush, Kbd.append]; rfl⟩
  intro x hx
  obtain ⟨i, hi, rfl⟩ := List.mem_map.1 hx
  exact hin i hi

/-! ## `kbd_handle_key` -/

/-- **A character** goes to the end of the line. -/
theorem handle_put (hk : key ≠ 0xFF) (he : editOf (s.lshift || s.rshift || s.capslock) key = some (.put c))
    (hc : s.keyBufCursor < 0x200) :
    ∃ l sh, InBounds l ∧ exec (kbdHandleKey key) s = (some (), (s.put c).log l sh) := by
  obtain ⟨hback, henter, hd, hchar⟩ := editOf_put he
  have hup : key.toNat < KbdArray.keyset1Up.size := inBounds_table (by simp) hk
  have hbyte : s.keyset.byte key.toNat = c := by
    rw [hchar, Kbd.keyset]
    split_ifs <;> rfl
  obtain ⟨l, hl, hway⟩ := handle_displayed hk hd s
  obtain ⟨l', hl', htype⟩ := typeKey_put hk hback (s.log l [])
  obtain ⟨l'', hl'', hput⟩ := exec_putKey (keyset_ne (s.log l [])) hk
    (show ((s.log l []).log l' []).keyBufCursor < 0x200 by simpa using hc)
  rw [hput] at htype
  rw [hway, exec_bind_some htype, exec_bind_some (exec_readKeyset (by simp) hk _),
    if_neg fun h => henter ((keyset_spec key).2.2.1.1 h), exec_pure]
  refine ⟨l ++ (l' ++ (l'' ++ [(.keyset1Up, key.toNat)])), [c], by simp [*], ?_⟩
  rw [keyset_log, hbyte]
  simp [put_log]

/-- **Backspace** takes the last character out of the line, if there is one. -/
theorem handle_erase (hc : s.keyBufCursor ≤ 0x200) : ∃ l sh, InBounds l ∧
    exec (kbdHandleKey 0x0E) s = (some (), (if s.keyBufCursor = 0 then s else s.erase).log l sh) := by
  have hup : (0x0E : UInt8).toNat < KbdArray.keyset1Up.size := by decide
  obtain ⟨l, hl, hway⟩ := handle_displayed (show (0x0E : UInt8) ≠ 0xFF by decide) (by decide +kernel) s
  obtain ⟨l', sh, hl', htype⟩ := typeKey_erase (s := s.log l []) (by simpa using hc)
  rw [hway, exec_bind_some htype, exec_bind_some (exec_readKeyset (by simp) (by decide) _),
    if_neg fun h => absurd ((keyset_spec 0x0E).2.2.1.1 h) (by decide), exec_pure]
  refine ⟨l ++ (l' ++ [(.keyset1Up, 0x0E)]), sh, by simpa [hl, hl'] using hup, ?_⟩
  by_cases h0 : s.keyBufCursor = 0
  · simp [h0, Kbd.log]
  · simp [h0, erase_log]

/-- **Enter** gives the line to the pipe, with a zero behind it. -/
theorem handle_enter (hc : s.keyBufCursor < 0x200) (hs : s.size ≤ 0x1000) : ∃ l sh, InBounds l ∧
    exec (kbdHandleKey 0x1C) s = (some (), (s.put 0).flush.log l sh) := by
  have hup : (0x1C : UInt8).toNat < KbdArray.keyset1Up.size := by decide
  obtain ⟨l, hl, hway⟩ := handle_displayed (show (0x1C : UInt8) ≠ 0xFF by decide) (by decide +kernel) s
  obtain ⟨l', hl', htype⟩ := typeKey_put (show (0x1C : UInt8) ≠ 0xFF by decide) (by decide) (s.log l [])
  obtain ⟨l'', hl'', hput⟩ := exec_putKey (keyset_ne (s.log l [])) (show (0x1C : UInt8) ≠ 0xFF by decide)
    (show ((s.log l []).log l' []).keyBufCursor < 0x200 by simpa using hc)
  rw [hput] at htype
  rw [hway, exec_bind_some htype, exec_bind_some (exec_readKeyset (by simp) (by decide) _),
    if_pos ((keyset_spec 0x1C).2.2.1.2 rfl), exec_bind_some (exec_get _)]
  -- the newline is at the end of the buffer, and a zero is written over it
  have hsub : sub64 (s.keyBufCursor + 1) 1 = s.keyBufCursor := by
    rw [sub64_of_le (by omega) (by omega), Nat.add_sub_cancel]
  have hcur : (((s.log l []).log l' []).put ((s.log l []).keyset.byte (0x1C : UInt8).toNat)).keyBufCursor =
      s.keyBufCursor + 1 := by
    simp [Kbd.put]
  simp only [Kbd.log_keyBufCursor]
  rw [hcur, hsub, exec_bind_some (exec_writeKeyBuf hc 0 _)]
  simp only [log_log, put_log, write_log, write_put, List.append_nil, List.nil_append]
  obtain ⟨l₁, hl₁, hflush⟩ := exec_kbdFlush (s := (s.put 0).log _ _) (Nat.succ_ne_zero _) (Nat.succ_le_iff.2 hc) hs
  rw [hflush, flush_log, log_log]
  have hbuf : s.keyBufCursor < KbdArray.keyBuf.size := hc
  exact ⟨_, _, by simpa [hl, hl', hl'', hl₁, hbuf] using hup, rfl⟩

/-- **A key that goes outside** of an array: one that is not in the tables, or any one for a full buffer. -/
theorem handle_stops (h : key = 0xFF ∨ Displayed key ∧ key ≠ 0x0E ∧ 0x200 ≤ s.keyBufCursor) :
    ∃ s', exec (kbdHandleKey key) s = (none, s') ∧ ¬ InBounds s'.used := by
  by_cases hk : key = 0xFF
  · subst hk
    refine ⟨s.log [(.keyset1Low, 0xFF)] [], ?_, by simp [KbdArray.size]⟩
    exact exec_bind_none (exec_bind_none (exec_index_stops (by decide) s))
  · obtain ⟨hd, hback, hc⟩ := h.resolve_left hk
    obtain ⟨l, -, hway⟩ := handle_displayed hk hd s
    obtain ⟨l', -, htype⟩ := typeKey_put hk hback (s.log l [])
    obtain ⟨s', hput, hs'⟩ := exec_putKey_stops (keyset_ne (s.log l [])) hk
      (show 0x200 ≤ ((s.log l []).log l' []).keyBufCursor by simpa using hc)
    rw [hput] at htype
    exact ⟨s', by rw [hway, exec_bind_none htype], hs'⟩

end Nettapus
