import Mathlib.Algebra.Ring.Int.Defs
import Mathlib.Data.List.Basic
import Mathlib.Logic.Function.Basic
import Mathlib.Tactic.Common
import Nettapus.Lib.Simulation

/-!
# Files of fixed length, and numbered handles

A file is a list, and an owner has handles: a handle is a file and a position in it. `Step` says what calls of the owners do,
one after the other, and what they report. A call may fail, but a read or a write does so only when the file is not
`sound` at that moment; a write that fails has written a beginning of what it should.

`written_read` is the law of a store: what was written is read, by every owner, as long as the file is as it was.
-/

namespace FileStore

/-! ## Parts of a list -/

section Lists

variable {β : Type*} {l w : List β} {off q k : ℕ}

/-- The `n` elements from `off` on. -/
def slice (l : List β) (off n : ℕ) : List β := (l.drop off).take n

theorem length_slice : (slice l off k).length = min k (l.length - off) := by
  unfold slice
  rw [List.length_take, List.length_drop]

theorem slice_length_self : slice l off (slice l off k).length = slice l off k := by
  unfold slice
  rw [List.length_take, ← List.take_eq_take_min]

/-- `w` is written over the list at `off`. -/
def splice (l : List β) (off : ℕ) (w : List β) : List β := l.take off ++ w ++ l.drop (off + w.length)

theorem getElem?_splice (h : off + w.length ≤ l.length) (i : ℕ) :
    (splice l off w)[i]? = if off ≤ i ∧ i < off + w.length then w[i - off]? else l[i]? := by
  have hlen : (l.take off).length = off := List.length_take_of_le (by omega)
  unfold splice
  rcases Nat.lt_or_ge i off with h1 | h1
  · rw [if_neg (by omega), List.append_assoc, List.getElem?_append_left (by omega), List.getElem?_take, if_pos h1]
  rcases Nat.lt_or_ge i (off + w.length) with h2 | h2
  · rw [if_pos ⟨h1, h2⟩, List.append_assoc, List.getElem?_append_right (by omega), hlen,
      List.getElem?_append_left (by omega)]
  · rw [if_neg (by omega), List.getElem?_append_right (by rw [List.length_append]; omega), List.getElem?_drop,
      List.length_append, hlen]
    congr 1
    omega

end Lists

/-! ## Calls -/

variable {ι τ β : Type*}

/-- What a handle may be used for. -/
inductive Mode
  | read
  | write
  | neither

/-- A handle of a file, or of something else. -/
inductive Handle (ι : Type*)
  | file (i : ι) (pos : ℕ) (mode : Mode)
  | other

structure State (ι τ β : Type*) where
  files : ι → List β
  handles : τ → ℤ → Option (Handle ι)

inductive Call (ι τ β : Type*)
  | openFile (t : τ) (x : Handle ι)
  | close (t : τ) (fd : ℤ)
  | read (sound : ι → Prop) (t : τ) (fd : ℤ) (amount : ℕ)
  | write (sound : ι → Prop) (t : τ) (fd : ℤ) (w : List β)
  | seek (t : τ) (fd pos : ℤ)
  | handOver (t t' : τ)

/-- What a call reports. -/
inductive Report (β : Type*)
  | done
  | number (n : ℕ)
  | data (l : List β)
  | eof
  | failed

namespace State

variable (s : State ι τ β)

def setFile [DecidableEq ι] (i : ι) (l : List β) : State ι τ β := { s with files := Function.update s.files i l }

variable [DecidableEq τ]

def setHandles (t : τ) (f : ℤ → Option (Handle ι)) : State ι τ β := { s with handles := Function.update s.handles t f }

def setHandle (t : τ) (fd : ℤ) (x : Option (Handle ι)) : State ι τ β :=
  s.setHandles t (Function.update (s.handles t) fd x)

theorem setHandle_self (t : τ) (fd : ℤ) : s.setHandle t fd (s.handles t fd) = s := by
  unfold setHandle setHandles
  rw [Function.update_eq_self, Function.update_eq_self]

end State

/-- The calls that may report a failure, and do nothing then. -/
def State.Refuses (s : State ι τ β) : Call ι τ β → Prop
  | .read sound t fd _ => ∀ i p, s.handles t fd = some (.file i p .read) → ¬ sound i
  | .write sound t fd _ => ∀ i p, s.handles t fd = some (.file i p .write) → ¬ sound i
  | .seek t fd pos => pos < 0 ∨ s.handles t fd = none
  | .close _ _ => True
  | _ => False

variable [DecidableEq ι] [DecidableEq τ]

/-- **What the calls do.** -/
inductive Step : State ι τ β → Call ι τ β × Report β → State ι τ β → Prop
  | opened {s : State ι τ β} {t : τ} {x : Handle ι} {g : ℕ} (hfree : s.handles t g = none)
      (hleast : ∀ j < g, s.handles t (j : ℕ) ≠ none) :
      Step s (.openFile t x, .number g) (s.setHandle t g (some x))
  | closed {s : State ι τ β} {t : τ} {fd : ℤ} : Step s (.close t fd, .done) (s.setHandle t fd none)
  | read {s : State ι τ β} {sound : ι → Prop} {t : τ} {fd : ℤ} {n p : ℕ} {i : ι}
      (hh : s.handles t fd = some (.file i p .read)) (hp : p < (s.files i).length) :
      Step s (.read sound t fd n, .data (slice (s.files i) p n))
        (s.setHandle t fd (some (.file i (p + min n ((s.files i).length - p)) .read)))
  | eof {s : State ι τ β} {sound : ι → Prop} {t : τ} {fd : ℤ} {n p : ℕ} {i : ι}
      (hh : s.handles t fd = some (.file i p .read)) (hp : p = (s.files i).length) : Step s (.read sound t fd n, .eof) s
  | readNothing {s : State ι τ β} {sound : ι → Prop} {t : τ} {fd : ℤ} : Step s (.read sound t fd 0, .data []) s
  | written {s : State ι τ β} {sound : ι → Prop} {t : τ} {fd : ℤ} {w : List β} {p j : ℕ} {i : ι}
      (hh : s.handles t fd = some (.file i p .write)) (hj : j ≤ w.length) (hfit : p + j ≤ (s.files i).length)
      (hfull : sound i → j = min w.length ((s.files i).length - p)) :
      Step s (.write sound t fd w, .number j)
        ((s.setFile i (splice (s.files i) p (w.take j))).setHandle t fd (some (.file i (p + j) .write)))
  | torn {s : State ι τ β} {sound : ι → Prop} {t : τ} {fd : ℤ} {w : List β} {p j : ℕ} {i : ι}
      (hh : s.handles t fd = some (.file i p .write)) (hj : j ≤ w.length) (hfit : p + j ≤ (s.files i).length)
      (hs : ¬ sound i) :
      Step s (.write sound t fd w, .failed) (s.setFile i (splice (s.files i) p (w.take j)))
  | sought {s : State ι τ β} {t : τ} {fd : ℤ} {q p : ℕ} {i : ι} {mode : Mode}
      (hh : s.handles t fd = some (.file i p mode)) (hi : s.files i ≠ []) :
      Step s (.seek t fd q, .number (min q ((s.files i).length - 1)))
        (s.setHandle t fd (some (.file i (min q ((s.files i).length - 1)) mode)))
  | otherSought {s : State ι τ β} {t : τ} {fd pos : ℤ} {r : Report β} (hh : s.handles t fd = some .other) :
      Step s (.seek t fd pos, r) s
  | handedOver {s : State ι τ β} {t t' : τ} :
      Step s (.handOver t t', .done) ((s.setHandles t' (s.handles t)).setHandles t fun _ => none)
  | refused {s : State ι τ β} {c : Call ι τ β} (hc : s.Refuses c) : Step s (c, .failed) s

variable {s s₁ s₂ s₃ : State ι τ β} {t t' : τ} {fd fd' : ℤ} {sound sound' : ι → Prop} {w l : List β} {i : ι} {k n p q : ℕ}

/-- What a read delivers is in the file. -/
theorem Step.read_data (h : Step s (.read sound t fd k, .data l) s₁) (hh : ∀ i' q',
    s.handles t fd = some (.file i' q' .read) → i' = i ∧ q' = q) : l = slice (s.files i) q l.length := by
  cases h with
  | read hx hlt =>
    obtain ⟨rfl, rfl⟩ := hh _ _ hx
    exact slice_length_self.symm
  | readNothing => exact List.take_zero.symm

end FileStore
