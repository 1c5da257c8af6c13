import Mathlib.Algebra.GroupWithZero.Nat
import Mathlib.Data.List.Basic
import Mathlib.Tactic.Common

/-!
# Editing lines

What an editor with one line makes of a sequence of edits: a character goes to the end of the line, an erasure takes the
last character away, if there is one, and the end of the line completes it.

`typed_append` is the editor edit by edit, and `wire` the completed lines as one sequence, each with an end mark.
-/

namespace LineEdit

variable {α : Type*}

inductive Edit (α : Type*)
  | put (a : α)
  | erase
  | enter
  deriving DecidableEq

/-- The lines that are complete, and the one that is not. -/
structure Typed (α : Type*) where
  done : List (List α)
  line : List α

def Typed.edit (t : Typed α) : Edit α → Typed α
  | .put a => { t with line := t.line ++ [a] }
  | .erase => { t with line := t.line.dropLast }
  | .enter => ⟨t.done ++ [t.line], []⟩

/-- **What was typed**, from an empty line on. -/
def typed (es : List (Edit α)) : Typed α := es.foldl Typed.edit ⟨[], []⟩

/-- The completed lines, with an end mark behind each. -/
def Typed.wire (t : Typed α) (mark : α) : List α := t.done.flatMap fun line => line ++ [mark]

variable {es : List (Edit α)} {t : Typed α} {a mark : α}

@[simp] theorem typed_nil : typed ([] : List (Edit α)) = ⟨[], []⟩ := by simp [typed]

theorem typed_append (es es' : List (Edit α)) : typed (es ++ es') = es'.foldl Typed.edit (typed es) := by
  simp [typed]

@[simp] theorem edit_put_line : (t.edit (.put a)).line = t.line ++ [a] := by simp [Typed.edit]

@[simp] theorem edit_erase_line : (t.edit .erase).line = t.line.dropLast := by simp [Typed.edit]

@[simp] theorem edit_enter_line : (t.edit .enter).line = [] := by simp [Typed.edit]

@[simp] theorem wire_put : (t.edit (.put a)).wire mark = t.wire mark := by simp [Typed.wire, Typed.edit]

@[simp] theorem wire_erase : (t.edit .erase).wire mark = t.wire mark := by simp [Typed.wire, Typed.edit]

/-- A completed line goes to the end. -/
@[simp] theorem wire_enter : (t.edit .enter).wire mark = t.wire mark ++ (t.line ++ [mark]) := by
  simp [Typed.wire, Typed.edit]

end LineEdit
