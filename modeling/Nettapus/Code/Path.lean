import Nettapus.Code.Base

/-!
# Strings and paths (`string/string.c`, `fs/utils.c`)

A string is the list of its bytes before the `NUL`. `get_step_count` also looks at the byte before the
path, which is given. There is memory for the array and the strings of `fs_parse_path`.
-/

namespace Nettapus

/-- The string at the beginning of an array of bytes. -/
def cString (l : List UInt8) : List UInt8 := l.takeWhile (· ≠ 0)

/-- The separator of a path. -/
def slash : UInt8 := 47

/-- The step at the head of a path, with at most `max` bytes, and the path behind it. -/
def getStep (cur : List UInt8) (sep : UInt8) (max : ℕ) : Option (List UInt8 × List UInt8) :=
  match cur.dropWhile (· = sep) with
  | [] => none
  | c :: cur =>
    let out := ((c :: cur).takeWhile (· ≠ sep)).take max
    some (out, (c :: cur).drop out.length)

/-- The loop of `get_step_count`; `prev` is the byte before. -/
def countSteps (sep : UInt8) : UInt8 → List UInt8 → ℕ
  | _, [] => 0
  | prev, c :: str => (if c = sep ∧ prev ≠ sep ∧ str ≠ [] then 1 else 0) + countSteps sep c str

def getStepCount (prev : UInt8) (str : List UInt8) (sep : UInt8) : ℕ := 1 + countSteps sep prev str

/-- The loop of `fs_parse_path`, with the free places of the array. Without a place for
the `NULL` the array has no end. -/
def parseSteps : ℕ → List UInt8 → Option (List (List UInt8))
  | 0, _ => none
  | n + 1, path =>
    match getStep path slash 0x100 with
    | none => some []
    | some (str, path) => (parseSteps n path).map (str :: ·)

def fsParsePath (prev : UInt8) (path : List UInt8) : Option (List (List UInt8)) :=
  parseSteps (getStepCount prev path slash + 1) path

end Nettapus
