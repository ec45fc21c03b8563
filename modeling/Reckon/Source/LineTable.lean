import Reckon.Text.Basic
import Reckon.Token.Basic

/-!
# Line tables

Where the lines of a source begin. A line goes up to the beginning of the next one, line break included, and the last
line up to the end of the source. Lines are counted from zero.
-/

namespace Reckon

structure LineTable where
  starts : Array Nat
  /-- The length of the source. -/
  length : Nat
deriving DecidableEq, Repr, Inhabited

namespace LineTable

/-- Why a list of places is no line table. -/
inductive Defect where
  | noLines
  | startBeyondEnd
deriving DecidableEq, Repr

inductive Fault where
  | offsetOutOfBounds
  | lineOutOfBounds
deriving DecidableEq, Repr

/-- A table has at least one line, and its last line begins within the source. -/
def ofStarts (starts : List Nat) (length : Nat) : Except Defect LineTable :=
  match starts.getLast? with
  | none => .error .noLines
  | some last => if length < last then .error .startBeyondEnd else .ok ⟨starts.toArray, length⟩

def ofText (cs : List Char) : LineTable :=
  ⟨(Text.lineStarts cs).toArray, Text.byteLength cs⟩

def size (t : LineTable) : Nat :=
  t.starts.size

/-- Halves the lines from `low` up to `high`, of which `low` begins at or before the offset, until one is left. -/
def search (t : LineTable) (offset low high : Nat) : Nat :=
  if high ≤ low + 1 then low
  else
    let middle := (low + high) / 2
    if t.starts.getD middle 0 ≤ offset then t.search offset middle high else t.search offset low middle
termination_by high - low

/-- The line that an offset is on: the last one that begins at or before it. -/
def lineAt (t : LineTable) (offset : Nat) : Except Fault Nat :=
  if t.length < offset then .error .offsetOutOfBounds else .ok (t.search offset 0 t.size)

def range (t : LineTable) (line : Nat) : Except Fault Span :=
  match t.starts[line]? with
  | none => .error .lineOutOfBounds
  | some start => .ok ⟨start, t.starts.getD (line + 1) t.length⟩

end LineTable
end Reckon
