import Reckon.Text.Blank
import Reckon.Text.Width

/-!
# Snippets

Lines of a source with a span marked in them. A span within one line is underlined with carets; a span over several
lines is held by a bracket at the left, from a corner above its first line to one below its last. Of a long span only
the ends are shown.
-/

namespace Reckon.Snippet

def tabWidth : Nat := 4

/-- How many lines are shown after the first line of a span. -/
def linesAfterStart : Nat := 3

/-- How many lines are shown before the last line of a span. -/
def linesBeforeEnd : Nat := 1

/-! ## Characters on a line -/

/-- A character of a line with its place in bytes and the cells it takes. -/
structure Cell where
  char : Char
  place : Nat
  width : Nat
deriving Repr

/-- The cells of a text that begins at the given place and column. -/
def cellsFrom (place column : Nat) : List Char → List Cell
  | [] => []
  | c :: cs =>
      let width := if c = '\t' then tabWidth - column % tabWidth else Text.width c
      ⟨c, place, width⟩ :: cellsFrom (place + c.utf8Size) (column + width) cs

def cells (text : List Char) : List Cell :=
  cellsFrom 0 0 text

/-- A line as it is shown: tabs become spaces. -/
def expandTabs (text : List Char) : String :=
  String.ofList <| (cells text).flatMap fun cell =>
    if cell.char = '\t' then List.replicate cell.width ' ' else [cell.char]

/-- A line without its line break, and without returns and nulls at its end. -/
def trimEnd (line : List Char) : List Char :=
  (line.reverse.dropWhile fun c => c = '\n' ∨ c = '\r' ∨ c = '\x00').reverse

/--
The carets under the characters that the bytes from `start` up to `stop` touch, with spaces before them. At least one
byte is marked, and there is one more place to mark after the end of the text.
-/
def carets (text : List Char) (start stop : Nat) : String :=
  let stop := max stop (start + 1)
  let beyond : Cell := ⟨'\x00', Text.byteLength text, 1⟩
  String.ofList <| (cells text ++ [beyond]).flatMap fun cell =>
    if max start cell.place < min stop (cell.place + cell.char.utf8Size) then List.replicate cell.width '^'
    else if cell.place < stop then List.replicate cell.width ' '
    else []

/-- A rule as long as the characters that begin before `stop`, with a caret at its end. -/
def pointer (text : List Char) (stop : Nat) : String :=
  String.ofList <|
    ((cells text).takeWhile (·.place < stop)).flatMap (fun cell => List.replicate cell.width '─') ++ ['^']

/-! ## Rows -/

/-- A line of the source, counted from one, with its line break. -/
structure Line where
  number : Nat
  content : List Char
deriving Repr, Inhabited

def Line.text (l : Line) : List Char :=
  trimEnd l.content

/-- A row without a line number, beside numbers of `digits` digits. -/
def blankRow (digits : Nat) (content : String) : String :=
  String.ofList (List.replicate (digits + 1) ' ') ++ content ++ "\n"

def sourceRow (digits : Nat) (line : Line) (rail : String) : String :=
  let number := toString line.number
  String.ofList (List.replicate (digits - number.length) ' ') ++ number ++ " │ " ++ rail
    ++ expandTabs line.text ++ "\n"

/-- What is shown of a span over several lines. -/
inductive Row where
  | line (index : Nat)
  /-- Stands for the lines that are left out. -/
  | gap
deriving DecidableEq, Repr

/-- The lines shown of a span, of which a single one is never left out. -/
def rows (first last : Nat) : List Row :=
  if last ≤ first + linesAfterStart + linesBeforeEnd + 2 then
    (List.range' first (last + 1 - first)).map .line
  else
    (List.range' first (linesAfterStart + 1)).map .line ++ .gap ::
      (List.range' (last - linesBeforeEnd) (linesBeforeEnd + 1)).map .line

/-- The bytes of blank characters at the beginning of a text. -/
def indentation (text : List Char) : Nat :=
  Text.byteLength text - Text.byteLength (Text.trimStart text)

/-- The rows of a span within one line, from the byte `start` of the line up to `stop`. -/
def singleLine (digits : Nat) (line : Line) (start stop : Nat) : String :=
  sourceRow digits line "" ++ blankRow digits ("│ " ++ carets line.text start stop)

/-- The first row of a span over several lines. The corner is beside a line of which only blanks are not marked. -/
def topRows (digits : Nat) (line : Line) (start : Nat) : String :=
  if start ≤ indentation line.text then sourceRow digits line "╭ "
  else sourceRow digits line "  " ++ blankRow digits ("│ ╭" ++ pointer line.text (start + 1))

def bottomRows (digits : Nat) (line : Line) (stop : Nat) : String :=
  sourceRow digits line "│ " ++ blankRow digits ("│ ╰" ++ pointer line.text stop)

end Reckon.Snippet
