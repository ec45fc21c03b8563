import Reckon.Diagnostic.Snippet
import Reckon.Error
import Reckon.Source.Files

/-!
# Diagnostics

An error shown with the lines of the source it is in. All that is shown is looked up in the file store, so showing an
error fails only if the store has no answer.
-/

namespace Reckon

/-- An error as it is shown: what is wrong, and which part of the source to mark. -/
structure Diagnostic where
  message : String
  span : Span
deriving DecidableEq, Repr

def CompileError.diagnostic (e : CompileError) : Diagnostic :=
  ⟨e.fault.message, e.span⟩

def RuntimeError.diagnostic (e : RuntimeError) : Diagnostic :=
  ⟨e.fault.message, e.span⟩

namespace Diagnostic

def lineOf (files : Files) (id : FileId) (index : Nat) : Except FileError Snippet.Line := do
  let source ← files.source id
  let range ← files.lineRange id index
  .ok ⟨index + 1, Text.slice source.toList range.start range.stop⟩

/-- The row, or the two rows, of a line that a span over several lines goes through. -/
def rowText (files : Files) (id : FileId) (span : Span) (first last digits : Nat) :
    Snippet.Row → Except FileError String
  | .gap => .ok (Snippet.blankRow digits "· │")
  | .line index => do
      let line ← lineOf files id index
      let range ← files.lineRange id index
      if index = first then .ok (Snippet.topRows digits line (span.start - range.start))
      else if index = last then .ok (Snippet.bottomRows digits line (span.stop - range.start))
      else .ok (Snippet.sourceRow digits line "│ ")

/-- The rows of the lines that a span goes through, below an empty one. -/
def body (files : Files) (id : FileId) (span : Span) (first last digits : Nat) : Except FileError String :=
  if first = last then do
    let line ← lineOf files id first
    let range ← files.lineRange id first
    .ok (Snippet.blankRow digits "│"
      ++ Snippet.singleLine digits line (span.start - range.start) (span.stop - range.start))
  else do
    let texts ← (Snippet.rows first last).mapM (rowText files id span first last digits)
    .ok (Snippet.blankRow digits "│  " ++ String.join texts)

/-- The message, the place of the error, and its lines, with an empty line at the end. -/
def render (d : Diagnostic) (files : Files) (id : FileId) : Except FileError String := do
  let first ← files.lineIndex id d.span.start
  let last ← files.lineIndex id d.span.stop
  let name ← files.name id
  let place ← files.location id d.span.start
  let digits := (toString (last + 1)).length
  let rows ← body files id d.span first last digits
  .ok ("error: " ++ d.message ++ "\n"
    ++ Snippet.blankRow digits ("┌─ " ++ name ++ ":" ++ toString place.line ++ ":" ++ toString place.column)
    ++ rows ++ "\n")

end Diagnostic
end Reckon
