import Reckon.Session.Basic

/-!
# The prompt

Each line that is read is executed on its own and its value shown, until the input ends, a blank line is read or
reading fails.
-/

namespace Reckon.Session

def prompt : String := "> "

/-- What comes of one read: the exit, if it ends the session. -/
def answer (s : Session) (read : Read) : Except FileError (Step (Option Exit)) :=
  match read with
  | .failure message => .ok ⟨some .ioError, ⟨"", message ++ "\n"⟩, s⟩
  | .line text =>
      if read.isBlank then .ok ⟨some .ok, .empty, s⟩
      else do
        let step ← s.execute promptName text
        .ok ⟨none, step.output ++ ⟨step.result.shown, ""⟩, step.session⟩

/-- Answers read after read. The result is the exit, with the reads that are left. -/
def converse (s : Session) : List Read → Except FileError (Step (Exit × List Read))
  | [] => .ok ⟨(.ok, []), ⟨prompt, ""⟩, s⟩
  | read :: rest => do
      let step ← s.answer read
      let output : Output := ⟨prompt, ""⟩ ++ step.output
      match step.result with
      | some exit => .ok ⟨(exit, rest), output, step.session⟩
      | none => do
          let later ← converse step.session rest
          .ok { later with output := output ++ later.output }

def repl (s : Session) : Except FileError (Step Exit) := do
  let step ← s.converse s.console.pending
  let (exit, rest) := step.result
  .ok ⟨exit, s.console.keep step.output, { step.session with console := s.console.withPending rest }⟩

end Reckon.Session
