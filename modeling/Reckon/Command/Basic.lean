import Reckon.Command.Folder
import Reckon.Session.Prompt

/-!
# The command line

`lox` starts the prompt, `lox SCRIPT` runs a file, and `--diagnostics` in front shows errors in full. The flag by
itself starts the prompt, so a script of that name has to be the second argument.
-/

namespace Reckon

inductive Invocation where
  | prompt (diagnostics : Bool)
  | script (diagnostics : Bool) (path : String)
  | misuse
deriving DecidableEq, Repr

namespace Invocation

def diagnosticsFlag : String := "--diagnostics"

def usage : String := "Usage: lox [" ++ diagnosticsFlag ++ "] [script]\n"

def usageCode : Nat := 64

def ofArgs : List String → Invocation
  | [] => .prompt false
  | [arg] => if arg = diagnosticsFlag then .prompt true else .script false arg
  | [flag, path] => if flag = diagnosticsFlag then .script true path else .misuse
  | _ => .misuse

/-- A session of the command line, which writes no trace. -/
def session (diagnostics : Bool) (reads : List Read) : Session :=
  .start ⟨diagnostics, false⟩ (.memory reads)

/-- The line that reports a script that cannot be read. -/
def readReport (path : String) (failure : ReadFailure) : String :=
  path ++ ": " ++ failure.message ++ "\n"

/-- The exit status and what is written, given what reading a file gives and the lines of the standard input. -/
def perform (files : String → Except ReadFailure String) (reads : List Read) :
    Invocation → Except FileError (Nat × Output)
  | .prompt diagnostics => do
      let step ← (session diagnostics reads).repl
      .ok (step.result.code, step.output)
  | .script diagnostics path =>
      match files path with
      | .error failure => .ok (Exit.ioError.code, ⟨"", readReport path failure⟩)
      | .ok source => do
          let step ← (session diagnostics reads).run path source
          .ok (step.result.code, step.output)
  | .misuse => .ok (usageCode, ⟨"", usage⟩)

end Invocation

/-- The read that a line of bytes gives. A line that is not valid UTF-8 fails to be read. -/
def Read.ofLine (line : List UInt8) : Read :=
  match Text.decode? line with
  | some text => .line text
  | none => .failure ReadFailure.notUtf8.message

def Read.ofBytes (bytes : List UInt8) : List Read :=
  (Text.byteLines bytes).map ofLine

end Reckon
