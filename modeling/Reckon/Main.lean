import Reckon.Command.Basic

/-!
# The program

Connects the command line to the files, the standard input and the standard outputs of the system.
-/

namespace Reckon.Program

def write (output : Output) : IO Unit := do
  let out ← IO.getStdout
  let err ← IO.getStderr
  out.putStr output.out
  out.flush
  err.putStr output.err
  err.flush

def fail (e : FileError) : IO α :=
  throw (IO.userError e.message)

def readFile (path : String) : IO (Except ReadFailure String) := do
  match ← (IO.FS.readBinFile path).toBaseIO with
  | .ok bytes =>
      match Text.decode? bytes.toList with
      | some text => return .ok text
      | none => return .error .notUtf8
  | .error (.noFileOrDirectory ..) => return .error .notFound
  | .error (.inappropriateType _ code _) => return .error (if code = 21 then .isDirectory else .notDirectory)
  | .error e => return .error (.other (toString e))

/-- The bytes up to the next line break, or up to the end of the input, after those of `line`. -/
partial def readLine (input : IO.FS.Stream) (line : List UInt8) : IO (List UInt8) := do
  let bytes ← input.read 1
  match bytes.toList with
  | [] => return line.reverse
  | b :: _ => if b = 10 then return (b :: line).reverse else readLine input (b :: line)

/-- Answers line after line of an input. -/
partial def converse (input : IO.FS.Stream) (s : Session) : IO Exit := do
  write ⟨Session.prompt, ""⟩
  let line ← readLine input []
  match s.answer (.ofLine line) with
  | .error e => fail e
  | .ok step =>
      write step.output
      match step.result with
      | some exit => return exit
      | none => converse input step.session

def finish (result : Except FileError (Nat × Output)) : IO Nat :=
  match result with
  | .error e => fail e
  | .ok (code, output) => do
      write output
      return code

def perform : Invocation → IO Nat
  | .prompt diagnostics => do
      let exit ← converse (← IO.getStdin) (Invocation.session diagnostics [])
      return exit.code
  | .script diagnostics path => do
      let text ← readFile path
      finish <| (Invocation.script diagnostics path).perform (fun _ => text) []
  | .misuse => finish <| Invocation.misuse.perform (fun _ => .error .notFound) []

end Reckon.Program

def main (args : List String) : IO UInt32 := do
  let code ← Reckon.Program.perform (.ofArgs args)
  return code.toUInt32
