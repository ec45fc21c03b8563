import Reckon.Diagnostic.Render
import Reckon.Expr.Eval
import Reckon.Expr.Parser
import Reckon.Expr.Printer
import Reckon.Session.Console

/-!
# Sessions

A session executes one source after another. It keeps the files it has seen, because errors are shown with lines of
them. To execute a source is to scan, parse and evaluate it, and to report each error found on the way; `run` also
shows the value and answers how the program should exit.
-/

namespace Reckon

structure Config where
  /-- Show each error with the lines of the source it is in. -/
  diagnostics : Bool
  /-- Write the tokens and the tree of each source. -/
  trace : Bool
deriving DecidableEq, Repr

inductive Outcome where
  | value (v : Value)
  | compileError
  | runtimeError
deriving Repr

inductive Exit where
  | ok
  | compileError
  | runtimeError
  | ioError
deriving DecidableEq, Repr

def Exit.code : Exit → Nat
  | .ok => 0
  | .compileError => 65
  | .runtimeError => 70
  | .ioError => 74

def Outcome.exit : Outcome → Exit
  | .value _ => .ok
  | .compileError => .compileError
  | .runtimeError => .runtimeError

/-- The line that shows a value, if there is one. -/
def Outcome.shown : Outcome → String
  | .value v => v.text ++ "\n"
  | _ => ""

structure Session where
  config : Config
  files : Files
  console : Console
deriving Repr

/-- A result, what was written on the way to it, and the session after it. -/
structure Step (α : Type) where
  result : α
  output : Output
  session : Session

namespace Session

def promptName : String := "repl.lox"

def start (config : Config) (console : Console) : Session :=
  ⟨config, .empty, console⟩

/-- The same session with errors shown in full, or not, from here on. -/
def withDiagnostics (s : Session) (diagnostics : Bool) : Session :=
  { s with config := { s.config with diagnostics := diagnostics } }

def tokenTrace (tokens : List Token) : String :=
  String.join <| tokens.map fun t => "  [line " ++ toString t.line ++ "] " ++ t.text ++ "\n"

def treeTrace (e : Expr) : String :=
  "  " ++ e.print ++ "\n"

/-- An error as it is reported: its text, and the lines of the source if the session shows them. -/
def report (config : Config) (files : Files) (id : FileId) (text : String) (d : Diagnostic) :
    Except FileError String := do
  if config.diagnostics then
    let snippet ← d.render files id
    .ok (text ++ "\n" ++ snippet)
  else
    .ok (text ++ "\n")

/-- The reports of all errors of a source, in their order. -/
def reportAll (config : Config) (files : Files) (id : FileId) (errors : List CompileError) :
    Except FileError String := do
  let reports ← errors.mapM fun e => report config files id e.text e.diagnostic
  .ok (String.join reports)

/-- Scans, parses and evaluates a source under a name. -/
def execute (s : Session) (name source : String) : Except FileError (Step Outcome) := do
  let scanned := scan source
  let (id, files) ← s.files.enter name source scanned.lines
  let after : Session := { s with files := files }
  let tokens := if s.config.trace then tokenTrace scanned.tokens else ""
  match Expr.ofScan scanned with
  | .error errors => do
      let reports ← reportAll s.config files id errors
      .ok ⟨.compileError, ⟨tokens, reports⟩, after⟩
  | .ok e =>
      let trace := if s.config.trace then tokens ++ treeTrace e else tokens
      match e.eval with
      | .ok v => .ok ⟨.value v, ⟨trace, ""⟩, after⟩
      | .error error => do
          let reported ← report s.config files id error.text error.diagnostic
          .ok ⟨.runtimeError, ⟨trace, reported⟩, after⟩

/-- Executes a source without a name of its own. -/
def interpret (s : Session) (source : String) : Except FileError (Step Outcome) := do
  let step ← s.execute promptName source
  .ok { step with output := s.console.keep step.output }

/-- Executes a source and shows its value. -/
def run (s : Session) (name source : String) : Except FileError (Step Exit) := do
  let step ← s.execute name source
  let output := step.output ++ ⟨step.result.shown, ""⟩
  .ok ⟨step.result.exit, s.console.keep output, step.session⟩

end Session
end Reckon
