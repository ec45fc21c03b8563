import Reckon.Token.Basic

/-!
# Errors

What can be wrong with a source, where that is, and how it is reported. `CompileError` is found before an expression
is evaluated and `RuntimeError` by evaluating it.
-/

namespace Reckon

/-! ## Causes -/

inductive CompileFault where
  | unexpectedCharacter
  | unterminatedString
  | invalidNumber
  | expectExpression
  | expectRightParen
  | expectEnd
  | nestsTooDeeply
  | invalidLiteral
  /-- A cause in other words than the ones above. -/
  | other (message : String)
deriving DecidableEq, Repr

def CompileFault.message : CompileFault → String
  | .unexpectedCharacter => "Unexpected character."
  | .unterminatedString => "Unterminated string."
  | .invalidNumber => "Invalid number."
  | .expectExpression => "Expect expression."
  | .expectRightParen => "Expect ')' after expression."
  | .expectEnd => "Expect end of expression."
  | .nestsTooDeeply => "Expression nests too deeply."
  | .invalidLiteral => "Invalid literal."
  | .other message => message

inductive RuntimeFault where
  | operandNotNumber
  | operandsNotNumbers
  /-- A cause in other words than the ones above. -/
  | other (message : String)
deriving DecidableEq, Repr

def RuntimeFault.message : RuntimeFault → String
  | .operandNotNumber => "Operand must be a number."
  | .operandsNotNumbers => "Operands must be numbers."
  | .other message => message

/-! ## Errors before evaluation -/

/-- Which part of reading a source found the error. -/
inductive Stage where
  | lexical
  | grammatical
deriving DecidableEq, Repr

inductive Site where
  | nowhere
  | atEnd
  | lexeme (text : String)
deriving DecidableEq, Repr

def Site.text : Site → String
  | .nowhere => ""
  | .atEnd => " at end"
  | .lexeme text => " at '" ++ text ++ "'"

structure CompileError where
  stage : Stage
  line : Nat
  site : Site
  fault : CompileFault
  span : Span
deriving DecidableEq, Repr

namespace CompileError

/-- An error in a part of the source that is no token. -/
def lexical (line : Nat) (span : Span) (fault : CompileFault) : CompileError where
  stage := .lexical
  line := line
  site := .nowhere
  fault := fault
  span := span

def atToken (t : Token) (fault : CompileFault) : CompileError where
  stage := .grammatical
  line := t.line
  site := if t.kind = .eof then .atEnd else .lexeme t.lexeme
  fault := fault
  span := t.span

def text (e : CompileError) : String :=
  "[line " ++ toString e.line ++ "] Error" ++ e.site.text ++ ": " ++ e.fault.message

end CompileError

/-! ## Errors of evaluation -/

structure RuntimeError where
  fault : RuntimeFault
  line : Nat
  span : Span
deriving DecidableEq, Repr

namespace RuntimeError

def atOperator (t : Token) (fault : RuntimeFault) : RuntimeError where
  fault := fault
  line := t.line
  span := t.span

def text (e : RuntimeError) : String :=
  e.fault.message ++ "\n[line " ++ toString e.line ++ "]"

end RuntimeError
end Reckon
