import Reckon.Number.Layout
import Reckon.Token.Kind

/-!
# Tokens

A token keeps the text it was read from, its place in the source in bytes, and the line on which it ends, counted
from zero.
-/

namespace Reckon

/-- The part of a source from `start` up to `stop`, in bytes. -/
structure Span where
  start : Nat
  stop : Nat
deriving DecidableEq, Repr, Inhabited

/-- What a literal token stands for. -/
inductive Literal where
  | number (x : Float)
  | string (s : String)
deriving BEq, Repr

def Literal.text : Literal → String
  | .number x => Layout.literal.write x
  | .string s => s

structure Token where
  kind : Kind
  lexeme : String
  literal : Option Literal
  line : Nat
  span : Span
deriving BEq, Repr, Inhabited

namespace Token

def eof (line place : Nat) : Token where
  kind := .eof
  lexeme := ""
  literal := none
  line := line
  span := ⟨place, place⟩

/-- Kind, lexeme and literal, with `nil` where there is no literal. -/
def text (t : Token) : String :=
  t.kind.name ++ " " ++ t.lexeme ++ " " ++ (t.literal.map Literal.text).getD "nil"

end Token
end Reckon
