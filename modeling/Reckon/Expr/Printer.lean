import Reckon.Expr.Basic

/-!
# Printing

The form of an expression with its operators in front: `(* (- 123) (group 45.67))`. Strings are printed without their
quotes and numbers in full.
-/

namespace Reckon

def Expr.print : Expr → String
  | .literal value _ => value.literalText
  | .grouping inner _ => "(group " ++ inner.print ++ ")"
  | .unary op _ operand => "(" ++ op.text ++ " " ++ operand.print ++ ")"
  | .binary op _ lhs rhs => "(" ++ op.text ++ " " ++ lhs.print ++ " " ++ rhs.print ++ ")"

/-- A printer that shows what it printed last, and nothing before its first use. -/
structure Printer where
  shown : String
deriving Repr

namespace Printer

def fresh : Printer := ⟨""⟩

def print (_ : Printer) (e : Expr) : Printer :=
  ⟨e.print⟩

end Printer
end Reckon
