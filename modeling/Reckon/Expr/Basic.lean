import Reckon.Token.Basic
import Reckon.Value

/-!
# Expressions

Trees of literals, groupings and operators. Each node knows the token it was read from, and what an operator does is
up to `op` alone. The span of a node goes from the beginning of its first token to the end of its last one.
-/

namespace Reckon

inductive UnaryOp where
  | not
  | negate
deriving DecidableEq, Repr

inductive BinaryOp where
  | eq | ne | gt | gtEq | lt | ltEq | add | sub | mul | div
deriving DecidableEq, Repr

inductive Expr where
  | literal (value : Value) (token : Token)
  | grouping (inner : Expr) (span : Span)
  | unary (op : UnaryOp) (operator : Token) (operand : Expr)
  | binary (op : BinaryOp) (operator : Token) (lhs rhs : Expr)
deriving BEq, Repr

instance : Inhabited Expr := ⟨.literal default default⟩

def UnaryOp.text : UnaryOp → String
  | .not => "!"
  | .negate => "-"

def BinaryOp.text : BinaryOp → String
  | .eq => "=="
  | .ne => "!="
  | .gt => ">"
  | .gtEq => ">="
  | .lt => "<"
  | .ltEq => "<="
  | .add => "+"
  | .sub => "-"
  | .mul => "*"
  | .div => "/"

namespace Expr

def start : Expr → Nat
  | .literal _ token => token.span.start
  | .grouping _ span => span.start
  | .unary _ operator _ => operator.span.start
  | .binary _ _ lhs _ => lhs.start

def stop : Expr → Nat
  | .literal _ token => token.span.stop
  | .grouping _ span => span.stop
  | .unary _ _ operand => operand.stop
  | .binary _ _ _ rhs => rhs.stop

def span (e : Expr) : Span :=
  ⟨e.start, e.stop⟩

/-- The number of nodes on the longest way down to a literal. -/
def height : Expr → Nat
  | .literal .. => 1
  | .grouping inner _ => inner.height + 1
  | .unary _ _ operand => operand.height + 1
  | .binary _ _ lhs rhs => max lhs.height rhs.height + 1

def line? : Expr → Option Nat
  | .literal _ token => some token.line
  | .grouping .. => none
  | .unary _ operator _ => some operator.line
  | .binary _ operator _ _ => some operator.line

/-- All nodes with their depths, each one before what is below it, left before right. -/
def nodesFrom (depth : Nat) : Expr → List (Nat × Expr)
  | .literal value token => [(depth, .literal value token)]
  | .grouping inner span => (depth, .grouping inner span) :: inner.nodesFrom (depth + 1)
  | .unary op operator operand => (depth, .unary op operator operand) :: operand.nodesFrom (depth + 1)
  | .binary op operator lhs rhs =>
      (depth, .binary op operator lhs rhs) :: (lhs.nodesFrom (depth + 1) ++ rhs.nodesFrom (depth + 1))

def nodes (e : Expr) : List (Nat × Expr) :=
  e.nodesFrom 0

end Expr
end Reckon
