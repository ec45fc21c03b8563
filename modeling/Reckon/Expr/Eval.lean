import Reckon.Error
import Reckon.Expr.Basic

/-!
# Evaluation

Both sides of an operator are always evaluated, the left one first, and the first error ends the evaluation. Equality
is defined for all values. Every other binary operator wants two numbers, but `+` also takes two strings.
-/

namespace Reckon

def UnaryOp.apply : UnaryOp → Value → Except RuntimeFault Value
  | .not, v => .ok (.boolean v.isFalsey)
  | .negate, .number x => .ok (.number (-x))
  | .negate, _ => .error .operandNotNumber

/-- An operation on numbers, at fault with other values. -/
def BinaryOp.onNumbers (f : Float → Float → Value) : Value → Value → Except RuntimeFault Value
  | .number x, .number y => .ok (f x y)
  | _, _ => .error .operandsNotNumbers

def BinaryOp.apply : BinaryOp → Value → Value → Except RuntimeFault Value
  | .eq, a, b => .ok (.boolean (a == b))
  | .ne, a, b => .ok (.boolean (a != b))
  | .gt, a, b => onNumbers (fun x y => .boolean (y < x)) a b
  | .gtEq, a, b => onNumbers (fun x y => .boolean (y ≤ x)) a b
  | .lt, a, b => onNumbers (fun x y => .boolean (x < y)) a b
  | .ltEq, a, b => onNumbers (fun x y => .boolean (x ≤ y)) a b
  | .add, .string s, .string t => .ok (.string (s ++ t))
  | .add, a, b => onNumbers (fun x y => .number (x + y)) a b
  | .sub, a, b => onNumbers (fun x y => .number (x - y)) a b
  | .mul, a, b => onNumbers (fun x y => .number (x * y)) a b
  | .div, a, b => onNumbers (fun x y => .number (x / y)) a b

namespace Expr

/-- The value of an expression, or the error of the first operator that cannot work on its operands. -/
def eval : Expr → Except RuntimeError Value
  | .literal value _ => .ok value
  | .grouping inner _ => inner.eval
  | .unary op operator operand => do
      let v ← operand.eval
      (op.apply v).mapError (.atOperator operator)
  | .binary op operator lhs rhs => do
      let a ← lhs.eval
      let b ← rhs.eval
      (op.apply a b).mapError (.atOperator operator)

def interpret (e : Expr) : Except RuntimeError String :=
  e.eval.map Value.text

theorem eval_unary {op : UnaryOp} {operator : Token} {operand : Expr} : (unary op operator operand).eval =
    match operand.eval with
    | .error r => .error r
    | .ok v => (op.apply v).mapError (.atOperator operator) := by
  rw [eval]
  cases operand.eval <;> rfl

theorem eval_binary {op : BinaryOp} {operator : Token} {lhs rhs : Expr} : (binary op operator lhs rhs).eval =
    match lhs.eval with
    | .error r => .error r
    | .ok a =>
        match rhs.eval with
        | .error r => .error r
        | .ok b => (op.apply a b).mapError (.atOperator operator) := by
  rw [eval]
  cases lhs.eval with
  | error r => rfl
  | ok a => cases rhs.eval <;> rfl

end Expr
end Reckon
