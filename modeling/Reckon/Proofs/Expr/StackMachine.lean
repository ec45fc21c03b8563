import Reckon.Proofs.Expr.ValueKinds

/-!
# Evaluation on a stack

The nodes of a tree in postorder, without its groupings, are instructions for a machine that works on a stack of values. A
tree evaluates to a value exactly if its run ends with this value alone on the stack, and to an error exactly if its run
stops at this error.
-/

namespace Reckon

/-! ## The machine -/

/-- Equal contents of one sort. Numbers are compared as IEEE 754 says. -/
def Value.matches : Value → Value → Bool
  | .number x, .number y => x == y
  | .string s, .string t => s == t
  | .boolean a, .boolean b => a == b
  | .nil, .nil => true
  | _, _ => false

inductive Instruction where
  | push (v : Value)
  | unary (op : UnaryOp) (operator : Token)
  | binary (op : BinaryOp) (operator : Token)

inductive Machine where
  /-- The value pushed last comes first. -/
  | running (stack : List Value)
  | stopped (error : RuntimeError)
  /-- An operator takes more values than there are. -/
  | underflow

/-- The right operand of a binary operator was pushed after the left one. -/
def Instruction.step : Instruction → List Value → Machine
  | .push v, stack => .running (v :: stack)
  | .unary .not _, .nil :: stack => .running (.boolean true :: stack)
  | .unary .not _, .boolean false :: stack => .running (.boolean true :: stack)
  | .unary .not _, _ :: stack => .running (.boolean false :: stack)
  | .unary .negate _, .number x :: stack => .running (.number (-x) :: stack)
  | .unary .negate operator, _ :: _ => .stopped (.atOperator operator .operandNotNumber)
  | .binary .eq _, b :: a :: stack => .running (.boolean (a.matches b) :: stack)
  | .binary .ne _, b :: a :: stack => .running (.boolean (!a.matches b) :: stack)
  | .binary .add _, .string t :: .string s :: stack => .running (.string (s ++ t) :: stack)
  | .binary .add _, .number y :: .number x :: stack => .running (.number (x + y) :: stack)
  | .binary .sub _, .number y :: .number x :: stack => .running (.number (x - y) :: stack)
  | .binary .mul _, .number y :: .number x :: stack => .running (.number (x * y) :: stack)
  | .binary .div _, .number y :: .number x :: stack => .running (.number (x / y) :: stack)
  | .binary .gt _, .number y :: .number x :: stack => .running (.boolean (x > y) :: stack)
  | .binary .gtEq _, .number y :: .number x :: stack => .running (.boolean (x ≥ y) :: stack)
  | .binary .lt _, .number y :: .number x :: stack => .running (.boolean (x < y) :: stack)
  | .binary .ltEq _, .number y :: .number x :: stack => .running (.boolean (x ≤ y) :: stack)
  | .binary _ operator, _ :: _ :: _ => .stopped (.atOperator operator .operandsNotNumbers)
  | _, _ => .underflow

namespace Machine

/-- Once stopped, the machine takes no instruction any more. -/
def next : Machine → Instruction → Machine
  | .running stack, i => i.step stack
  | m, _ => m

def run (m : Machine) (is : List Instruction) : Machine :=
  is.foldl next m

/-- The machine when this has come of what was above the stack. -/
def result (stack : List Value) : Except RuntimeError Value → Machine
  | .ok v => .running (v :: stack)
  | .error error => .stopped error

variable {m : Machine} {is js : List Instruction}

theorem run_append : m.run (is ++ js) = (m.run is).run js :=
  List.foldl_append

theorem run_stopped {error : RuntimeError} : (stopped error).run is = .stopped error := by
  induction is with
  | nil => rfl
  | cons i is ih => exact ih

end Machine

/-! ## Operators -/

theorem Value.matches_eq (a b : Value) : a.matches b = (a == b) := by
  cases a <;> cases b <;> rfl

theorem Instruction.step_unary (op : UnaryOp) (operator : Token) (v : Value) (stack : List Value) :
    (unary op operator).step (v :: stack) = .result stack ((op.apply v).mapError (.atOperator operator)) := by
  cases op with
  | not =>
      cases v with
      | boolean b => cases b <;> rfl
      | _ => rfl
  | negate => cases v <;> rfl

theorem Instruction.step_binary (op : BinaryOp) (operator : Token) (a b : Value) (stack : List Value) :
    (binary op operator).step (b :: a :: stack) =
      .result stack ((op.apply a b).mapError (.atOperator operator)) := by
  cases op with
  | eq =>
      rw [step, Value.matches_eq]
      rfl
  | ne =>
      rw [step, Value.matches_eq]
      rfl
  | _ => cases a <;> cases b <;> rfl

/-! ## Trees -/

namespace Expr

/-- What a node has the machine do. A grouping leaves it alone. -/
def instruction? : Expr → Option Instruction
  | .literal value _ => some (.push value)
  | .grouping .. => none
  | .unary op operator _ => some (.unary op operator)
  | .binary op operator _ _ => some (.binary op operator)

def instructions (e : Expr) : List Instruction :=
  e.postorder.filterMap instruction?

section
variable {op : UnaryOp} {bop : BinaryOp} {operator : Token} {inner lhs rhs : Expr} {span : Span}

theorem instructions_grouping : (grouping inner span).instructions = inner.instructions := by
  simp [instructions, postorder, instruction?]

theorem instructions_unary : (unary op operator inner).instructions = inner.instructions ++ [.unary op operator] := by
  simp [instructions, postorder, instruction?]

theorem instructions_binary :
    (binary bop operator lhs rhs).instructions = lhs.instructions ++ rhs.instructions ++ [.binary bop operator] := by
  simp [instructions, postorder, instruction?]

end

/-- Whatever is on the stack, the run of a tree puts its value on top, or stops at its error. -/
theorem run_instructions (e : Expr) (stack : List Value) :
    (Machine.running stack).run e.instructions = .result stack e.eval := by
  induction e generalizing stack with
  | literal value token => rfl
  | grouping inner span ih => rw [instructions_grouping, ih, eval]
  | unary op operator operand ih =>
      rw [instructions_unary, Machine.run_append, ih, eval_unary]
      cases operand.eval with
      | error error => exact Machine.run_stopped
      | ok v => exact Instruction.step_unary op operator v stack
  | binary op operator lhs rhs ihl ihr =>
      rw [instructions_binary, Machine.run_append, Machine.run_append, ihl, eval_binary]
      cases lhs.eval with
      | error error => simp only [Machine.result, Machine.run_stopped]
      | ok a =>
          rw [Machine.result, ihr]
          cases rhs.eval with
          | error error => exact Machine.run_stopped
          | ok b => exact Instruction.step_binary op operator a b stack

/-- The error on the left comes first, though both sides have one. -/
example (a b c token : Token) :
    let left := unary .negate a (literal .nil token)
    let right := unary .negate b (literal .nil token)
    (Machine.running []).run (binary .eq c left right).instructions = .stopped (.atOperator a .operandNotNumber) := rfl

/--
Evaluation agrees with the run of the tree on an empty stack, and so does interpretation: there is a value exactly if the
run ends with it alone on the stack, and otherwise the error at which the run stops.
-/
theorem eval_iff_run (e : Expr) :
    (∀ v, e.eval = .ok v ↔ (Machine.running []).run e.instructions = .running [v]) ∧
    (∀ error, e.eval = .error error ↔ (Machine.running []).run e.instructions = .stopped error) ∧
    (∀ text, e.interpret = .ok text ↔
      ∃ v, (Machine.running []).run e.instructions = .running [v] ∧ v.text = text) ∧
    ∀ error, e.interpret = .error error ↔ (Machine.running []).run e.instructions = .stopped error := by
  rw [run_instructions, interpret]
  cases e.eval with
  | ok v => simp [Machine.result, Except.map]
  | error error => simp [Machine.result, Except.map]

end Expr
end Reckon
