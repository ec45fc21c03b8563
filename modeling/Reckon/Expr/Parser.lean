import Reckon.Expr.Basic
import Reckon.Token.Scanner

/-!
# Parsing

Operators bind by their level and, within one level, to the left. An operand is a literal, a grouping, or a unary
operator with its operand; a chain of binary operators of a level or above it follows.

Two limits bound what is read, whatever the tokens are. Operands are nested at most `maxNesting` deep, and a binary
operator is refused if one of its sides is already of height `maxHeight`. Both limits are reasons why parsing ends:
the first one for the nesting of operands, the second one for the length of chains.
-/

namespace Reckon

/-- How deep operands may be nested. -/
def maxNesting : Nat := 256

/-- The height at which a side of a binary operator is too high. -/
def maxHeight : Nat := 1024

/-! ## Operators -/

inductive Level where
  | equality | comparison | term | factor | unary
deriving DecidableEq, Repr

namespace Level

def rank : Level → Nat
  | .equality => 0
  | .comparison => 1
  | .term => 2
  | .factor => 3
  | .unary => 4

def above : Level → Level
  | .equality => .comparison
  | .comparison => .term
  | .term => .factor
  | .factor => .unary
  | .unary => .unary

end Level

def BinaryOp.level : BinaryOp → Level
  | .eq | .ne => .equality
  | .gt | .gtEq | .lt | .ltEq => .comparison
  | .add | .sub => .term
  | .mul | .div => .factor

namespace Kind

/-- The binary operator that a token stands for between two operands. -/
def binaryOp? : Kind → Option BinaryOp
  | .equalEqual => some .eq
  | .bangEqual => some .ne
  | .greater => some .gt
  | .greaterEqual => some .gtEq
  | .less => some .lt
  | .lessEqual => some .ltEq
  | .plus => some .add
  | .minus => some .sub
  | .star => some .mul
  | .slash => some .div
  | _ => none

/-- The unary operator that a token stands for before an operand. -/
def unaryOp? : Kind → Option UnaryOp
  | .bang => some .not
  | .minus => some .negate
  | _ => none

def isLiteral : Kind → Bool
  | .number | .string | .keyword .true | .keyword .false | .keyword .nil => true
  | _ => false

end Kind

/-- The value of a literal token. A number and a string must carry a literal of their sort. -/
def Token.value? (t : Token) : Option Value :=
  match t.kind, t.literal with
  | .number, some (.number x) => some (.number x)
  | .string, some (.string s) => some (.string s)
  | .keyword .true, _ => some (.boolean true)
  | .keyword .false, _ => some (.boolean false)
  | .keyword .nil, _ => some .nil
  | _, _ => none

namespace Parser

/-! ## Tokens ahead -/

/-- The token that comes next. Without tokens the source has ended on its first line. -/
def current : List Token → Token
  | [] => .eof 0 0
  | t :: _ => t

/-- Goes on by one token. The last token stays and is met again and again. -/
def advance : List Token → List Token
  | _ :: t :: ts => t :: ts
  | ts => ts

/-- What was read, and the tokens ahead of it. -/
abbrev Result := Except CompileError (Expr × List Token)

/-! ## Expressions -/

/-- The beginning of an operand, up to where binary operators may follow. `next` reads the operands inside. -/
def head (next : Level → List Token → Result) (ts : List Token) : Result :=
  let t := current ts
  if t.kind = .leftParen then do
    let (inner, rest) ← next .equality (advance ts)
    let closing := current rest
    if closing.kind = .rightParen then
      .ok (.grouping inner ⟨t.span.start, closing.span.stop⟩, advance rest)
    else .error (.atToken closing .expectRightParen)
  else if t.kind.isLiteral then
    match t.value? with
    | some value => .ok (.literal value t, advance ts)
    | none => .error (.atToken t .invalidLiteral)
  else
    match t.kind.unaryOp? with
    | some op => do
        let (operand, rest) ← next .unary (advance ts)
        .ok (.unary op t operand, rest)
    | none => .error (.atToken t .expectExpression)

/--
The binary operators of the level or above it that follow `lhs`, each with its right side, which `next` reads. Sides of
the given height are too high.
-/
def chain (next : Level → List Token → Result) (height : Nat) (level : Level) (lhs : Expr) (ts : List Token) :
    Result :=
  let t := current ts
  match t.kind.binaryOp? with
  | none => .ok (lhs, ts)
  | some op =>
      if level.rank ≤ op.level.rank then
        match next op.level.above (advance ts) with
        | .error e => .error e
        | .ok (rhs, rest) =>
            if height ≤ max lhs.height rhs.height then .error (.atToken t .nestsTooDeeply)
            else chain next height level (.binary op t lhs rhs) rest
      else .ok (lhs, ts)
termination_by height - lhs.height
decreasing_by simp only [Expr.height]; omega

/-- An operand with the operators of the level or above it, where `depth` more operands may be nested. -/
def operand (height : Nat) : (depth : Nat) → Level → List Token → Result
  | 0, _, ts => .error (.atToken (current ts) .nestsTooDeeply)
  | depth + 1, level, ts => do
      let (lhs, rest) ← head (operand height depth) ts
      chain (operand height depth) height level lhs rest

/-- Reads one expression within the given limits, after which the source has to end. -/
def parseWithin (nesting height : Nat) (ts : List Token) : Except CompileError Expr := do
  let (e, rest) ← operand height nesting .equality ts
  if (current rest).kind = .eof then .ok e
  else .error (.atToken (current rest) .expectEnd)

def parse (ts : List Token) : Except CompileError Expr :=
  parseWithin maxNesting maxHeight ts

end Parser

namespace Expr

/-- The expression of a scanned source. All lexical errors are reported, and after them that of the parser. -/
def ofScan (s : Scan) : Except (List CompileError) Expr :=
  match Parser.parse s.tokens with
  | .ok e => if s.errors.isEmpty then .ok e else .error s.errors
  | .error e => .error (s.errors ++ [e])

def ofSource (source : String) : Except (List CompileError) Expr :=
  ofScan (scan source)

end Expr
end Reckon
