import Reckon.Proofs.Expr.Relocation

/-!
# Images of token lists

The parser meets its tokens one by one, and it never goes on behind the end of a source. A list in which it meets the same
tokens, though at other places, is an image of the first list. From an image the parser makes the same tree or the same
error at these other places (`parse_tokens`).
-/

namespace Reckon

variable {r : Relocation}

def CompileError.relocated (r : Relocation) (e : CompileError) : CompileError :=
  { e with line := r.line e.line, span := e.span.relocated r }

@[simp] theorem Token.kind_relocated (t : Token) : (t.relocated r).kind = t.kind := rfl

@[simp] theorem Token.value?_relocated (t : Token) : (t.relocated r).value? = t.value? := rfl

@[simp] theorem Token.span_relocated (t : Token) : (t.relocated r).span = t.span.relocated r := rfl

@[simp] theorem CompileError.atToken_relocated (t : Token) (fault : CompileFault) :
    atToken (t.relocated r) fault = (atToken t fault).relocated r := rfl

namespace Parser

/-- A list for each list of tokens, in which the same tokens are met at other places. -/
structure Image where
  tokens : List Token → List Token
  places : Relocation
  current_tokens : ∀ ts, current (tokens ts) = (current ts).relocated places
  advance_tokens : ∀ ts, (current ts).kind ≠ .eof → advance (tokens ts) = tokens (advance ts)

namespace Image

def result (m : Image) : Result → Result
  | .ok (e, rest) => .ok (e.relocated m.places, m.tokens rest)
  | .error e => .error (e.relocated m.places)

/-- A reader of operands goes by the tokens it meets. -/
def Respected (m : Image) (next : Level → List Token → Result) : Prop :=
  ∀ level ts, next level (m.tokens ts) = m.result (next level ts)

variable {m : Image} {next : Level → List Token → Result} {ts : List Token}

theorem head_tokens (hnext : m.Respected next) : head next (m.tokens ts) = m.result (head next ts) := by
  unfold head
  simp only [m.current_tokens, Token.kind_relocated, Token.value?_relocated, Token.span_relocated,
    CompileError.atToken_relocated]
  split
  · rename_i hp
    rw [m.advance_tokens ts (by simp [hp]), hnext]
    cases next .equality (advance ts) with
    | error e => rfl
    | ok read =>
        obtain ⟨inner, rest⟩ := read
        simp only [result, bind, Except.bind, m.current_tokens, Token.kind_relocated]
        split
        · rename_i hc
          rw [m.advance_tokens rest (by simp [hc])]
          rfl
        · rfl
  split
  · rename_i hl
    rw [m.advance_tokens ts (by intro he; simp [he, Kind.isLiteral] at hl)]
    cases (current ts).value? <;> rfl
  split
  · rename_i op hu
    rw [m.advance_tokens ts (by intro he; simp [he, Kind.unaryOp?] at hu), hnext]
    cases next .unary (advance ts) <;> rfl
  · rfl

theorem chain_tokens {height : Nat} {level : Level} {lhs : Expr} (hnext : m.Respected next) :
    chain next height level (lhs.relocated m.places) (m.tokens ts) = m.result (chain next height level lhs ts) := by
  have hadvance {op ts} (ho : (current ts).kind.binaryOp? = some op) : advance (m.tokens ts) = m.tokens (advance ts) :=
    m.advance_tokens ts (by intro he; simp [he, Kind.binaryOp?] at ho)
  fun_induction chain next height level lhs ts with
  | case1 lhs ts t ho =>
      rw [chain]
      simp [m.current_tokens, t, ho, result]
  | case2 lhs ts t op ho hle err herr =>
      rw [chain]
      simp [m.current_tokens, hadvance ho, t, ho, hle, hnext _ _, herr, result]
  | case3 lhs ts t op ho hle rhs rest hr hh =>
      rw [chain]
      simp [m.current_tokens, hadvance ho, t, ho, hle, hnext _ _, hr, hh, result]
  | case4 lhs ts t op ho hle rhs rest hr hh ih =>
      rw [chain]
      simpa [m.current_tokens, hadvance ho, t, ho, hle, hnext _ _, hr, hh, result, Expr.relocated] using ih
  | case5 lhs ts t op ho hle =>
      rw [chain]
      simp [m.current_tokens, t, ho, hle, result]

theorem operand_tokens (m : Image) (height depth : Nat) : m.Respected (operand height depth) := by
  induction depth with
  | zero =>
      intro level ts
      simp [operand, m.current_tokens, result]
  | succ depth ih =>
      intro level ts
      rw [operand, operand, head_tokens ih]
      cases head (operand height depth) ts with
      | error e => rfl
      | ok read => exact chain_tokens ih

theorem parse_tokens (m : Image) (ts : List Token) :
    parse (m.tokens ts) = ((parse ts).map (Expr.relocated m.places)).mapError (CompileError.relocated m.places) := by
  rw [parse, parse, parseWithin, parseWithin, operand_tokens]
  cases operand maxHeight maxNesting .equality ts with
  | error e => rfl
  | ok read =>
      obtain ⟨e, rest⟩ := read
      simp only [result, bind, Except.bind, m.current_tokens, Token.kind_relocated]
      split <;> rfl

end Image
end Parser
end Reckon
