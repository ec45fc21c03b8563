import Reckon.Expr.Parser
import Reckon.Proofs.Result

/-!
# Steps of the parser

What the beginning of an operand and the chain of operators behind it come to, for each kind of token that may stand
there. The tokens after it must not have run out, as then the last one is met again. The other way round, what was read
or refused tells which tokens were met (`head_eq_ok`, `head_eq_error`), whether or not others come after them.
-/

namespace Reckon.Parser

variable {next : Level → List Token → Result} {height depth nesting : Nat} {level : Level} {t : Token}
  {ts mid rest : List Token} {e : Expr} {err : CompileError}

@[simp] theorem current_cons : current (t :: ts) = t := rfl

theorem advance_cons (hts : ts ≠ []) : advance (t :: ts) = ts := by
  cases ts with
  | nil => exact absurd rfl hts
  | cons u ts => rfl

/-! ## The beginning of an operand -/

theorem head_of_leftParen (ht : t.kind = .leftParen) (hts : ts ≠ []) :
    head next (t :: ts) =
      match next .equality ts with
      | .error e => .error e
      | .ok (inner, rest) =>
          if (current rest).kind = .rightParen then
            .ok (.grouping inner ⟨t.span.start, (current rest).span.stop⟩, advance rest)
          else .error (.atToken (current rest) .expectRightParen) := by
  unfold head
  simp only [current_cons, ht, ↓reduceIte, advance_cons hts]
  cases next .equality ts <;> rfl

theorem head_of_isLiteral (ht : t.kind.isLiteral) (hts : ts ≠ []) :
    head next (t :: ts) =
      match t.value? with
      | some value => .ok (.literal value t, ts)
      | none => .error (.atToken t .invalidLiteral) := by
  have hp : t.kind ≠ .leftParen := by
    intro hp
    simp [hp, Kind.isLiteral] at ht
  unfold head
  cases hv : t.value? <;> simp [hp, ht, hv, advance_cons hts]

theorem head_of_unaryOp? {op : UnaryOp} (ht : t.kind.unaryOp? = some op) (hts : ts ≠ []) :
    head next (t :: ts) =
      match next .unary ts with
      | .error e => .error e
      | .ok (x, rest) => .ok (.unary op t x, rest) := by
  have hp : t.kind ≠ .leftParen := by
    intro hp
    simp [hp, Kind.unaryOp?] at ht
  have hl : t.kind.isLiteral = false := by
    revert ht
    cases t.kind <;> simp [Kind.unaryOp?, Kind.isLiteral]
  unfold head
  simp only [current_cons, hp, hl, ht, ↓reduceIte, Bool.false_eq_true, advance_cons hts]
  cases next .unary ts <;> rfl

/-- What begins an operand is a grouping, a literal, or a unary operator with its operand. -/
theorem head_eq_ok (h : head next ts = .ok (e, rest)) :
    (∃ inner mid, (current ts).kind = .leftParen ∧ next .equality (advance ts) = .ok (inner, mid) ∧
      (current mid).kind = .rightParen ∧
      e = .grouping inner ⟨(current ts).span.start, (current mid).span.stop⟩ ∧ rest = advance mid) ∨
    (∃ value, (current ts).value? = some value ∧ e = .literal value (current ts) ∧ rest = advance ts) ∨
    ∃ op x, (current ts).kind.unaryOp? = some op ∧ next .unary (advance ts) = .ok (x, rest) ∧
      e = .unary op (current ts) x := by
  simp only [head] at h
  split at h
  · rename_i hp
    obtain ⟨⟨inner, mid⟩, hi, h⟩ := bind_eq_ok.mp h
    split at h
    · rename_i hc
      cases h
      exact .inl ⟨inner, mid, hp, hi, hc, rfl, rfl⟩
    · cases h
  split at h
  · split at h
    · rename_i value hv
      cases h
      exact .inr (.inl ⟨value, hv, rfl, rfl⟩)
    · cases h
  split at h
  · rename_i op hu
    obtain ⟨⟨x, mid⟩, hx, h⟩ := bind_eq_ok.mp h
    cases h
    exact .inr (.inr ⟨op, x, hu, hx, rfl⟩)
  · cases h

/-- No operand begins if one inside is refused, a parenthesis is not closed, or the token carries no value or begins none. -/
theorem head_eq_error (h : head next ts = .error err) :
    ((current ts).kind = .leftParen ∧ next .equality (advance ts) = .error err) ∨
    (∃ inner mid, (current ts).kind = .leftParen ∧ next .equality (advance ts) = .ok (inner, mid) ∧
      (current mid).kind ≠ .rightParen ∧ err = .atToken (current mid) .expectRightParen) ∨
    (∃ op, (current ts).kind.unaryOp? = some op ∧ next .unary (advance ts) = .error err) ∨
    ((current ts).kind.isLiteral ∧ (current ts).value? = none ∧ err = .atToken (current ts) .invalidLiteral) ∨
    (current ts).kind ≠ .leftParen ∧ (current ts).kind.isLiteral = false ∧ (current ts).kind.unaryOp? = none ∧
      err = .atToken (current ts) .expectExpression := by
  simp only [head] at h
  split at h
  · rename_i hp
    rcases bind_eq_error.mp h with hi | ⟨⟨inner, mid⟩, hi, h⟩
    · exact .inl ⟨hp, hi⟩
    · split at h
      · cases h
      · rename_i hc
        cases h
        exact .inr (.inl ⟨inner, mid, hp, hi, hc, rfl⟩)
  rename_i hp
  split at h
  · rename_i hl
    split at h
    · cases h
    · rename_i hv
      cases h
      exact .inr (.inr (.inr (.inl ⟨hl, hv, rfl⟩)))
  rename_i hl
  split at h
  · rename_i op hu
    rcases bind_eq_error.mp h with hx | ⟨r, -, h⟩
    · exact .inr (.inr (.inl ⟨op, hu, hx⟩))
    · cases h
  · rename_i hu
    cases h
    exact .inr (.inr (.inr (.inr ⟨hp, Bool.eq_false_iff.mpr hl, hu, rfl⟩)))

/-! ## Chains -/

/-- No operator of the level or above it comes next. -/
def Stops (level : Level) (ts : List Token) : Prop :=
  ∀ op, (current ts).kind.binaryOp? = some op → op.level.rank < level.rank

theorem stops_unary (ts : List Token) : Stops .unary ts := by
  intro op _
  cases op <;> decide

theorem stops_of_none (h : (current ts).kind.binaryOp? = none) : Stops level ts := by
  intro op ho
  rw [h] at ho
  cases ho

theorem Stops.binaryOp?_eq_none (h : Stops .equality ts) : (current ts).kind.binaryOp? = none := by
  cases ho : (current ts).kind.binaryOp? with
  | none => rfl
  | some op => exact absurd (h op ho) (Nat.not_lt_zero _)

theorem chain_of_stops {lhs : Expr} (h : Stops level ts) : chain next height level lhs ts = .ok (lhs, ts) := by
  rw [chain]
  cases ho : (current ts).kind.binaryOp? with
  | none => rfl
  | some op => simp only [if_neg (Nat.not_le_of_lt (h op ho))]

theorem chain_of_binaryOp? {op : BinaryOp} {lhs : Expr} (ht : t.kind.binaryOp? = some op)
    (hop : level.rank ≤ op.level.rank) (hts : ts ≠ []) :
    chain next height level lhs (t :: ts) =
      match next op.level.above ts with
      | .error e => .error e
      | .ok (rhs, rest) =>
          if height ≤ max lhs.height rhs.height then .error (.atToken t .nestsTooDeeply)
          else chain next height level (.binary op t lhs rhs) rest := by
  rw [chain]
  cases hn : next op.level.above ts <;> simp [ht, hop, advance_cons hts, hn]

/-! ## Operands -/

theorem operand_succ :
    operand height (depth + 1) level ts =
      match head (operand height depth) ts with
      | .error e => .error e
      | .ok (lhs, rest) => chain (operand height depth) height level lhs rest := by
  rw [operand]
  cases head (operand height depth) ts <;> rfl

theorem operand_succ_eq_ok :
    operand height (depth + 1) level ts = .ok (e, rest) ↔
      ∃ lhs mid, head (operand height depth) ts = .ok (lhs, mid) ∧
        chain (operand height depth) height level lhs mid = .ok (e, rest) := by
  rw [operand, bind_eq_ok, Prod.exists]

theorem operand_succ_eq_error :
    operand height (depth + 1) level ts = .error err ↔
      head (operand height depth) ts = .error err ∨
        ∃ lhs mid, head (operand height depth) ts = .ok (lhs, mid) ∧
          chain (operand height depth) height level lhs mid = .error err := by
  rw [operand, bind_eq_error, Prod.exists]

/-! ## Sources -/

theorem parseWithin_eq_ok :
    parseWithin nesting height ts = .ok e ↔
      ∃ rest, operand height nesting .equality ts = .ok (e, rest) ∧ (current rest).kind = .eof := by
  rw [parseWithin, bind_eq_ok, Prod.exists]
  constructor
  · rintro ⟨e', rest, h, hend⟩
    dsimp only at hend
    split at hend
    · rename_i he
      cases hend
      exact ⟨rest, h, he⟩
    · cases hend
  · rintro ⟨rest, h, he⟩
    exact ⟨e, rest, h, if_pos he⟩

theorem parseWithin_eq_error (h : parseWithin nesting height ts = .error err) :
    operand height nesting .equality ts = .error err ∨
      ∃ e rest, operand height nesting .equality ts = .ok (e, rest) ∧ (current rest).kind ≠ .eof ∧
        err = .atToken (current rest) .expectEnd := by
  rcases bind_eq_error.mp h with hread | ⟨⟨e, rest⟩, hread, hend⟩
  · exact .inl hread
  · dsimp only at hend
    split at hend
    · cases hend
    · rename_i he
      cases hend
      exact .inr ⟨e, rest, hread, he, rfl⟩

end Reckon.Parser
