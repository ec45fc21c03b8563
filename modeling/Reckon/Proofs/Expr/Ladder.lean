import Reckon.Proofs.Expr.Yield

/-!
# The grammar of expressions

The ladder of levels as a grammar over tokens, with no bound on nesting or height: a binary operator of a level takes its
left side from this level and its right side from the next one. `Sentence` is an expression with the end of the source
after it, and `Viable` is what some sentence begins with.

The beginning of a sentence is cut at its open parentheses. Before the last of them, and before each other one, stands the
part of an expression that leads up to an operand (`Lead`). Any operand completes such a part to an expression, so every
beginning of this form can be completed.
-/

namespace Reckon

theorem Level.eq_of_rank_eq {a b : Level} (h : a.rank = b.rank) : a = b := by
  cases a <;> cases b <;> first | rfl | cases h

theorem Level.rank_above (level : Level) (h : level.rank < Level.unary.rank) : level.above.rank = level.rank + 1 := by
  cases level <;> first | rfl | exact absurd h (Nat.lt_irrefl _)

/-- The tokens of an expression of a level, or of a higher one. -/
inductive Derives : Level → List Token → Prop where
  | literal {t} (ht : t.kind.isLiteral) : Derives .unary [t]
  | grouping {opening closing ts} (ho : opening.kind = .leftParen) (hi : Derives .equality ts)
      (hc : closing.kind = .rightParen) : Derives .unary (opening :: (ts ++ [closing]))
  | unary {op operator ts} (ho : operator.kind.unaryOp? = some op) (hx : Derives .unary ts) :
      Derives .unary (operator :: ts)
  | binary {op operator ts us} (ho : operator.kind.binaryOp? = some op) (hl : Derives op.level ts)
      (hr : Derives op.level.above us) : Derives op.level (ts ++ operator :: us)
  | above {level ts} (h : Derives level.above ts) : Derives level ts

/-- An expression and the end of the source. -/
def Sentence (ts : List Token) : Prop :=
  ∃ us eof, Derives .equality us ∧ eof.kind = .eof ∧ ts = us ++ [eof]

/-- The tokens that a sentence may begin with. -/
def Viable (ts : List Token) : Prop := ∃ us, Sentence us ∧ ts <+: us

namespace Derives

variable {level : Level} {ts us : List Token}

theorem ofUnary (h : Derives .unary ts) : Derives level ts := by
  have hf : Derives .factor ts := .above h
  have ht : Derives .term ts := .above hf
  have hc : Derives .comparison ts := .above ht
  cases level with
  | equality => exact .above hc
  | comparison => exact hc
  | term => exact ht
  | factor => exact hf
  | unary => exact h

theorem mono {tighter : Level} (hle : level.rank ≤ tighter.rank) (h : Derives tighter ts) : Derives level ts := by
  obtain ⟨n, hn⟩ := Nat.exists_eq_add_of_le hle
  induction n generalizing level with
  | zero => exact Level.eq_of_rank_eq hn ▸ h
  | succ n ih =>
      have habove := Level.rank_above level (by have := tighter.rank_le_unary; omega)
      exact .above (ih (by omega) (by omega))

/-- One operand more makes a longer expression: the operator finds its place in the ladder. -/
theorem extend {op operator} (h : Derives level ts) (ho : operator.kind.binaryOp? = some op)
    (hop : level.rank ≤ op.level.rank) (hu : Derives .unary us) : Derives level (ts ++ operator :: us) := by
  induction h with
  | literal | grouping | unary => exact absurd op.rank_lt_unary (Nat.not_lt_of_le hop)
  | @binary op' operator' ts vs ho' hl hr _ ih =>
      rcases Nat.lt_or_eq_of_le hop with hlt | heq
      · have := ih (by rw [BinaryOp.rank_above]; exact hlt)
        simpa using Derives.binary ho' hl this
      · have hlevel := Level.eq_of_rank_eq heq
        have hlhs : Derives op.level (ts ++ operator' :: vs) := hlevel ▸ .binary ho' hl hr
        exact hlevel ▸ .binary ho hlhs hu.ofUnary
  | @above level ts h ih =>
      rcases Nat.lt_or_eq_of_le hop with hlt | heq
      · refine .above (ih ?_)
        rw [Level.rank_above _ (Nat.lt_trans hlt op.rank_lt_unary)]
        exact hlt
      · have hlevel := Level.eq_of_rank_eq heq
        have hlhs : Derives op.level ts := hlevel ▸ .above h
        exact hlevel ▸ .binary ho hlhs hu.ofUnary

theorem exists_last (h : Derives level ts) :
    ∃ us t, ts = us ++ [t] ∧ (t.kind.isLiteral ∨ t.kind = .rightParen) := by
  induction h with
  | @literal t ht => exact ⟨[], t, rfl, .inl ht⟩
  | @grouping opening closing ts ho hi hc => exact ⟨opening :: ts, closing, by simp, .inr hc⟩
  | @unary op operator ts ho hx ih =>
      obtain ⟨us, t, rfl, ht⟩ := ih
      exact ⟨operator :: us, t, by simp, ht⟩
  | @binary op operator ts us ho hl hr ihl ihr =>
      obtain ⟨vs, t, rfl, ht⟩ := ihr
      exact ⟨ts ++ operator :: vs, t, by simp, ht⟩
  | above _ ih => exact ih

end Derives

theorem Yields.derives {e ts} (h : Yields e ts) (hs : e.Stratified) : Derives e.level ts := by
  induction h with
  | literal hv => exact .literal (Token.isLiteral_of_value? hv)
  | grouping ho _ hc ih => exact .grouping ho ((ih hs).mono (Nat.zero_le _)) hc
  | unary ho _ ih => exact .unary ho (hs.1 ▸ ih hs.2)
  | @binary op operator lhs rhs ts us ho hl hr ihl ihr =>
      obtain ⟨hol, hor, hsl, hsr⟩ := hs
      exact .binary ho ((ihl hsl).mono hol) ((ihr hsr).mono (by rw [BinaryOp.rank_above]; exact hor))

/-! ## Beginnings of sentences -/

/-- The part of an expression that leads up to an operand. -/
inductive Lead : List Token → Prop where
  | start : Lead []
  | binary {op operator ts} (h : Derives .equality ts) (ho : operator.kind.binaryOp? = some op) : Lead (ts ++ [operator])
  | unary {op operator ts} (h : Lead ts) (ho : operator.kind.unaryOp? = some op) : Lead (ts ++ [operator])

/-- The beginning of a sentence up to its last open parenthesis, of which there are `n`. -/
inductive Opened : Nat → List Token → Prop where
  | start : Opened 0 []
  | paren {n outer lead opening} (h : Opened n outer) (hl : Lead lead) (ho : opening.kind = .leftParen) :
      Opened (n + 1) (outer ++ lead ++ [opening])

theorem Lead.fill {ts us : List Token} (h : Lead ts) (hu : Derives .unary us) : Derives .equality (ts ++ us) := by
  induction h generalizing us with
  | start => exact hu.ofUnary
  | binary h ho => simpa using h.extend ho (Nat.zero_le _) hu
  | unary _ ho ih => simpa using ih (.unary ho hu)

namespace Opened

variable {n : Nat} {outer us : List Token}

theorem complete (h : Opened n outer) (hu : Derives .equality us) : ∃ vs, Derives .equality (outer ++ us ++ vs) := by
  induction h generalizing us with
  | start => exact ⟨[], by simpa using hu⟩
  | @paren n outer lead opening h hl ho ih =>
      let closing : Token := ⟨.rightParen, ")", none, 0, ⟨0, 0⟩⟩
      have hgroup : Derives .unary (opening :: (us ++ [closing])) := .grouping ho hu rfl
      obtain ⟨vs, hv⟩ := ih (hl.fill hgroup)
      exact ⟨closing :: vs, by simpa using hv⟩

theorem viable (h : Opened n outer) (hu : Derives .equality us) : Viable (outer ++ us) := by
  obtain ⟨vs, hv⟩ := h.complete hu
  exact ⟨outer ++ us ++ vs ++ [.eof 0 0], ⟨_, _, hv, rfl, rfl⟩, by simp⟩

theorem viable_lead (h : Opened n outer) {lead : List Token} (hl : Lead lead) : Viable (outer ++ lead) := by
  let t : Token := ⟨.keyword .true, "true", none, 0, ⟨0, 0⟩⟩
  obtain ⟨vs, hs, hp⟩ := h.viable (hl.fill (.literal (t := t) rfl))
  refine ⟨vs, hs, List.IsPrefix.trans ?_ hp⟩
  simp

end Opened
end Reckon
