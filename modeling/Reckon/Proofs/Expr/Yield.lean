import Reckon.Expr.Parser

/-!
# Trees and the tokens they stand for

`Yields e ts` says that `ts` are the tokens of the tree `e` from left to right, and that each node is what its tokens
denote. A grouping keeps the span of its parentheses only, so the tokens of a tree are a relation and no function.

Four measures of a tree decide whether the parser reads it: its binary nodes are stratified by level, `need` counts the
operands that are open at the same time, and `SidesBelow` bounds the height of the sides of its binary nodes.
-/

namespace Reckon

/-! ## Levels -/

namespace Level

theorem rank_le_unary (level : Level) : level.rank ≤ Level.unary.rank := by
  cases level <;> decide

@[simp] theorem rank_equality : Level.equality.rank = 0 := rfl

@[simp] theorem rank_unary : Level.unary.rank = 4 := rfl

end Level

theorem BinaryOp.rank_lt_unary (op : BinaryOp) : op.level.rank < Level.unary.rank := by
  cases op <;> decide

@[simp] theorem BinaryOp.rank_above (op : BinaryOp) : op.level.above.rank = op.level.rank + 1 := by
  cases op <;> rfl

namespace Expr

/-- The level at which a tree binds. Whatever is no binary node binds as tightly as a unary operator. -/
def level : Expr → Level
  | .binary op _ _ _ => op.level
  | _ => .unary

theorem level_eq_unary {e : Expr} (h : Level.unary.rank ≤ e.level.rank) : e.level = .unary := by
  cases e with
  | binary op => exact absurd op.rank_lt_unary (Nat.not_lt_of_le h)
  | _ => rfl

/--
Operators of one level group to the left, those of a higher level come first, and the operand of a unary operator is no
binary node.
-/
def Stratified : Expr → Prop
  | .literal .. => True
  | .grouping inner _ => inner.Stratified
  | .unary _ _ operand => operand.level = .unary ∧ operand.Stratified
  | .binary op _ lhs rhs =>
      op.level.rank ≤ lhs.level.rank ∧ op.level.rank < rhs.level.rank ∧ lhs.Stratified ∧ rhs.Stratified

/-- How many operands are open at the same time. A chain of operators opens one for each of its right sides in turn. -/
def need : Expr → Nat
  | .literal .. => 1
  | .grouping inner _ => 1 + inner.need
  | .unary _ _ operand => 1 + operand.need
  | .binary _ _ lhs rhs => max lhs.need (1 + rhs.need)

/-- Both sides of every binary node are of less than the given height. -/
def SidesBelow (limit : Nat) : Expr → Prop
  | .literal .. => True
  | .grouping inner _ => inner.SidesBelow limit
  | .unary _ _ operand => operand.SidesBelow limit
  | .binary _ _ lhs rhs =>
      (lhs.height < limit ∧ rhs.height < limit) ∧ lhs.SidesBelow limit ∧ rhs.SidesBelow limit

theorem need_pos (e : Expr) : 0 < e.need := by
  induction e with
  | literal => simp [need]
  | grouping => simp only [need]; omega
  | unary => simp only [need]; omega
  | binary => simp only [need]; omega

theorem exists_succ_of_need_le {e : Expr} {depth : Nat} (h : e.need ≤ depth) : ∃ d, depth = d + 1 :=
  Nat.exists_eq_succ_of_ne_zero (Nat.ne_of_gt (Nat.lt_of_lt_of_le e.need_pos h))

theorem SidesBelow.mono {e : Expr} {m n : Nat} (hmn : m ≤ n) (h : e.SidesBelow m) : e.SidesBelow n := by
  induction e with
  | literal => trivial
  | grouping _ _ ih => exact ih h
  | unary _ _ _ ih => exact ih h
  | binary _ _ lhs rhs ihl ihr =>
      obtain ⟨⟨hl, hr⟩, hls, hrs⟩ := h
      exact ⟨⟨by omega, by omega⟩, ihl hls, ihr hrs⟩

theorem sidesBelow_height (e : Expr) : e.SidesBelow e.height := by
  induction e with
  | literal => trivial
  | grouping _ _ ih => exact ih.mono (by simp [height])
  | unary _ _ _ ih => exact ih.mono (by simp [height])
  | binary _ _ lhs rhs ihl ihr =>
      refine ⟨?_, ihl.mono ?_, ihr.mono ?_⟩ <;> simp only [height] <;> omega

end Expr

/-! ## Tokens of a tree -/

/-- The tokens of a tree, from left to right. -/
inductive Yields : Expr → List Token → Prop where
  | literal {value t} (hv : t.value? = some value) : Yields (.literal value t) [t]
  | grouping {opening closing inner ts} (ho : opening.kind = .leftParen) (hi : Yields inner ts)
      (hc : closing.kind = .rightParen) :
      Yields (.grouping inner ⟨opening.span.start, closing.span.stop⟩) (opening :: (ts ++ [closing]))
  | unary {op operator operand ts} (ho : operator.kind.unaryOp? = some op) (hx : Yields operand ts) :
      Yields (.unary op operator operand) (operator :: ts)
  | binary {op operator lhs rhs ts us} (ho : operator.kind.binaryOp? = some op) (hl : Yields lhs ts)
      (hr : Yields rhs us) : Yields (.binary op operator lhs rhs) (ts ++ operator :: us)

theorem Token.isLiteral_of_value? {t : Token} {value : Value} (h : t.value? = some value) : t.kind.isLiteral := by
  unfold Token.value? at h
  split at h <;> simp_all [Kind.isLiteral]

namespace Yields

theorem ne_nil {e ts} (h : Yields e ts) : ts ≠ [] := by
  cases h <;> simp

theorem ne_eof {e ts} (h : Yields e ts) : ∀ t ∈ ts, t.kind ≠ .eof := by
  induction h with
  | @literal value t hv =>
      intro s hs he
      have := Token.isLiteral_of_value? hv
      simp_all [Kind.isLiteral]
  | grouping ho _ hc ih =>
      intro s hs
      simp only [List.mem_cons, List.mem_append, List.not_mem_nil, or_false] at hs
      rcases hs with rfl | hs | rfl
      · simp [ho]
      · exact ih s hs
      · simp [hc]
  | unary ho _ ih =>
      intro s hs
      rcases List.mem_cons.mp hs with rfl | hs
      · intro he; simp [he, Kind.unaryOp?] at ho
      · exact ih s hs
  | binary ho _ _ ihl ihr =>
      intro s hs
      simp only [List.mem_append, List.mem_cons] at hs
      rcases hs with hs | rfl | hs
      · exact ihl s hs
      · intro he; simp [he, Kind.binaryOp?] at ho
      · exact ihr s hs

end Yields

/-! ## The end of the source -/

def HasEof (ts : List Token) : Prop := ∃ t ∈ ts, t.kind = .eof

def beforeEof (ts : List Token) : List Token := ts.takeWhile fun t => t.kind != .eof

@[simp] theorem hasEof_cons {t : Token} {ts : List Token} : HasEof (t :: ts) ↔ t.kind = .eof ∨ HasEof ts := by
  simp [HasEof]

theorem HasEof.ne_nil {ts : List Token} (h : HasEof ts) : ts ≠ [] := by
  rintro rfl
  simp [HasEof] at h

theorem HasEof.of_append {us ts : List Token} (hus : ∀ t ∈ us, t.kind ≠ .eof) (h : HasEof (us ++ ts)) : HasEof ts := by
  obtain ⟨t, ht, he⟩ := h
  rcases List.mem_append.mp ht with hu | ht
  · exact absurd he (hus t hu)
  · exact ⟨t, ht, he⟩

theorem beforeEof_append {us ts : List Token} (hus : ∀ t ∈ us, t.kind ≠ .eof) (hts : (Parser.current ts).kind = .eof) :
    beforeEof (us ++ ts) = us := by
  unfold beforeEof
  rw [List.takeWhile_append_of_pos (by simpa using hus)]
  cases ts with
  | nil => simp
  | cons t ts =>
      have : t.kind = .eof := hts
      simp [this]

theorem HasEof.split {ts : List Token} (h : HasEof ts) :
    ∃ eof rest, ts = beforeEof ts ++ eof :: rest ∧ eof.kind = .eof := by
  induction ts with
  | nil => exact absurd rfl h.ne_nil
  | cons t ts ih =>
      by_cases he : t.kind = .eof
      · exact ⟨t, ts, by simp [beforeEof, he], he⟩
      · obtain ⟨eof, rest, hts, hk⟩ := ih ((hasEof_cons.mp h).resolve_left he)
        refine ⟨eof, rest, ?_, hk⟩
        have hb : beforeEof (t :: ts) = t :: beforeEof ts := by simp [beforeEof, he]
        rw [hb, List.cons_append, ← hts]

theorem HasEof.advance {ts : List Token} (h : HasEof ts) (hne : (Parser.current ts).kind ≠ .eof) :
    ts = Parser.current ts :: Parser.advance ts ∧ HasEof (Parser.advance ts) := by
  match ts with
  | [] => exact absurd rfl h.ne_nil
  | [t] => exact absurd ((hasEof_cons.mp h).resolve_right fun h => h.ne_nil rfl) hne
  | t :: u :: ts => exact ⟨rfl, (hasEof_cons.mp h).resolve_left hne⟩

end Reckon
