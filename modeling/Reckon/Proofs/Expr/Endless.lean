import Reckon.Proofs.Expr.Blame
import Reckon.Proofs.Expr.Image

/-!
# Token lists without an end

The last token of a list is met again and again, so a list without an end of the source never runs out, and its length
bounds nothing. The limits on nesting and height make the parser stop there too, always with an error at one of the tokens.
What comes behind the first end of the source is never met.
-/

namespace Reckon

variable {ts : List Token}

/-- The tokens up to the first end of the source, which is kept. -/
def throughEof : List Token → List Token
  | [] => []
  | t :: ts => if t.kind = .eof then [t] else t :: throughEof ts

theorem throughEof_of_eof {t : Token} (ht : t.kind = .eof) : throughEof (t :: ts) = [t] :=
  if_pos ht

theorem throughEof_cons {t : Token} (ht : t.kind ≠ .eof) : throughEof (t :: ts) = t :: throughEof ts :=
  if_neg ht

theorem throughEof_append {eof : Token} (he : eof.kind = .eof) (before after after' : List Token) :
    throughEof (before ++ eof :: after) = throughEof (before ++ eof :: after') := by
  induction before with
  | nil => exact (throughEof_of_eof he).trans (throughEof_of_eof he).symm
  | cons t before ih =>
      by_cases ht : t.kind = .eof
      · exact (throughEof_of_eof ht).trans (throughEof_of_eof ht).symm
      · rw [List.cons_append, List.cons_append, throughEof_cons ht, throughEof_cons ht, ih]

namespace Parser

theorem current_throughEof (ts : List Token) : current (throughEof ts) = current ts := by
  cases ts with
  | nil => rfl
  | cons t ts =>
      rw [throughEof]
      split <;> rfl

theorem advance_throughEof (ht : (current ts).kind ≠ .eof) : advance (throughEof ts) = throughEof (advance ts) := by
  match ts with
  | [] => rfl
  | [t] =>
      have hlast : throughEof [t] = [t] := throughEof_cons ht
      rw [hlast]
      exact hlast.symm
  | t :: u :: us =>
      have hfirst : throughEof (t :: u :: us) = t :: throughEof (u :: us) := throughEof_cons ht
      rw [hfirst, throughEof]
      by_cases hu : u.kind = .eof <;> simp [advance, throughEof, hu]

def untilEof : Image where
  tokens := throughEof
  places := ⟨id, id, id⟩
  current_tokens := current_throughEof
  advance_tokens := fun _ => advance_throughEof

theorem mapError_relocated_id (x : Except CompileError Expr) :
    (x.map (Expr.relocated ⟨id, id, id⟩)).mapError (CompileError.relocated ⟨id, id, id⟩) = x := by
  cases x with
  | ok e => exact congrArg Except.ok e.relocated_id
  | error e => rfl

/-- What comes behind the first end of the source is never met. -/
theorem parse_throughEof (ts : List Token) : parse (throughEof ts) = parse ts := by
  rw [← mapError_relocated_id (parse ts)]
  exact untilEof.parse_tokens ts

theorem exists_error_of_not_hasEof (hts : ts ≠ []) (h : ¬ HasEof ts) :
    ∃ t ∈ ts, ∃ fault, parse ts = .error (.atToken t fault) := by
  cases hparse : parse ts with
  | ok e => exact absurd (HasEof.of_parseWithin hparse) h
  | error err =>
      obtain ⟨t, ht, fault, rfl⟩ := exists_token_of_parse_eq_error hts hparse
      exact ⟨t, ht, fault, rfl⟩

/--
Tokens without an end of the source are refused at one of them. A tree is made only of tokens with an end, and whether a
tree or an error is made, what is behind the first end has no part in it.
-/
theorem parse_ends :
    (∀ ts, ts ≠ [] → ¬ HasEof ts → ∃ t ∈ ts, ∃ fault, parse ts = .error (.atToken t fault)) ∧
    (∀ ts e, parse ts = .ok e → HasEof ts) ∧
    ∀ before eof after after', eof.kind = .eof → parse (before ++ eof :: after) = parse (before ++ eof :: after') := by
  refine ⟨fun ts hts h => exists_error_of_not_hasEof hts h, fun ts e h => HasEof.of_parseWithin h, ?_⟩
  intro before eof after after' he
  calc parse (before ++ eof :: after)
      = parse (throughEof (before ++ eof :: after)) := (parse_throughEof _).symm
    _ = parse (throughEof (before ++ eof :: after')) := by rw [throughEof_append he before after after']
    _ = parse (before ++ eof :: after') := parse_throughEof _

/-- An operator that may stand before itself is taken for one more operand each time, until no more may be nested. -/
theorem operand_repeated {t : Token} {op : UnaryOp} (ht : t.kind.unaryOp? = some op) (height depth : Nat) (level : Level) :
    operand height depth level [t] = .error (.atToken t .nestsTooDeeply) := by
  induction depth generalizing level with
  | zero => rfl
  | succ depth ih =>
      have hp : t.kind ≠ .leftParen := by
        intro hp
        simp [hp, Kind.unaryOp?] at ht
      have hl : t.kind.isLiteral = false := by
        revert ht
        cases t.kind <;> simp [Kind.unaryOp?, Kind.isLiteral]
      have hhead : head (operand height depth) [t] = .error (.atToken t .nestsTooDeeply) := by
        unfold head
        simp [hp, hl, ht, advance, ih, bind, Except.bind]
      rw [operand_succ, hhead]

/-- The minus sign of `true -` is met again and again, and a parenthesis behind the end of the source is not met. -/
theorem parse_ends_minus :
    let a : Token := ⟨.keyword .true, "true", none, 0, ⟨0, 4⟩⟩
    let minus : Token := ⟨.minus, "-", none, 0, ⟨5, 6⟩⟩
    let closing : Token := ⟨.rightParen, ")", none, 0, ⟨5, 6⟩⟩
    [a, minus] ≠ [] ∧ ¬ HasEof [a, minus] ∧ (∃ t ∈ [a, minus], ∃ fault, parse [a, minus] = .error (.atToken t fault)) ∧
      parse [a, minus] = .error (.atToken minus .nestsTooDeeply) ∧
      parse [a, .eof 0 4, closing] = .ok (.literal (.boolean true) a) ∧ HasEof [a, .eof 0 4, closing] := by
  intro a minus closing
  have hne : [a, minus] ≠ [] := by simp
  have hendless : ¬ HasEof [a, minus] := by simp [HasEof, a, minus]
  have hread : parse [a, .eof 0 4, closing] = .ok (.literal (.boolean true) a) := by
    have hbehind : parse [a, .eof 0 4, closing] = parse [a, .eof 0 4] := parse_ends.2.2 [a] (.eof 0 4) [closing] [] rfl
    rw [hbehind]
    refine parseWithin_eq_ok_iff.mpr ⟨by simp [HasEof, Token.eof], trivial, .literal rfl, ?_, trivial⟩
    simp [Expr.need, maxNesting]
  refine ⟨hne, hendless, parse_ends.1 _ hne hendless, ?_, hread, parse_ends.2.1 _ _ hread⟩
  have hchain : chain (operand maxHeight 255) maxHeight .equality (.literal (.boolean true) a) [minus] =
      .error (.atToken minus .nestsTooDeeply) := by
    have hrhs := operand_repeated (t := minus) rfl maxHeight 255 .factor
    have hlevel : BinaryOp.sub.level.above = .factor := rfl
    rw [chain]
    simp [minus, Kind.binaryOp?, Level.rank, advance, hlevel, hrhs]
  have hoperand : operand maxHeight maxNesting .equality [a, minus] = .error (.atToken minus .nestsTooDeeply) := by
    rw [maxNesting, operand_succ, head_of_isLiteral rfl (by simp)]
    exact hchain
  rw [parse, parseWithin, hoperand]
  rfl

end Parser
end Reckon
