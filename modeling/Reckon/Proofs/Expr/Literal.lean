import Reckon.Proofs.Expr.Excerpt
import Reckon.Proofs.Token.Parens

/-!
# Programs of one literal

A literal by itself is a program, and so is a number behind a minus sign.
-/

namespace Reckon

open Text Piece

variable {kind : Kind} {literal : Option Literal} {text : List Char} {value : Value}

theorem Lexeme.tiled (h : Lexeme kind literal text) (hk : kind.initial ≠ .symbol) :
    Tiled [⟨text, .token kind literal⟩] := by
  refine .cons (.token h (longest_whole text) fun hslash => ?_) .nil
  obtain ⟨c, cs, rfl, hc⟩ := h.initial_eq
  obtain ⟨rfl, -⟩ : '/' = c ∧ ['/'] <+: cs := by simpa using hslash
  exact hk hc.symm

namespace Expr

/-- A literal by itself is a program. -/
theorem exists_ofSource_literal (h : Lexeme kind literal text) (hk : kind.initial ≠ .symbol)
    (hvalue : ∀ lexeme line span, Token.value? ⟨kind, lexeme, literal, line, span⟩ = some value) :
    ∃ t, t.kind = kind ∧ t.lexeme = String.ofList text ∧ t.literal = literal ∧
      ofSource (String.ofList text) = .ok (.literal value t) := by
  have hsource := ofSource_texts (h.tiled hk) (by simp) (.literal (hvalue _ _ _)) trivial
    (by simp [need, maxNesting]) trivial
  rw [texts_cons, texts_nil, List.append_nil] at hsource
  exact ⟨_, rfl, rfl, rfl, hsource⟩

theorem exists_ofSource_keyword (word : Keyword)
    (hvalue : ∀ lexeme line span, Token.value? ⟨.keyword word, lexeme, none, line, span⟩ = some value) :
    ∃ t, ofSource word.text = .ok (.literal value t) := by
  have hk : (Kind.keyword word).initial ≠ .symbol := by simp [Kind.initial]
  obtain ⟨t, -, -, -, hsource⟩ := exists_ofSource_literal (.reserved word) hk hvalue
  rw [String.ofList_toList] at hsource
  exact ⟨t, hsource⟩

/-- And so is a number behind a minus sign. -/
theorem exists_ofSource_negated {x : Float} (h : Lexeme .number (some (.number x)) text) :
    ∃ minus t, minus.kind = .minus ∧ t.kind = .number ∧ t.lexeme = String.ofList text ∧ t.literal = some (.number x) ∧
      ofSource (String.ofList ('-' :: text)) = .ok (.unary .negate minus (.literal (.number x) t)) := by
  have htiled : Tiled [⟨['-'], .token .minus none⟩, ⟨text, .token .number (some (.number x))⟩] :=
    .cons (first_single rfl rfl (by decide)) (h.tiled (by decide))
  have hsource := ofSource_texts htiled (by simp) (.unary rfl (.literal rfl)) ⟨rfl, trivial⟩
    (by simp [need, maxNesting]) trivial
  rw [texts_cons, texts_cons, texts_nil, List.append_nil, List.singleton_append] at hsource
  exact ⟨_, _, rfl, rfl, rfl, rfl, hsource⟩

end Expr
end Reckon
