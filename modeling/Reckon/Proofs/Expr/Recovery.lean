import Reckon.Proofs.Expr.Blame
import Reckon.Proofs.Token.Recovery

/-!
# Errors behind unexpected characters

The parser does not notice the characters that the scanner reports as unexpected: it reads the same tokens as of the source
with spaces in their place, and reports the same syntax error behind the lexical ones.
-/

namespace Reckon

namespace Expr

/-- All that is wrong with a source before it is evaluated. -/
def reported (source : String) : List CompileError :=
  match ofSource source with
  | .ok _ => []
  | .error errors => errors

theorem reported_eq (source : String) : reported source = (scan source).errors ++
    match Parser.parse (scan source).tokens with
    | .ok _ => []
    | .error e => [e] := by
  unfold reported
  cases h : ofSource source with
  | error errors => exact (ofSource_eq_error h).2
  | ok e =>
      obtain ⟨herrors, hparse⟩ := ofScan_eq_ok.mp h
      simp [herrors, hparse]

theorem stage_of_mem_errors {source : String} {e : CompileError} (h : e ∈ (scan source).errors) : e.stage = .lexical := by
  rw [scan_eq] at h
  obtain ⟨_, _, _, -, he⟩ := Piece.exists_of_mem_collect h
  rw [(Piece.of_error?_eq_some he).2]
  rfl

theorem stage_of_parse_eq_error {source : String} {e : CompileError} (h : Parser.parse (scan source).tokens = .error e) :
    e.stage = .grammatical := by
  obtain ⟨t, -, fault, rfl⟩ := Parser.exists_token_of_parse_eq_error (scan_tokens_ne_nil source) h
  rfl

end Expr

/--
Unexpected characters act like blanks. With spaces in place of all of them, a source has the same tokens and lines and
all of its other errors, and so its lexical errors are followed by the syntax error of the source with the spaces.
-/
theorem unexpected_act_like_blanks (source : String) :
    scan (blankedSource source) =
      { tokens := (scan source).tokens
        errors := (scan source).errors.filter (·.fault ≠ .unexpectedCharacter)
        lines := (scan source).lines } ∧
      Expr.reported source =
        (scan source).errors ++ (Expr.reported (blankedSource source)).filter (·.stage = .grammatical) := by
  have hscan := scan_blankedSource source
  refine ⟨hscan, ?_⟩
  have hlexical : (scan (blankedSource source)).errors.filter (·.stage = .grammatical) = [] := by
    refine List.filter_eq_nil_iff.mpr fun e he => ?_
    simp [Expr.stage_of_mem_errors he]
  rw [Expr.reported_eq, Expr.reported_eq, List.filter_append, hlexical, List.nil_append, hscan]
  cases hparse : Parser.parse (scan source).tokens with
  | ok e => rfl
  | error e => simp [Expr.stage_of_parse_eq_error hparse]

end Reckon
