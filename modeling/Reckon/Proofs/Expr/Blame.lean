import Reckon.Expr.Eval
import Reckon.Proofs.Expr.Excerpt
import Reckon.Proofs.Token.Spans

/-!
# What errors point at

The parser reports its error at one of the tokens it was given, and evaluation at an operator of the tree. So whatever
is wrong with a source, the error marks a part of it.
-/

namespace Reckon

variable {ts : List Token} {e : Expr}

/-! ## Errors of the parser -/

namespace Parser

variable {height depth : Nat} {level : Level} {next : Level → List Token → Result} {Q : List Token → Prop}
  {err : CompileError}

/-- A reader of operands reports its errors at the first of some tokens that have the property. -/
def Blames (Q : List Token → Prop) (next : Level → List Token → Result) : Prop :=
  ∀ level ts err, Q ts → next level ts = .error err → ∃ us fault, Q us ∧ err = .atToken (current us) fault

section
variable (hQ : ∀ ts, Q ts → Q (advance ts))
include hQ

theorem head_blames (hkeeps : Keeps Q next) (hnext : Blames Q next) (hts : Q ts) (h : head next ts = .error err) :
    ∃ us fault, Q us ∧ err = .atToken (current us) fault := by
  rcases head_eq_error h with ⟨-, hi⟩ | ⟨inner, mid, -, hi, -, rfl⟩ | ⟨op, -, hx⟩ | ⟨-, -, rfl⟩ | ⟨-, -, -, rfl⟩
  · exact hnext _ _ _ (hQ _ hts) hi
  · exact ⟨mid, _, hkeeps _ _ _ _ (hQ _ hts) hi, rfl⟩
  · exact hnext _ _ _ (hQ _ hts) hx
  · exact ⟨ts, _, hts, rfl⟩
  · exact ⟨ts, _, hts, rfl⟩

theorem chain_blames (hkeeps : Keeps Q next) (hnext : Blames Q next) {lhs : Expr} (hts : Q ts)
    (h : chain next height level lhs ts = .error err) : ∃ us fault, Q us ∧ err = .atToken (current us) fault := by
  fun_induction chain next height level lhs ts with
  | case1 | case5 => cases h
  | case2 lhs ts t op ho hle err' herr =>
      cases h
      exact hnext _ _ _ (hQ _ hts) herr
  | case3 lhs ts t op ho hle rhs rest hr hh =>
      cases h
      exact ⟨ts, _, hts, rfl⟩
  | case4 lhs ts t op ho hle rhs rest hr hh ih => exact ih (hkeeps _ _ _ _ (hQ _ hts) hr) h

theorem operand_blames (height depth : Nat) : Blames Q (operand height depth) := by
  induction depth with
  | zero =>
      intro level ts err hts h
      cases h
      exact ⟨ts, _, hts, rfl⟩
  | succ depth ih =>
      intro level ts err hts h
      have hkeeps := operand_keeps hQ height depth
      rcases operand_succ_eq_error.mp h with hh | ⟨lhs, mid, hh, hc⟩
      · exact head_blames hQ hkeeps ih hts hh
      · exact chain_blames hQ hkeeps ih (head_keeps hQ hkeeps hts hh) hc

theorem parse_blames (hts : Q ts) (h : parse ts = .error err) : ∃ us fault, Q us ∧ err = .atToken (current us) fault := by
  rcases parseWithin_eq_error h with h | ⟨e, rest, hread, -, rfl⟩
  · exact operand_blames hQ _ _ _ _ _ hts h
  · exact ⟨rest, _, operand_keeps hQ _ _ _ _ _ _ hts hread, rfl⟩

end

/-- The error is reported at one of the tokens. -/
theorem exists_token_of_parse_eq_error (hts : ts ≠ []) (h : parse ts = .error err) :
    ∃ t ∈ ts, ∃ fault, err = .atToken t fault := by
  -- what is ahead is never used up, and is made of tokens that were there at the beginning
  have hQ : ∀ us, (us ≠ [] ∧ us ⊆ ts) → advance us ≠ [] ∧ advance us ⊆ ts := by
    rintro (_ | ⟨u, _ | ⟨v, us⟩⟩) ⟨hne, hsub⟩
    · exact absurd rfl hne
    · exact ⟨hne, hsub⟩
    · exact ⟨by simp [advance], fun t ht => hsub (List.mem_cons_of_mem u ht)⟩
  obtain ⟨us, fault, ⟨hne, hsub⟩, rfl⟩ := parse_blames hQ ⟨hts, List.Subset.refl ts⟩ h
  obtain ⟨u, us, rfl⟩ := List.exists_cons_of_ne_nil hne
  exact ⟨u, hsub List.mem_cons_self, fault, rfl⟩

end Parser

/-! ## Errors of evaluation -/

theorem RuntimeError.exists_fault {x : Except RuntimeFault Value} {t : Token} {r : RuntimeError}
    (h : x.mapError (.atOperator t) = .error r) : ∃ fault, r = .atOperator t fault := by
  cases x with
  | ok v => cases h
  | error fault =>
      cases h
      exact ⟨fault, rfl⟩

/-- The token stands for an operator, before an operand or between two of them. -/
def Kind.isOperator (kind : Kind) : Bool :=
  kind.unaryOp?.isSome || kind.binaryOp?.isSome

/-- The error is reported at an operator among the tokens of the tree. -/
theorem Yields.exists_operator_of_eval_eq_error {r : RuntimeError} (hy : Yields e ts) (h : e.eval = .error r) :
    ∃ t ∈ ts, t.kind.isOperator ∧ ∃ fault, r = .atOperator t fault := by
  induction hy with
  | literal hv => cases h
  | @grouping opening closing inner us ho hi hc ih =>
      obtain ⟨t, ht, hr⟩ := ih h
      exact ⟨t, by simp [ht], hr⟩
  | @unary op operator operand us ho hx ih =>
      rw [Expr.eval_unary] at h
      split at h
      · rename_i hx'
        cases h
        obtain ⟨t, ht, hr⟩ := ih hx'
        exact ⟨t, by simp [ht], hr⟩
      · exact ⟨operator, by simp, by simp [Kind.isOperator, ho], RuntimeError.exists_fault h⟩
  | @binary op operator lhs rhs us vs ho hl hr ihl ihr =>
      rw [Expr.eval_binary] at h
      split at h
      · rename_i hl'
        cases h
        obtain ⟨t, ht, hr⟩ := ihl hl'
        exact ⟨t, by simp [ht], hr⟩
      split at h
      · rename_i hr'
        cases h
        obtain ⟨t, ht, hr⟩ := ihr hr'
        exact ⟨t, by simp [ht], hr⟩
      · exact ⟨operator, by simp, by simp [Kind.isOperator, ho], RuntimeError.exists_fault h⟩

/-! ## Errors of a source -/

namespace Expr

variable {source : String}

theorem ofSource_eq_error {es : List CompileError} (h : ofSource source = .error es) :
    es ≠ [] ∧ es = (scan source).errors ++
      match Parser.parse (scan source).tokens with
      | .ok _ => []
      | .error err => [err] := by
  rw [ofSource, ofScan] at h
  cases hparse : Parser.parse (scan source).tokens with
  | ok x =>
      simp only [hparse] at h
      split at h
      · cases h
      · rename_i hne
        cases h
        exact ⟨by simpa using hne, by simp⟩
  | error err =>
      simp only [hparse] at h
      cases h
      exact ⟨by simp, rfl⟩

theorem scan_tokens_ne_nil (source : String) : (scan source).tokens ≠ [] := by
  simp [scan_eq]

theorem within_of_mem_ofSource {es : List CompileError} {err : CompileError} (h : ofSource source = .error es)
    (herr : err ∈ es) : err.span.Within source.toList := by
  rw [(ofSource_eq_error h).2] at herr
  rcases List.mem_append.mp herr with herr | herr
  · exact within_of_mem_errors herr
  split at herr
  · cases herr
  · rename_i err' hparse
    obtain ⟨t, ht, fault, hat⟩ := Parser.exists_token_of_parse_eq_error (scan_tokens_ne_nil source) hparse
    obtain rfl := List.mem_singleton.mp herr
    rw [hat]
    exact within_of_mem_tokens ht

theorem within_of_eval_eq_error {r : RuntimeError} (h : ofSource source = .ok e) (hr : e.eval = .error r) :
    r.span.Within source.toList := by
  obtain ⟨-, -, hy, -⟩ := ofSource_eq_ok_iff.mp h
  obtain ⟨t, ht, -, fault, rfl⟩ := hy.exists_operator_of_eval_eq_error hr
  refine within_of_mem_tokens (t := t) ?_
  rw [scan_eq]
  exact List.mem_append_left _ ht

end Expr
end Reckon
