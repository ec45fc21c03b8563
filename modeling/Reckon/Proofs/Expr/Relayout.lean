import Reckon.Proofs.Expr.Excerpt
import Reckon.Proofs.Token.Relayout

/-!
# Layout does not matter

A source without lexical errors that is laid out anew is the same expression, or has the same syntax error, and comes to
the same.
-/

namespace Reckon.Expr

theorem ofScan_of_errors_eq_nil {s : Scan} (h : s.errors = []) : ofScan s = (Parser.parse s.tokens).mapError ([·]) := by
  rw [ofScan, h]
  cases Parser.parse s.tokens <;> rfl

/--
With other separators between its lexemes, a source is scanned to the same tokens and read as the same tree, but for the
places. If the tree has a value, it is the same, and if there is an error, in reading or in evaluation, its cause is.
-/
theorem ofSource_relaid {source front : String} {behind : List String} (hclean : (scan source).errors = [])
    (h : Separates (scan source).tokens.dropLast front behind) :
    let other := relaid (scan source).tokens.dropLast front behind
    ((scan other).errors = [] ∧ (scan other).tokens.map Token.unplaced = (scan source).tokens.map Token.unplaced) ∧
    ((∃ a b, ofSource source = .ok a ∧ ofSource other = .ok b ∧ b.unplaced = a.unplaced ∧
        ((∃ v, a.eval = .ok v ∧ b.eval = .ok v) ∨ ∃ q r, a.eval = .error q ∧ b.eval = .error r ∧ r.fault = q.fault)) ∨
      ∃ d e, ofSource source = .error [d] ∧ ofSource other = .error [e] ∧ e.site = d.site ∧ e.fault = d.fault) := by
  intro other
  obtain ⟨herrors, htokens⟩ := scan_relaid h
  refine ⟨⟨herrors, htokens⟩, ?_⟩
  rw [ofSource, ofSource, ofScan_of_errors_eq_nil hclean, ofScan_of_errors_eq_nil herrors]
  rcases Parser.parse_of_unplaced_eq htokens with ⟨a, b, ha, hb, hab⟩ | ⟨d, e, hd, he, hde⟩
  · rw [ha, hb]
    exact .inl ⟨a, b, rfl, rfl, hab, eval_of_unplaced_eq hab⟩
  · rw [hd, he]
    obtain ⟨-, -, hsite, hfault, -⟩ := CompileError.mk.inj hde
    exact .inr ⟨d, e, rfl, rfl, hsite, hfault⟩

/-- With comments and line breaks around them, the lexemes of `-true==nil` are the same expression. -/
theorem ofSource_relaid_comments :
    let tree : Expr :=
      .binary .eq ⟨.equalEqual, "==", none, 0, ⟨5, 7⟩⟩
        (.unary .negate ⟨.minus, "-", none, 0, ⟨0, 1⟩⟩ (.literal (.boolean true) ⟨.keyword .true, "true", none, 0, ⟨1, 5⟩⟩))
        (.literal .nil ⟨.keyword .nil, "nil", none, 0, ⟨7, 10⟩⟩)
    ofSource "-true==nil" = .ok tree ∧
      ∃ b, ofSource "//a\n- true\t//b\n== nil" = .ok b ∧ b.unplaced = tree.unplaced := by
  intro tree
  have hscan : scan "-true==nil" =
      { tokens := [⟨.minus, "-", none, 0, ⟨0, 1⟩⟩, ⟨.keyword .true, "true", none, 0, ⟨1, 5⟩⟩,
          ⟨.equalEqual, "==", none, 0, ⟨5, 7⟩⟩, ⟨.keyword .nil, "nil", none, 0, ⟨7, 10⟩⟩, .eof 0 10]
        errors := []
        lines := ⟨#[0], 10⟩ } := by
    rw [scan_eq]
    cbv
  have htree : ofSource "-true==nil" = .ok tree := by
    rw [ofSource, hscan]
    cbv
  have hcomment (c : Char) (hc : c ≠ '\n') : Separator ['/', '/', c, '\n'] :=
    @Separator.comment [c] [] (by simpa using hc.symm) .nil
  have hspace : Separator [' '] := .blank (by simp) .nil
  have htab : Separator ['\t', '/', '/', 'b', '\n'] := .blank (by simp) (hcomment 'b' (by decide))
  have hseparates : Separates (scan "-true==nil").tokens.dropLast "//a\n" [" ", "\t//b\n", " ", ""] := by
    rw [hscan]
    refine ⟨rfl, by simpa using hcomment 'a' (by decide), ?_, ?_, by decide⟩
    · intro w hw
      simp only [List.mem_cons, List.not_mem_nil, or_false] at hw
      rcases hw with rfl | rfl | rfl | rfl
      · simpa using hspace
      · simpa using htab
      · simpa using hspace
      · exact .nil
    · simp
  have hother : relaid (scan "-true==nil").tokens.dropLast "//a\n" [" ", "\t//b\n", " ", ""] = "//a\n- true\t//b\n== nil" := by
    rw [hscan]
    decide +kernel
  obtain ⟨-, ⟨a, b, ha, hb, hab, -⟩ | ⟨d, e, hd, -⟩⟩ := ofSource_relaid (by rw [hscan]) hseparates
  · rw [hother] at hb
    rw [htree] at ha
    obtain rfl := Except.ok.inj ha
    exact ⟨htree, b, hb, hab⟩
  · rw [htree] at hd
    cases hd

end Reckon.Expr
