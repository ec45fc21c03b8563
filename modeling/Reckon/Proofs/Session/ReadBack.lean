import Reckon.Proofs.Expr.Literal
import Reckon.Proofs.Number.Positional
import Reckon.Proofs.Session.Requests

/-!
# Values read back

The text of a truth value, of `nil` or of a number that is shown without an exponent is a program for this value
(`text_reads_back`). A negative number is read as minus its magnitude, and both zeros are read as zero.
-/

namespace Reckon

/-! ## Numerals -/

/-- The token is the magnitude of the number. It has a point, with digits on both sides, exactly for a fraction. -/
structure Token.IsMagnitude (t : Token) (x : Float) : Prop where
  kind : t.kind = .number
  literal : t.literal = some (.number x.abs)
  whole : Number.IsWhole (Number.pattern x) → Digits t.lexeme.toList
  fraction : ¬ Number.IsWhole (Number.pattern x) →
    ∃ whole fraction, Digits whole ∧ Digits fraction ∧ t.lexeme.toList = whole ++ '.' :: fraction

section
variable {x : Float}

theorem Token.isMagnitude {t : Token} (hx : x.isFinite) (hpos : 0 < Number.pattern x) (hkind : t.kind = .number)
    (hlexeme : t.lexeme = String.ofList (Decimal.shortest (Number.pattern x)).positional)
    (hliteral : t.literal = some (.number x.abs)) : t.IsMagnitude x where
  kind := hkind
  literal := hliteral
  whole := by
    intro h
    rw [hlexeme, String.toList_ofList]
    exact Decimal.digits_positional ((Decimal.exponent_shortest_nonneg_iff (Number.pattern_lt_infinity hx) hpos).mpr h)
  fraction := by
    intro h
    rw [← Decimal.exponent_shortest_nonneg_iff (Number.pattern_lt_infinity hx) hpos, Int.not_le] at h
    obtain ⟨whole, fraction, hpointed⟩ := Decimal.exists_pointed h
    rw [hlexeme, String.toList_ofList]
    exact ⟨whole, fraction, hpointed.digits_whole, hpointed.digits_fraction, hpointed.text⟩

end

/-! ## Values -/

namespace Value

/-- The values whose texts are read as programs. The numbers among them are those that are shown without an exponent. -/
inductive Readable : Value → Prop where
  | boolean (b : Bool) : Readable (.boolean b)
  | nil : Readable .nil
  | zero {x : Float} (h : x == 0) : Readable (.number x)
  | number {x : Float} (hx : x.isFinite) (hlow : 1e-6 ≤ x.abs) (hhigh : x.abs < 1e21) : Readable (.number x)

/-- The tree of the text of a value, and what this tree comes to: the value itself, but zero for the negative zero. -/
inductive ReadBack : Value → Expr → Value → Prop where
  | boolean (b : Bool) (t : Token) : ReadBack (.boolean b) (.literal (.boolean b) t) (.boolean b)
  | nil (t : Token) : ReadBack .nil (.literal .nil t) .nil
  | zero {x : Float} {t : Token} (h : x = 0 ∨ x = -0) (ht : t.lexeme = "0") :
      ReadBack (.number x) (.literal (.number 0) t) (.number 0)
  | positive {x : Float} {t : Token} (hx : Number.isNegative x = false) (hpos : 0 < Number.pattern x)
      (ht : t.IsMagnitude x) : ReadBack (.number x) (.literal (.number x) t) (.number x)
  | negative {x : Float} {minus t : Token} (hx : Number.isNegative x) (hpos : 0 < Number.pattern x)
      (hminus : minus.kind = .minus) (ht : t.IsMagnitude x) :
      ReadBack (.number x) (.unary .negate minus (.literal (.number x.abs) t)) (.number x)

variable {v w : Value} {e : Expr} {x : Float}

theorem exists_readBack_number (hx : x.isFinite) (hlow : 1e-6 ≤ x.abs) (hhigh : x.abs < 1e21) :
    ∃ e, Expr.ofSource (text (.number x)) = .ok e ∧ e.eval = .ok (.number x) ∧ ReadBack (.number x) e (.number x) := by
  have hpos := Layout.pattern_pos hx hlow
  have hlexeme := Decimal.lexeme_positional (Decimal.shortest (Number.pattern x))
  rw [toFloat_shortest hx] at hlexeme
  rw [text, Layout.write_result hx hlow hhigh]
  cases hsign : Number.isNegative x with
  | false =>
      obtain ⟨t, hkind, htext, hliteral, hsource⟩ := Expr.exists_ofSource_literal hlexeme (by decide) fun _ _ _ => rfl
      have ht := Token.isMagnitude hx hpos hkind htext hliteral
      rw [Number.abs_of_not_isNegative hx hsign] at hsource
      exact ⟨_, hsource, rfl, .positive hsign hpos ht⟩
  | true =>
      obtain ⟨minus, t, hminus, hkind, htext, hliteral, hsource⟩ := Expr.exists_ofSource_negated hlexeme
      have ht := Token.isMagnitude hx hpos hkind htext hliteral
      refine ⟨_, hsource, ?_, .negative hsign hpos hminus ht⟩
      have hneg : UnaryOp.negate.apply (.number x.abs) = .ok (.number x) := by
        rw [UnaryOp.apply, Number.neg_abs_of_isNegative hx hsign]
      rw [Expr.eval_unary, Expr.eval]
      show (UnaryOp.negate.apply (.number x.abs)).mapError _ = _
      rw [hneg]
      rfl

theorem exists_readBack_zero (h : x == 0) :
    ∃ e, Expr.ofSource (text (.number x)) = .ok e ∧ e.eval = .ok (.number 0) ∧ ReadBack (.number x) e (.number 0) := by
  have hdigits : Digits ['0'] := ⟨by simp, by simp⟩
  have hzero : (Decimal.mk (Nat.ofDigitChars 10 ['0'] 0) 0).toFloat = 0 := Float.toBits_inj.mp (by decide +kernel)
  have hlexeme := Lexeme.integer hdigits
  rw [hzero] at hlexeme
  obtain ⟨t, -, htext, -, hsource⟩ := Expr.exists_ofSource_literal hlexeme (by decide) fun _ _ _ => rfl
  have hsigns : x = 0 ∨ x = -0 := by
    obtain ⟨-, -, hx | ⟨hx, -⟩ | ⟨hx, -⟩⟩ := Float.beq_iff_ne_nan_and_eq.mp h
    · exact .inl hx
    · exact .inl hx
    · exact .inr hx
  rw [text, Layout.write_result_of_beq_zero h]
  exact ⟨_, hsource, rfl, .zero hsigns htext⟩

theorem exists_readBack (h : v.Readable) :
    ∃ e w, Expr.ofSource v.text = .ok e ∧ e.eval = .ok w ∧ v.ReadBack e w := by
  cases h with
  | boolean b =>
      cases b with
      | true =>
          obtain ⟨t, hsource⟩ := Expr.exists_ofSource_keyword .true fun _ _ _ => rfl
          exact ⟨_, _, hsource, rfl, .boolean true t⟩
      | false =>
          obtain ⟨t, hsource⟩ := Expr.exists_ofSource_keyword .false fun _ _ _ => rfl
          exact ⟨_, _, hsource, rfl, .boolean false t⟩
  | nil =>
      obtain ⟨t, hsource⟩ := Expr.exists_ofSource_keyword .nil fun _ _ _ => rfl
      exact ⟨_, _, hsource, rfl, .nil t⟩
  | zero h =>
      obtain ⟨e, hsource, heval, hread⟩ := exists_readBack_zero h
      exact ⟨e, _, hsource, heval, hread⟩
  | number hx hlow hhigh =>
      obtain ⟨e, hsource, heval, hread⟩ := exists_readBack_number hx hlow hhigh
      exact ⟨e, _, hsource, heval, hread⟩

theorem Readable.ne_nan (h : Readable (.number x)) : x ≠ Float.nan := by
  cases h with
  | zero h => exact (Float.beq_iff_ne_nan_and_eq.mp h).1
  | number hx => exact Number.ne_nan_of_isFinite hx

theorem ReadBack.eq (h : v.ReadBack e w) : (v ≠ .number (-0) → w = v) ∧ (v = .number (-0) → w = .number 0) := by
  have hzero : Number.pattern (-0) = 0 := by decide +kernel
  cases h with
  | boolean | nil => simp
  | zero hx => rcases hx with rfl | rfl <;> simp
  | positive hx hpos | negative hx hpos =>
      refine ⟨fun _ => rfl, fun hv => ?_⟩
      cases hv
      omega

theorem ReadBack.beq (hv : v.Readable) (h : v.ReadBack e w) : (v == w) = true := by
  cases h with
  | boolean b t => cases b <;> rfl
  | nil => rfl
  | zero hx => rcases hx with rfl | rfl <;> decide +kernel
  | positive | negative => exact Float.beq_self_iff.mpr hv.ne_nan

end Value

namespace Session

/-- In every session, whatever came before, the text of a value is a program for this value. -/
theorem text_reads_back {v : Value} (h : v.Readable) (config : Config) (console : Console) (before : List Request) :
    ∃ e w, Expr.ofSource v.text = .ok e ∧ e.eval = .ok w ∧ v.ReadBack e w ∧ (v == w) = true ∧
      (v ≠ .number (-0) → w = v) ∧ (v = .number (-0) → w = .number 0) ∧
      ∃ s step, (start config console).after before = .ok s ∧ s.interpret v.text = .ok step ∧
        step.result = .value w ∧ step.output.err = "" := by
  obtain ⟨e, w, hsource, heval, hread⟩ := Value.exists_readBack h
  obtain ⟨hsame, hzero⟩ := hread.eq
  obtain ⟨s, hafter, hindexed, -⟩ := exists_after (s := start config console) Files.indexed_empty before
  obtain ⟨id, files, -, -, -, hexecute⟩ := exists_execute hindexed promptName v.text
  have houtcome : outcome v.text = .value w := by simp [outcome, hsource, heval]
  have hproblems : problems v.text = [] := by simp [problems, hsource, heval]
  have hinterpret : s.interpret v.text =
      .ok ⟨outcome v.text, s.console.keep (written s.config promptName v.text), { s with files := files }⟩ := by
    simp [interpret, hexecute, bind, Except.bind]
  refine ⟨e, w, hsource, heval, hread, hread.beq h, hsame, hzero, s, _, hafter, hinterpret, houtcome, ?_⟩
  cases s.console with
  | silent => rfl
  | memory => simp [Console.keep, written, hproblems, String.join]

/-- The least magnitude that is shown without an exponent, with a minus sign. -/
theorem text_reads_back_least :
    Value.text (.number (-1e-6)) = "-0.000001" ∧ ∃ minus t s step,
      Expr.ofSource "-0.000001" = .ok (.unary .negate minus (.literal (.number 1e-6) t)) ∧ minus.kind = .minus ∧
      t.IsMagnitude (-1e-6) ∧ (start ⟨true, true⟩ (.memory [])).after [.run "sum" "-nil"] = .ok s ∧
      s.interpret "-0.000001" = .ok step ∧ step.result = .value (.number (-1e-6)) := by
  have htext : Value.text (.number (-1e-6)) = "-0.000001" := by decide +kernel
  have habs : (-1e-6 : Float).abs = 1e-6 := Float.toBits_inj.mp (by decide +kernel)
  have hreadable : Value.Readable (.number (-1e-6)) :=
    .number (by decide +kernel) (by decide +kernel) (by decide +kernel)
  obtain ⟨e, w, hsource, -, hread, -, -, -, s, step, hafter, hstep, hresult, -⟩ :=
    text_reads_back hreadable ⟨true, true⟩ (.memory []) [.run "sum" "-nil"]
  rw [htext] at hsource hstep
  cases hread with
  | zero h => exact absurd h (by decide +kernel)
  | positive h => exact absurd h (by decide +kernel)
  | negative _ _ hminus ht =>
      rw [habs] at hsource
      exact ⟨htext, _, _, s, step, hsource, hminus, ht, hafter, hstep, hresult⟩

end Session
end Reckon
