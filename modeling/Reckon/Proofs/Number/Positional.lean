import Reckon.Number.Layout
import Reckon.Proofs.Number.Shortest
import Reckon.Proofs.Number.Sign
import Reckon.Proofs.Token.First

/-!
# Positional notation

In positional notation a decimal is a token, and the number that this token stands for is the decimal's
(`lexeme_positional`). It has a point, with digits on both sides of it, if the grid of the decimal is finer than the whole
numbers. Numbers that are neither very small nor very large are shown in this notation (`write_result`).
-/

namespace Reckon

namespace Decimal

variable {d : Decimal} {whole fraction : List Char}

theorem digits_toDigits (n : Nat) : Digits (Nat.toDigits 10 n) where
  ne_nil := Nat.toDigits_ne_nil
  isDigit := fun _ h => Nat.isDigit_of_mem_toDigits (by decide) (by decide) h

theorem isDigit_of_mem_zeros {n : Nat} {c : Char} (h : c ∈ List.replicate n '0') : c.isDigit := by
  rw [List.eq_of_mem_replicate h]
  decide

theorem ofDigitChars_zeros_append (n : Nat) (cs : List Char) :
    Nat.ofDigitChars 10 (List.replicate n '0' ++ cs) 0 = Nat.ofDigitChars 10 cs 0 := by
  rw [Nat.ofDigitChars_append, Nat.ofDigitChars_replicate_zero, Nat.mul_zero]

/-! ## Without a point -/

theorem digits_positional (h : 0 ≤ d.exponent) : Digits d.positional := by
  have hds := digits_toDigits d.digits
  rw [positional, if_pos h]
  refine ⟨by simp [hds.ne_nil], fun c hc => ?_⟩
  rcases List.mem_append.mp hc with hc | hc
  · exact hds.isDigit c hc
  · exact isDigit_of_mem_zeros hc

theorem ofDigitChars_positional (h : 0 ≤ d.exponent) :
    Nat.ofDigitChars 10 d.positional 0 = d.digits * 10 ^ d.exponent.toNat := by
  rw [positional, if_pos h, Nat.ofDigitChars_append, Nat.ofDigitChars_ten_toDigits, Nat.ofDigitChars_replicate_zero,
    Nat.mul_comm]

/-! ## With a point -/

/-- The text has a point, and read without the point it is the digits of the decimal. -/
structure Pointed (d : Decimal) (whole fraction : List Char) : Prop where
  text : d.positional = whole ++ '.' :: fraction
  digits_whole : Digits whole
  digits_fraction : Digits fraction
  value : Nat.ofDigitChars 10 (whole ++ fraction) 0 = d.digits
  places : -(fraction.length : Int) = d.exponent

theorem exists_pointed (h : d.exponent < 0) : ∃ whole fraction, d.Pointed whole fraction := by
  have hds := digits_toDigits d.digits
  have hvalue : Nat.ofDigitChars 10 (Nat.toDigits 10 d.digits) 0 = d.digits := Nat.ofDigitChars_ten_toDigits
  have hpositional : d.positional = _ := if_neg (Int.not_le.mpr h)
  generalize Nat.toDigits 10 d.digits = ds at hds hvalue hpositional
  by_cases hlt : (-d.exponent).toNat < ds.length
  · -- the digits themselves are parted
    rw [if_pos hlt] at hpositional
    have hlength : (ds.drop (ds.length - (-d.exponent).toNat)).length = (-d.exponent).toNat := by
      rw [List.length_drop]
      omega
    refine ⟨_, _, hpositional, ⟨?_, fun c hc => hds.isDigit c (List.mem_of_mem_take hc)⟩,
      ⟨?_, fun c hc => hds.isDigit c (List.mem_of_mem_drop hc)⟩, ?_, ?_⟩
    · rw [← List.length_pos_iff, List.length_take]
      omega
    · rw [← List.length_pos_iff, hlength]
      omega
    · rw [List.take_append_drop, hvalue]
    · rw [hlength]
      omega
  · rw [if_neg hlt] at hpositional
    have hzero : ['0'] = List.replicate 1 '0' := rfl
    refine ⟨['0'], _, hpositional, ⟨by simp, by simp⟩, ⟨by simp [hds.ne_nil], fun c hc => ?_⟩, ?_, ?_⟩
    · rcases List.mem_append.mp hc with hc | hc
      · exact isDigit_of_mem_zeros hc
      · exact hds.isDigit c hc
    · rw [hzero, ofDigitChars_zeros_append, ofDigitChars_zeros_append, hvalue]
    · rw [List.length_append, List.length_replicate]
      omega

/-! ## Tokens -/

/-- The token in positional notation stands for the number that the decimal reads as. -/
theorem lexeme_positional (d : Decimal) : Lexeme .number (some (.number d.toFloat)) d.positional := by
  rcases Int.lt_or_le d.exponent 0 with h | h
  · obtain ⟨whole, fraction, hd⟩ := exists_pointed h
    have hlexeme := Lexeme.decimal hd.digits_whole hd.digits_fraction
    rw [hd.value, hd.places, ← hd.text] at hlexeme
    exact hlexeme
  · have hlexeme := Lexeme.integer (digits_positional h)
    have hpattern : (Decimal.mk (d.digits * 10 ^ d.exponent.toNat) 0).pattern = d.pattern := by
      rw [pattern_of_exponent_nonneg h, pattern_of_exponent_nonneg (Int.le_refl 0)]
      simp
    rw [ofDigitChars_positional h, toFloat, hpattern] at hlexeme
    exact hlexeme

end Decimal

/-! ## Texts of numbers -/

section
variable {x : Float}

theorem toFloat_shortest (hx : x.isFinite) : (Decimal.shortest (Number.pattern x)).toFloat = x.abs := by
  rw [Decimal.toFloat, Decimal.pattern_shortest (Number.pattern_lt_infinity hx), Number.ofPattern_pattern hx]

namespace Layout

theorem write_result_of_beq_zero (h : x == 0) : result.write x = "0" := by
  have hnan := (Float.beq_iff_ne_nan_and_eq.mp h).1
  have hpattern := Number.pattern_eq_zero_of_beq_zero h
  have hinfinity : (0 : Nat) ≠ Number.infinity := by decide
  simp [write, hnan, hpattern, hinfinity, result, signed]

/-- Zero is below the magnitudes that are written without an exponent. -/
theorem pattern_pos (hx : x.isFinite) (hlow : 1e-6 ≤ x.abs) : 0 < Number.pattern x := by
  refine Nat.pos_of_ne_zero fun hzero => ?_
  rw [← Number.ofPattern_pattern hx, hzero] at hlow
  exact absurd hlow (by decide +kernel)

/-- A magnitude that is not zero is shown in one of two notations. -/
theorem write_result_of_pos (hx : x.isFinite) (hpos : 0 < Number.pattern x) : result.write x =
    String.ofList (signed (Number.isNegative x)
      (if 1e-6 ≤ x.abs ∧ x.abs < 1e21 then (Decimal.shortest (Number.pattern x)).positional
      else (Decimal.shortest (Number.pattern x)).scientific)) := by
  have hinfinity := Nat.ne_of_lt (Number.pattern_lt_infinity hx)
  simp [write, Number.ne_nan_of_isFinite hx, Nat.ne_of_gt hpos, hinfinity, result]

theorem write_result (hx : x.isFinite) (hlow : 1e-6 ≤ x.abs) (hhigh : x.abs < 1e21) :
    result.write x =
      String.ofList (signed (Number.isNegative x) (Decimal.shortest (Number.pattern x)).positional) := by
  rw [write_result_of_pos hx (pattern_pos hx hlow), if_pos ⟨hlow, hhigh⟩]

end Layout

end
end Reckon
