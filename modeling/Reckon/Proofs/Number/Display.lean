import Reckon.Proofs.Number.Distinct
import Reckon.Proofs.Number.Fewest
import Reckon.Proofs.Number.Order

/-!
# Results in shortest digits

A result that is a finite number is shown with the fewest digits that are read back as it, in their places or with an
exponent as their order demands, and different results are shown differently (`result_in_shortest_digits`).
-/

namespace Reckon.Layout

open Number Decimal

variable {x y : Float} {d : Decimal}

theorem pattern_pos_of_bne (hne : x != 0) : 0 < Number.pattern x := by
  refine Nat.pos_of_ne_zero fun hzero => ?_
  rcases eq_zero_or_neg_zero hzero with rfl | rfl <;> exact absurd hne (by decide +kernel)

section
variable (hx : x.isFinite) (hpos : 0 < Number.pattern x)
include hx hpos

/-! ## Where positional notation ends -/

theorem low_iff (h : IsShortest (Number.pattern x) d) : 1e-6 ≤ x.abs ↔ -6 < d.order := by
  have habs : (1e-6 : Float).abs = 1e-6 := Float.toBits_inj.mp (by decide +kernel)
  have hpattern : Number.pattern 1e-6 = (Decimal.mk 1 (-6)).pattern := by decide +kernel
  have hnine : (Decimal.mk 9 (-6 - 1)).pattern < (Decimal.mk 1 (-6)).pattern := by decide +kernel
  have horder := h.order_le_iff hpos hnine
  rw [← habs, Number.abs_le_abs (by decide +kernel) hx, hpattern]
  omega

theorem high_iff (h : IsShortest (Number.pattern x) d) : x.abs < 1e21 ↔ d.order ≤ 21 := by
  have habs : (1e21 : Float).abs = 1e21 := Float.toBits_inj.mp (by decide +kernel)
  have hpattern : Number.pattern 1e21 = (Decimal.mk 1 21).pattern := by decide +kernel
  have hnine : (Decimal.mk 9 (21 - 1)).pattern < (Decimal.mk 1 21).pattern := by decide +kernel
  rw [← habs, Number.abs_lt_abs hx (by decide +kernel), hpattern, h.order_le_iff hpos hnine]

/-! ## Texts -/

theorem signed_eq (cs : List Char) : signed (isNegative x) cs = (if x < 0 then ['-'] else []) ++ cs := by
  have hnegative := lt_zero_iff hx hpos
  cases hs : isNegative x with
  | true => simp [signed, hnegative, hs]
  | false => simp [signed, hnegative, hs]

end

/--
The shortest digits of a finite number `x` other than zero are the fewest digits `d₁…dₖ` such that `x` is the double nearest
to `0.d₁…dₖ · 10ⁿ`. They are shown in their places if `-6 < n ≤ 21` and with an exponent otherwise, and zero is shown as one
digit. One text is shown for equal numbers only, and for those that are no numbers.
-/
theorem result_in_shortest_digits (x y : Float) :
    (x.isFinite → x != 0 → ∃ d, (IsShortest (Number.pattern x) d ∧ ∀ d', IsShortest (Number.pattern x) d' → d' = d) ∧
      d.value = Nat.ofDigitChars 10 d.numerals 0 / 10 ^ d.numerals.length * 10 ^ d.order ∧
      d.numerals.head? ≠ some '0' ∧ d.numerals.getLast? ≠ some '0' ∧
      (∀ b, |Number.value (Number.pattern x) - d.value| ≤ |Number.value b - d.value|) ∧
      (1e-6 ≤ x.abs ∧ x.abs < 1e21 ↔ -6 < d.order ∧ d.order ≤ 21) ∧
      result.write x = String.ofList ((if x < 0 then ['-'] else []) ++
        if -6 < d.order ∧ d.order ≤ 21 then plain d.numerals d.order else exponential d.numerals d.order)) ∧
    (x == 0 → result.write x = "0") ∧ (result.write x = result.write y ↔ x == y ∨ x.isNaN ∧ y.isNaN) := by
  refine ⟨fun hx hne => ?_, write_result_of_beq_zero, write_result_eq_iff x y⟩
  have hpos := pattern_pos_of_bne hne
  have hlt := pattern_lt_infinity hx
  have hshortest := isShortest_shortest hpos hlt
  have hform : 1e-6 ≤ x.abs ∧ x.abs < 1e21 ↔ _ := and_congr (low_iff hx hpos hshortest) (high_iff hx hpos hshortest)
  refine ⟨shortest (Number.pattern x), ⟨hshortest, fun d' hd' => hd'.eq hshortest hpos⟩, value_eq_numerals _,
    toDigits_head? (hshortest.digits_pos hpos), toDigits_getLast? (hshortest.digits_mod_ne_zero hpos), ?_, hform, ?_⟩
  · have hrounds := rounds_pattern (shortest (Number.pattern x))
    rw [hshortest.pattern_eq] at hrounds
    exact hrounds.abs_sub_le hlt
  · rw [write_result_of_pos hx hpos, signed_eq hx hpos, positional_eq_plain, scientific_eq_exponential]
    simp only [hform]

/-- The largest order that is too small for positional notation. -/
theorem result_in_shortest_digits_least_order :
    (-2.5e-7 : Float).isFinite ∧ ((-2.5e-7 : Float) != 0) ∧ IsShortest (Number.pattern (-2.5e-7)) ⟨25, -8⟩ ∧
      (Decimal.mk 25 (-8)).order = -6 ∧ result.write (-2.5e-7) = String.ofList ('-' :: exponential ['2', '5'] (-6)) ∧
      exponential ['2', '5'] (-6) = "2.5e-7".toList ∧ result.write (-2.5e-7) ≠ result.write 2.5e-7 := by
  have hfinite : (-2.5e-7 : Float).isFinite := by decide +kernel
  have hne : (-2.5e-7 : Float) != 0 := by decide +kernel
  obtain ⟨hdigits, -, hinjective⟩ := result_in_shortest_digits (-2.5e-7) 2.5e-7
  obtain ⟨d, ⟨hd, hunique⟩, -, -, -, -, -, htext⟩ := hdigits hfinite hne
  have hshortest := isShortest_shortest (pattern_pos_of_bne hne) (pattern_lt_infinity hfinite)
  have hd25 : shortest (Number.pattern (-2.5e-7)) = ⟨25, -8⟩ := by decide +kernel
  obtain rfl := hd25.symm.trans (hunique _ hshortest)
  have hnumerals : (Decimal.mk 25 (-8)).numerals = ['2', '5'] := by decide +kernel
  have horder : (Decimal.mk 25 (-8)).order = -6 := by rw [order, hnumerals]; rfl
  have hnegative : (-2.5e-7 : Float) < 0 := by decide +kernel
  rw [hnumerals, horder, if_pos hnegative, if_neg (by decide)] at htext
  refine ⟨hfinite, hne, hd, horder, htext, by decide +kernel, ?_⟩
  rw [Ne, hinjective]
  decide +kernel

end Reckon.Layout
