import Reckon.Proofs.Number.Value

/-!
# Digits and orders of decimals

A decimal has the value `0.d₁…dₖ · 10ⁿ`, where `d₁…dₖ` are its numerals and `n` is its order. Unless it is zero, its order
is settled by its value (`order_le_iff`), so that decimals of one value have the same digits if they have equally many
(`eq_of_value_eq`).
-/

namespace Reckon.Decimal

variable {d d' : Decimal} {j : Int}

def numerals (d : Decimal) : List Char :=
  Nat.toDigits 10 d.digits

/-- The power of ten that the first digit stands right behind. -/
def order (d : Decimal) : Int :=
  d.exponent + d.numerals.length

theorem value_eq_numerals (d : Decimal) :
    d.value = Nat.ofDigitChars 10 d.numerals 0 / 10 ^ d.numerals.length * 10 ^ d.order := by
  have hdigits : Nat.ofDigitChars 10 d.numerals 0 = d.digits := Nat.ofDigitChars_ten_toDigits
  rw [hdigits, order, add_comm, zpow_add₀ (by norm_num), zpow_natCast, ← mul_assoc, div_mul_cancel₀ _ (by positivity),
    value]

/-! ## First and last digits -/

theorem toDigits_head? {n : Nat} (h : 0 < n) : (Nat.toDigits 10 n).head? ≠ some '0' := by
  induction n using Nat.strongRecOn with
  | _ n ih =>
      rcases Nat.lt_or_ge n 10 with hlt | hge
      · rw [Nat.toDigits_of_lt_base hlt]
        interval_cases n <;> decide
      · rw [Nat.toDigits_of_base_le (by decide) hge, List.head?_append_of_ne_nil _ Nat.toDigits_ne_nil]
        exact ih (n / 10) (by omega) (by omega)

theorem toDigits_getLast? {n : Nat} (h : n % 10 ≠ 0) : (Nat.toDigits 10 n).getLast? ≠ some '0' := by
  have hlast : (Nat.toDigits 10 n).getLast? = some (Nat.digitChar (n % 10)) := by
    rcases Nat.lt_or_ge n 10 with hlt | hge
    · rw [Nat.toDigits_of_lt_base hlt, Nat.mod_eq_of_lt hlt]
      rfl
    · rw [Nat.toDigits_of_base_le (by decide) hge, List.getLast?_concat]
  have hlt := Nat.mod_lt n (by decide : 0 < 10)
  rw [hlast]
  interval_cases n % 10 <;> simp_all

/-! ## Orders -/

theorem length_numerals_pos (d : Decimal) : 0 < d.numerals.length :=
  Nat.length_toDigits_pos

theorem digits_lt (d : Decimal) : d.digits < 10 ^ d.numerals.length :=
  (Nat.length_toDigits_le_iff (by decide) d.length_numerals_pos).mp (Nat.le_refl _)

theorem le_digits (h : 0 < d.digits) : 10 ^ (d.numerals.length - 1) ≤ d.digits := by
  have hlength := d.length_numerals_pos
  rcases Nat.eq_zero_or_pos (d.numerals.length - 1) with hone | hmore
  · rw [hone]
    exact h
  · refine Nat.le_of_not_lt fun hlt => ?_
    have := (Nat.length_toDigits_le_iff (by decide) hmore).mpr hlt
    rw [← numerals] at this
    omega

theorem value_lt (d : Decimal) : d.value < 10 ^ d.order := by
  rw [value, order, add_comm, zpow_add₀ (by norm_num), zpow_natCast]
  exact mul_lt_mul_of_pos_right (by exact_mod_cast d.digits_lt) (by positivity)

theorem le_value (h : 0 < d.digits) : (10 : ℚ) ^ (d.order - 1) ≤ d.value := by
  have hlength := d.length_numerals_pos
  have horder : d.order - 1 = (d.numerals.length - 1 : Nat) + d.exponent := by
    rw [order]
    omega
  rw [value, horder, zpow_add₀ (by norm_num), zpow_natCast]
  exact mul_le_mul_of_nonneg_right (by exact_mod_cast le_digits h) (by positivity)

/-- A decimal is below a power of ten exactly if its order is not above the exponent. -/
theorem order_le_iff (h : 0 < d.digits) : d.order ≤ j ↔ d.value < 10 ^ j := by
  constructor
  · intro hle
    exact lt_of_lt_of_le d.value_lt (zpow_le_zpow_right₀ (by norm_num) hle)
  · intro hlt
    have := (zpow_lt_zpow_iff_right₀ (by norm_num)).mp (lt_of_le_of_lt (le_value h) hlt)
    omega

theorem eq_of_value_eq (h : 0 < d.digits) (h' : 0 < d'.digits) (hlength : d.numerals.length = d'.numerals.length)
    (hvalue : d.value = d'.value) : d = d' := by
  have horder : d.order = d'.order := by
    refine Int.le_antisymm ?_ ?_
    · rw [order_le_iff h, hvalue, ← order_le_iff h']
    · rw [order_le_iff h', ← hvalue, ← order_le_iff h]
  have hexponent : d.exponent = d'.exponent := by
    rw [order, order] at horder
    omega
  rw [value, value, hexponent] at hvalue
  have hdigits := mul_right_cancel₀ (by positivity) hvalue
  cases d
  cases d'
  simp_all

end Reckon.Decimal
