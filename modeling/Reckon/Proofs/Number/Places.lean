import Reckon.Number.Layout
import Reckon.Proofs.Number.Digits

/-!
# Digits in their places

The two notations written out for a number `0.d₁…dₖ · 10ⁿ`, from its digits and its order: with all digits in their places
(`positional_eq_plain`), or with an exponent (`scientific_eq_exponential`).
-/

namespace Reckon.Decimal

/-- No exponent: zeros fill the places in front of the digits or behind them. -/
def plain (ds : List Char) (n : Int) : List Char :=
  if n ≤ 0 then '0' :: '.' :: (List.replicate (-n).toNat '0' ++ ds)
  else if n < ds.length then ds.take n.toNat ++ '.' :: ds.drop n.toNat
  else ds ++ List.replicate (n.toNat - ds.length) '0'

/-- A point behind the first digit if there are more. -/
def significand : List Char → List Char
  | c :: c' :: ds => c :: '.' :: c' :: ds
  | ds => ds

/-- The exponent is that of the first digit, and has its sign even if it is not negative. -/
def exponential (ds : List Char) (n : Int) : List Char :=
  significand ds ++ 'e' :: (if n - 1 < 0 then '-' else '+') :: Nat.toDigits 10 (n - 1).natAbs

theorem positional_eq_plain (d : Decimal) : d.positional = plain d.numerals d.order := by
  have hlength := d.length_numerals_pos
  have horder : d.order = d.exponent + d.numerals.length := rfl
  rw [positional, ← numerals, plain]
  rcases Int.lt_or_le d.exponent 0 with he | he
  · rw [if_neg (by omega)]
    rcases Int.lt_or_le 0 d.order with hn | hn
    · have htake : d.numerals.length - (-d.exponent).toNat = d.order.toNat := by omega
      rw [if_pos (by omega), if_neg (by omega), if_pos (by omega), htake]
    · have hzeros : (-d.exponent).toNat - d.numerals.length = (-d.order).toNat := by omega
      rw [if_neg (by omega), if_pos hn, hzeros]
  · have hzeros : d.exponent.toNat = d.order.toNat - d.numerals.length := by omega
    rw [if_pos he, if_neg (by omega), if_neg (by omega), hzeros]

theorem take_append_fraction {ds : List Char} (h : 0 < ds.length) :
    (ds.take 1 ++ if ds.length = 1 then [] else '.' :: ds.drop 1) = significand ds := by
  match ds with
  | [c] => rfl
  | c :: c' :: ds => simp [significand]

theorem scientific_eq_exponential (d : Decimal) : d.scientific = exponential d.numerals d.order := by
  have hexponent : (d.numerals.length - 1 + d.exponent : Int) = d.order - 1 := by
    rw [order]
    ring
  rw [scientific, ← numerals, take_append_fraction d.length_numerals_pos, hexponent, exponential]

end Reckon.Decimal
