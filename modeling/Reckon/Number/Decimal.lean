import Reckon.Number.Binary

/-!
# Decimals

A decimal is a natural number of steps on the grid of the multiples of a power of ten. This module reads numerals as
decimals and decimals as doubles.
-/

namespace Reckon

/-- The number `digits * 10 ^ exponent`. -/
structure Decimal where
  digits : Nat
  exponent : Int
deriving DecidableEq, Repr, Inhabited

namespace Decimal

/-- The pattern of the nearest double. One of the two powers of ten is `1`. -/
def pattern (d : Decimal) : Nat :=
  Number.nearest ((d.digits * Nat.pow 10 d.exponent.toNat) <<< 1074) (Nat.pow 10 (-d.exponent).toNat)

def toFloat (d : Decimal) : Float :=
  Number.ofPattern d.pattern

/-- Reads a numeral: digits, which a point and more digits may follow. Nothing else is a numeral. -/
def ofNumeral? (cs : List Char) : Option Decimal :=
  let whole := cs.takeWhile Char.isDigit
  if whole.isEmpty then none
  else
    match cs.dropWhile Char.isDigit with
    | [] => some ⟨Nat.ofDigitChars 10 whole 0, 0⟩
    | c :: fraction =>
        if c = '.' ∧ ¬ fraction.isEmpty ∧ fraction.all Char.isDigit then
          some ⟨Nat.ofDigitChars 10 (whole ++ fraction) 0, -fraction.length⟩
        else none

example : ofNumeral? "12.50".toList = some ⟨1250, -2⟩ := by decide +kernel
example : ofNumeral? "12.".toList = none := by decide +kernel
example : ofNumeral? ".5".toList = none := by decide +kernel

end Decimal
end Reckon
