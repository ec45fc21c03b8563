import Reckon.Number.Shortest

/-!
# Texts of numbers

A number is written with the digits of its shortest decimal. A layout says where positional notation gives way to an
exponent, and how zero and infinity are spelled. Programs are shown with `Layout.literal`, their results with
`Layout.result`.
-/

namespace Reckon

namespace Decimal

/-- Digits in place, with zeros up to the point where needed: `1200`, `12.5`, `0.0125`. -/
def positional (d : Decimal) : List Char :=
  let ds := Nat.toDigits 10 d.digits
  if 0 ≤ d.exponent then ds ++ List.replicate d.exponent.toNat '0'
  else
    let places := (-d.exponent).toNat
    if places < ds.length then
      ds.take (ds.length - places) ++ '.' :: ds.drop (ds.length - places)
    else '0' :: '.' :: (List.replicate (places - ds.length) '0' ++ ds)

/-- One digit before the point, and an exponent with its sign: `1e+21`, `1.25e-7`. -/
def scientific (d : Decimal) : List Char :=
  let ds := Nat.toDigits 10 d.digits
  let e : Int := ds.length - 1 + d.exponent
  let fraction := if ds.length = 1 then [] else '.' :: ds.drop 1
  ds.take 1 ++ fraction ++ 'e' :: (if e < 0 then '-' else '+') :: Nat.toDigits 10 e.natAbs

end Decimal

/-- How numbers are written. -/
structure Layout where
  infinity : String
  /-- Is a negative zero told apart from zero? -/
  signedZero : Bool
  /-- The magnitudes that are written without an exponent. -/
  isPositional : Float → Bool

namespace Layout

/-- Never an exponent, whatever the magnitude. -/
def literal : Layout where
  infinity := "inf"
  signedZero := true
  isPositional := fun _ => true

/-- No exponent from `1e-6` up to, but not including, `1e21`. -/
def result : Layout where
  infinity := "Infinity"
  signedZero := false
  isPositional := fun x => 1e-6 ≤ x && x < 1e21

def signed (negative : Bool) (text : List Char) : List Char :=
  if negative then '-' :: text else text

def write (l : Layout) (x : Float) : String :=
  let b := Number.pattern x
  if x.isNaN then "NaN"
  else if b = Number.infinity then String.ofList (signed (Number.isNegative x) l.infinity.toList)
  else if b = 0 then String.ofList (signed (l.signedZero && Number.isNegative x) ['0'])
  else
    let d := Decimal.shortest b
    String.ofList <|
      signed (Number.isNegative x) (if l.isPositional x.abs then d.positional else d.scientific)

example : literal.write 1e21 = "1000000000000000000000" := by decide +kernel
example : result.write 1e21 = "1e+21" := by decide +kernel
example : result.write 0.000001 = "0.000001" := by decide +kernel
example : result.write (-2.5e-7) = "-2.5e-7" := by decide +kernel
example : literal.write (-0.0) = "-0" ∧ result.write (-0.0) = "0" := by decide +kernel

end Layout
end Reckon
