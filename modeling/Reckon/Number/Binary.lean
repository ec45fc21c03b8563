/-!
# Magnitudes of doubles

The bits of a double without its sign, read as a natural number, are the *pattern* of its magnitude. The finite
patterns are those below `infinity`, and a larger pattern is a larger magnitude. Magnitudes are counted in units of
`2^-1074`, the smallest positive double, so that each of them is a natural number of units: a pattern `b` stands for
`mantissa b * 2 ^ exponent b` units.

`nearest n d` is the pattern of the double nearest to `n / d` units.
-/

namespace Reckon.Number

/-- The pattern of infinity, the least one that is not finite. -/
def infinity : Nat :=
  0x7ff <<< 52

/-- The power of two that the last bit of the mantissa is worth, in units. -/
def exponent (b : Nat) : Nat :=
  b >>> 52 - 1

/-- The mantissa, with the leading bit that normal doubles leave out. -/
def mantissa (b : Nat) : Nat :=
  b - exponent b <<< 52

/-- The magnitude with pattern `b`, in units. -/
def units (b : Nat) : Nat :=
  mantissa b <<< exponent b

/-- The natural number nearest to `n / d`, the even one of two that are equally near. -/
def roundEven (n d : Nat) : Nat :=
  if 2 * (n % d) < d ∨ 2 * (n % d) = d ∧ n / d % 2 = 0 then n / d else n / d + 1

/--
The pattern of the double nearest to `n / d` units, with an even mantissa if two are equally near, and infinity where
doubles end. A mantissa rounded up to `2^53` carries into the exponent by the addition itself.
-/
def nearest (n d : Nat) : Nat :=
  let k := (n / d).log2 - 52
  min (k <<< 52 + roundEven n (d <<< k)) infinity

def pattern (x : Float) : Nat :=
  x.toBits.toNat % 1 <<< 63

def isNegative (x : Float) : Bool :=
  x.toBits.toNat.testBit 63

/-- The double with the given pattern and no sign. -/
def ofPattern (b : Nat) : Float :=
  Float.ofBits (UInt64.ofNat b)

example : nearest (2 ^ 1074) 1 = (1 : Float).toBits.toNat := by decide +kernel
example : nearest (2 ^ 1074) 10 = (0.1 : Float).toBits.toNat := by decide +kernel
example : units (nearest 5 1) = 5 := by decide +kernel
example : nearest (2 ^ 2098) 1 = infinity := by decide +kernel

end Reckon.Number
