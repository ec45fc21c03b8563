import Reckon.Number.Decimal

/-!
# Shortest decimals

The shortest decimal of a double is the one on the coarsest grid that has a decimal which reads back as that double.
If a grid has several, the nearest one is meant, and the upper one of two that are equally near.

On each grid it is enough to try the two neighbours of the double, and the grid of `10^-1074` holds every double.
-/

namespace Reckon.Decimal

/-- The decimal on the grid of `10 ^ e` that reads back as the magnitude `b`, if there is one, the nearest of them. -/
def onGrid? (b : Nat) (e : Int) : Option Decimal :=
  let n := Number.units b * Nat.pow 10 (-e).toNat
  let d := Nat.pow 10 e.toNat <<< 1074
  let below : Decimal := ⟨n / d, e⟩
  let above : Decimal := ⟨n / d + 1, e⟩
  if below.pattern = b then
    if above.pattern = b ∧ d ≤ 2 * (n % d) then some above else some below
  else if above.pattern = b then some above
  else none

/-- The first hit on the grids of `10 ^ (g - 1074)` and finer ones. -/
def shortestFrom (b : Nat) : Nat → Decimal
  | 0 => ⟨Number.units b * Nat.pow 5 1074, -1074⟩
  | g + 1 =>
      match onGrid? b (g + 1 - 1074) with
      | some d => d
      | none => shortestFrom b g

/--
The number of a grid whose step is more than twice the magnitude `b`, so that no coarser grid has a hit. As
`log 2 / log 10` is a little more than `30102 / 100000`, `10 ^ p` exceeds `2 ^ n` for `p = n * 30103 / 100000 + 1`.
-/
def coarsest (b : Nat) : Nat :=
  let n : Int := (Number.units b).log2 + 2 - 1074
  (n * 30103 / 100000 + 1 + 1074).toNat

/-- The shortest decimal that reads back as the magnitude with pattern `b`. -/
def shortest (b : Nat) : Decimal :=
  shortestFrom b (coarsest b)

example : shortest (Number.pattern 0.1) = ⟨1, -1⟩ := by decide +kernel
example : shortest 1 = ⟨5, -324⟩ := by decide +kernel
example : shortest (Number.pattern 1125899906842624.25) = ⟨11258999068426243, -1⟩ := by decide +kernel

end Reckon.Decimal
