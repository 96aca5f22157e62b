import ClassFormat.Decimal.Binary

/-! The shortest decimal that reads back as a given binary number. A decimal reads back
if it lies between the points halfway to the two neighbouring numbers, or on one of
them if the significand is even, for that is how reading rounds. -/
namespace ClassFormat.Decimal

/-- The number `digits · 10 ^ exponent`. -/
structure Digits where
  digits : Nat
  exponent : Int
  deriving DecidableEq, Repr

namespace Magnitude

/-- The magnitude and the two halfway points as multiples of a common fraction, and the
steps of the decimal grid `10 ^ exponent` as multiples of the same. -/
structure Grid where
  low : Nat
  centre : Nat
  high : Nat
  closed : Bool
  step : Nat

def grid (magnitude : Magnitude) (exponent : Int) : Grid :=
  let scale := magnitude.exponent - 2
  let unit := Nat.pow 2 scale.toNat * Nat.pow 10 (-exponent).toNat
  let centre := 4 * magnitude.significand
  { low := (centre - if magnitude.narrow then 1 else 2) * unit
    centre := centre * unit
    high := (centre + 2) * unit
    closed := magnitude.significand % 2 = 0
    step := Nat.pow 10 exponent.toNat * Nat.pow 2 (-scale).toNat }

/-- Whether the grid point `n` reads back. -/
def Grid.admits (grid : Grid) (n : Nat) : Bool :=
  let point := n * grid.step
  if grid.closed then grid.low ≤ point && point ≤ grid.high
  else grid.low < point && point < grid.high

/-- The nearest grid point that reads back; halfway between two, the greater. -/
def Grid.nearest? (grid : Grid) : Option Nat :=
  let below := grid.centre / grid.step
  match grid.admits below, grid.admits (below + 1) with
  | true, true =>
    some (if 2 * (grid.centre - below * grid.step) < grid.step then below else below + 1)
  | true, false => some below
  | false, true => some (below + 1)
  | false, false => none

/-- Tries finer and finer grids. -/
def search (magnitude : Magnitude) : Nat → Int → Digits
  | 0, exponent => ⟨(magnitude.grid exponent).centre / (magnitude.grid exponent).step, exponent⟩
  | tries + 1, exponent =>
    match (magnitude.grid exponent).nearest? with
    | some digits => ⟨digits, exponent⟩
    | none => search magnitude tries (exponent - 1)

/-- The search starts where the grid is too coarse, since `0.30103` exceeds the decimal
logarithm of 2; each bit of the significand asks for less than one digit. -/
def shortest (magnitude : Magnitude) : Digits :=
  let bits := magnitude.significand.log2 + 1
  search magnitude (bits + 8) ((magnitude.exponent + bits) * 30103 / 100000 + 2)

end Magnitude
end ClassFormat.Decimal
