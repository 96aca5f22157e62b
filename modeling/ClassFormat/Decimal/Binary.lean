import ClassFormat.Word

/-! What the bit pattern of a floating point number stands for. -/
namespace ClassFormat.Decimal

/-- How many bits a pattern gives to the fraction and to the exponent. -/
structure Format where
  fraction : Nat
  exponent : Nat

def single : Format := ⟨23, 8⟩
def double : Format := ⟨52, 11⟩

/-- A positive number `significand · 2 ^ exponent`. -/
structure Magnitude where
  significand : Nat
  exponent : Int
  /-- The next smaller number is only half as far away as the next greater one. -/
  narrow : Bool
  deriving DecidableEq, Repr

inductive Value where
  | nan
  | infinite (negative : Bool)
  | zero (negative : Bool)
  | finite (negative : Bool) (magnitude : Magnitude)
  deriving DecidableEq, Repr

/-- The smallest exponent is shared by numbers without the leading bit; the greatest is
kept for infinities and for what is not a number. -/
def Format.value (format : Format) (bits : Nat) : Value :=
  let fractions := Nat.pow 2 format.fraction
  let exponents := Nat.pow 2 format.exponent
  let fraction := bits % fractions
  let exponent := bits / fractions % exponents
  let negative := bits / fractions / exponents % 2 = 1
  let least : Int := 2 - exponents / 2 - format.fraction
  if exponent = exponents - 1 then
    if fraction = 0 then .infinite negative else .nan
  else if exponent = 0 then
    if fraction = 0 then .zero negative else .finite negative ⟨fraction, least, false⟩
  else
    .finite negative
      ⟨fractions + fraction, least + exponent - 1, fraction = 0 && 1 < exponent⟩

end ClassFormat.Decimal
