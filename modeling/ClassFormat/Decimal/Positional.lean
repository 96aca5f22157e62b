import ClassFormat.Decimal.Shortest

/-! The text of a floating point number: the shortest digits that read back, placed
around the point without ever writing an exponent. -/
namespace ClassFormat.Decimal

/-- Places to the left of the digits are filled with zeros; a whole number has no point. -/
def Digits.text (number : Digits) : String :=
  let digits := Nat.toDigits 10 number.digits
  let places := (-number.exponent).toNat
  let zeros (n : Nat) := List.replicate n '0'
  if places = 0 then String.ofList (digits ++ zeros number.exponent.toNat)
  else if digits.length ≤ places then
    String.ofList ('0' :: '.' :: zeros (places - digits.length) ++ digits)
  else
    let whole := digits.length - places
    String.ofList (digits.take whole ++ '.' :: digits.drop whole)

def signed (negative : Bool) (text : String) : String := if negative then "-" ++ text else text

/-- Zero keeps its sign; what is not a number has none. -/
def Value.text : Value → String
  | nan => "NaN"
  | infinite negative => signed negative "inf"
  | zero negative => signed negative "0"
  | finite negative magnitude => signed negative magnitude.shortest.text

end ClassFormat.Decimal

namespace ClassFormat

def Binary32.text (number : Binary32) : String :=
  (Decimal.single.value number.bits.toNat).text

def Binary64.text (number : Binary64) : String :=
  (Decimal.double.value number.bits.toNat).text

end ClassFormat
