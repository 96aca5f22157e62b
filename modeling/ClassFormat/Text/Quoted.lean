/-! How a message shows numbers and single bytes: hexadecimal digits, and a byte as a
Latin-1 character in single quotes with an escape for what cannot be seen. -/
namespace ClassFormat.Text.Quoted

/-- Hexadecimal digits in capitals, at least `width` of them. -/
def hex (width n : Nat) : String :=
  let digits := (Nat.toDigits 16 n).map Char.toUpper
  String.ofList (List.replicate (width - digits.length) '0' ++ digits)

/-- The quote and the backslash end or change a quoted character, so they are escaped;
so are the controls, the no-break space and the soft hyphen, which print as nothing. -/
def escaped (byte : UInt8) : String :=
  if byte = 0x00 then "\\0"
  else if byte = 0x09 then "\\t"
  else if byte = 0x0a then "\\n"
  else if byte = 0x0d then "\\r"
  else if byte = 0x27 then "\\'"
  else if byte = 0x5c then "\\\\"
  else if byte < 0x20 || (0x7f ≤ byte && byte ≤ 0xa0) || byte = 0xad then
    "\\u\x7b" ++ String.ofList (Nat.toDigits 16 byte.toNat) ++ "\x7d"
  else String.singleton (Char.ofNat byte.toNat)

def byte (byte : UInt8) : String := "'" ++ escaped byte ++ "'"

end ClassFormat.Text.Quoted
