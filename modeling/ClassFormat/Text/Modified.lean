import ClassFormat.Text.Utf8

/-! Modified UTF-8: each UTF-16 unit of a text is encoded by itself in one to three bytes,
and the unit 0 in two, so that no byte of the encoding is zero. A supplementary
character thus takes two forms of three bytes. -/
namespace ClassFormat.Text.Modified

open Multibyte

def form? (first : UInt8) : Option Form :=
  let value := first.toNat
  if first = 0 then none
  else if first < 0x80 then some ⟨value, []⟩
  else if first = 0xc0 then some ⟨0, [(0x80, 0x80)]⟩
  else if first < 0xc2 then none
  else if first < 0xe0 then some ⟨value - 0xc0, [continuation]⟩
  else if first = 0xe0 then some ⟨0, [(0xa0, 0xbf), continuation]⟩
  else if first < 0xf0 then some ⟨value - 0xe0, [continuation, continuation]⟩
  else none

/-- The UTF-16 units, if no part is broken. -/
def units? (bytes : Bytes) : Option (List Nat) := (scan form? bytes).mapM id

def isHigh (code : Nat) : Bool := 0xd800 ≤ code && code < 0xdc00

def isLow (code : Nat) : Bool := 0xdc00 ≤ code && code < 0xe000

/-- The character beyond the first plane that two surrogates stand for. -/
def join (high low : Nat) : Char :=
  Char.ofNat (0x10000 + (high - 0xd800) * 0x400 + (low - 0xdc00))

def ofUnitsFrom : List Nat → List Char → Option (List Char)
  | [], decoded => some decoded.reverse
  | code :: rest, decoded =>
    if isHigh code then
      match rest with
      | low :: rest => if isLow low then ofUnitsFrom rest (join code low :: decoded) else none
      | [] => none
    else if isLow code then none
    else ofUnitsFrom rest (Char.ofNat code :: decoded)

/-- The text that UTF-16 units spell, if every surrogate is one of a pair. -/
def ofUnits? (units : List Nat) : Option (List Char) := ofUnitsFrom units []

/-- Bytes that are UTF-8 as they stand are taken for that. -/
def decode? (bytes : Bytes) : Option (List Char) :=
  match Utf8.decode? bytes with
  | some text => some text
  | none => (units? bytes).bind ofUnits?

end ClassFormat.Text.Modified
