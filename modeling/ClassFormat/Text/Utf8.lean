import ClassFormat.Text.Multibyte

/-! UTF-8. A character has one encoding only, the shortest, and surrogates have none, so
the second byte of some forms has a narrower range than the others. -/
namespace ClassFormat.Text.Utf8

open Multibyte

def form? (first : UInt8) : Option Form :=
  let value := first.toNat
  if first < 0x80 then some ⟨value, []⟩
  else if first < 0xc2 then none
  else if first < 0xe0 then some ⟨value - 0xc0, [continuation]⟩
  else if first = 0xe0 then some ⟨0, [(0xa0, 0xbf), continuation]⟩
  else if first = 0xed then some ⟨0xd, [(0x80, 0x9f), continuation]⟩
  else if first < 0xf0 then some ⟨value - 0xe0, [continuation, continuation]⟩
  else if first = 0xf0 then some ⟨0, [(0x90, 0xbf), continuation, continuation]⟩
  else if first < 0xf4 then some ⟨value - 0xf0, [continuation, continuation, continuation]⟩
  else if first = 0xf4 then some ⟨4, [(0x80, 0x8f), continuation, continuation]⟩
  else none

/-- The text, if no part is broken. -/
def decode? (bytes : Bytes) : Option (List Char) :=
  ((scan form? bytes).mapM id).map (·.map Char.ofNat)

/-- The text with a replacement character for each broken part. -/
def decodeLossily (bytes : Bytes) : List Char :=
  (scan form? bytes).map fun number => (number.map Char.ofNat).getD (Char.ofNat 0xfffd)

end ClassFormat.Text.Utf8
