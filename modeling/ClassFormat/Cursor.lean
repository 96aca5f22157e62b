import ClassFormat.Scalar
import ClassFormat.Error

/-! A place in a run of bytes, moving forward only. The run may itself be a part of a
file: `base` is where it starts there, so offsets are always those of the whole file. -/
namespace ClassFormat

structure Cursor where
  base : Nat
  /-- The bytes already passed. -/
  position : Nat
  /-- The bytes not yet passed. -/
  rest : Bytes
  deriving DecidableEq, Repr

namespace Cursor

/-- The start of a run of bytes that lies at `base`. -/
def startingAt (base : Nat) (bytes : Bytes) : Cursor := ⟨base, 0, bytes⟩

/-- The start of a whole file. -/
def ofBytes (bytes : Bytes) : Cursor := startingAt 0 bytes

def offset (cursor : Cursor) : Nat := cursor.base + cursor.position

def remaining (cursor : Cursor) : Nat := cursor.rest.length

def isEmpty (cursor : Cursor) : Bool := cursor.rest.isEmpty

/-- Passes `n` bytes, of which there are enough. -/
def advance (n : Nat) (cursor : Cursor) : Cursor :=
  { cursor with position := cursor.position + n, rest := cursor.rest.drop n }

/-- The next `n` bytes, if there are so many. -/
def peek? (n : Nat) (cursor : Cursor) : Option Bytes :=
  let bytes := cursor.rest.take n
  if bytes.length = n then some bytes else none

/-- The next word. Where it does not fit, the bytes there are used up all the same. -/
def read [Word α] (cursor : Cursor) : Except Error (Scalar α) × Cursor :=
  match cursor.peek? (Word.width α) with
  | some bytes => (.ok ⟨Word.ofBytes bytes, cursor.offset⟩, cursor.advance (Word.width α))
  | none => (.error .endOfInput, cursor.advance cursor.remaining)

/-- The next `n` bytes. Where there are fewer, none is used up. -/
def take (n : Nat) (cursor : Cursor) : Except Error Bytes × Cursor :=
  match cursor.peek? n with
  | some bytes => (.ok bytes, cursor.advance n)
  | none => (.error (.tooFewBytes n cursor.offset cursor.remaining), cursor)

def skip (n : Nat) (cursor : Cursor) : Except Error Unit × Cursor :=
  let (bytes, after) := cursor.take n
  (bytes.map fun _ => (), after)

end Cursor
end ClassFormat
