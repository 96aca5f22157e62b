import ClassFormat.Cursor
import ClassFormat.Trace

/-! Decoders read from a cursor and record what they do. A decoder that fails keeps the
cursor and the record it has reached, so that a failure can be told in full. -/
namespace ClassFormat

structure State where
  cursor : Cursor
  trace : Array Event

abbrev Decoder := EStateM Error State

namespace Decoder

/-- The start of a file, with nothing recorded. -/
def start (bytes : Bytes) : State := ⟨.ofBytes bytes, #[]⟩

def onCursor (step : Cursor → Except Error α × Cursor) : Decoder α := fun s =>
  match step s.cursor with
  | (.ok value, cursor) => .ok value { s with cursor }
  | (.error cause, cursor) => .error cause { s with cursor }

def read [Word α] : Decoder (Scalar α) := onCursor Cursor.read

def take (n : Nat) : Decoder Bytes := onCursor (·.take n)

def skip (n : Nat) : Decoder Unit := onCursor (·.skip n)

def offset : Decoder Nat := return (← get).cursor.offset

def record (event : Event) : Decoder Unit :=
  modify fun s => { s with trace := s.trace.push event }

/-- A check that reads nothing. -/
def demand : Except Error α → Decoder α
  | .ok value => pure value
  | .error cause => throw cause

def timesFrom (item : Decoder α) : Nat → List α → Decoder (List α)
  | 0, decoded => pure decoded.reverse
  | n + 1, decoded => do
    let value ← item
    timesFrom item n (value :: decoded)

/-- The same item `n` times over. -/
def times (n : Nat) (item : Decoder α) : Decoder (List α) := timesFrom item n []

/-- A level of nesting is closed again however its contents end. -/
def nested (inner : Decoder α) : Decoder α := fun s =>
  match inner { s with trace := s.trace.push (.opened s.cursor.offset) } with
  | .ok value after => .ok value { after with trace := after.trace.push .closed }
  | .error cause after => .error cause { after with trace := after.trace.push .closed }

end Decoder
end ClassFormat
