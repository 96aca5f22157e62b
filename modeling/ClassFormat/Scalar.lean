import ClassFormat.Word

/-! A scalar is a word together with the place it was read from, so that every decoded
value can be pointed at in the file. -/
namespace ClassFormat

structure Scalar (α : Type) where
  value : α
  /-- The offset of the first byte. -/
  offset : Nat
  deriving DecidableEq, Repr

abbrev U1 := Scalar UInt8
abbrev U2 := Scalar UInt16
abbrev U4 := Scalar UInt32

namespace Scalar

def width [Word α] (_ : Scalar α) : Nat := Word.width α

/-- The offset of the first byte after the word. -/
def stop [Word α] (scalar : Scalar α) : Nat := scalar.offset + scalar.width

def map (f : α → β) (scalar : Scalar α) : Scalar β := ⟨f scalar.value, scalar.offset⟩

/-- The number a word stands for as a count, an index or a length. -/
def toNat [Word α] (scalar : Scalar α) : Nat := Word.toNat scalar.value

@[simp] theorem offset_map (f : α → β) (scalar : Scalar α) : (scalar.map f).offset = scalar.offset :=
  rfl

end Scalar

/-- A list that is written after its length. The declared length is kept, since it
has a place in the file of its own. -/
structure Counted (κ α : Type) where
  count : Scalar κ
  items : List α
  deriving Repr

end ClassFormat
