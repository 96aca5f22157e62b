import ClassFormat.ClassFile.Decode

/-! Where the bytes of a class file come from. -/
namespace ClassFormat

/-- Bytes that arrive in blocks, until there are no more or the source fails. -/
structure Source where
  blocks : List Bytes
  failure : Option String
  deriving Repr

/-- A source that fails gives nothing, whatever arrived before. -/
def Source.bytes (source : Source) : Except Error Bytes :=
  match source.failure with
  | none => .ok source.blocks.flatten
  | some reason => .error (.sourceFailed reason)

/-- Decoding starts when all bytes have arrived. -/
def ClassFile.read (source : Source) : Except Error ClassFile := source.bytes.bind decode

end ClassFormat
