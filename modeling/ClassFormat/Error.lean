import ClassFormat.Pool.Tag
import ClassFormat.Text.Quoted

/-! The reasons for which bytes are not a class file. Each names what was found and
where: offsets count from the start of the file, a `pc` from the start of a code array. -/
namespace ClassFormat

inductive Error where
  /-- A word runs past the end. -/
  | endOfInput
  /-- A run of bytes with a length of its own runs past the end. -/
  | tooFewBytes (needed offset left : Nat)
  /-- The bytes could not be obtained at all. -/
  | sourceFailed (reason : String)
  | wrongMagic (found : UInt32)
  | unknownConstant (tag : UInt8) (index offset : Nat)
  | unknownTarget (type : UInt8) (offset : Nat)
  | unknownOpcode (opcode : UInt8) (pc offset : Nat)
  | unknownFrame (type : UInt8) (offset : Nat)
  | unknownVerification (tag : UInt8) (offset : Nat)
  | unknownElement (tag : UInt8) (offset : Nat)
  | unknownReferenceKind (kind : UInt8) (index : Nat)
  | unknownPathStep (kind : UInt8) (offset : Nat)
  /-- A reference leads to an entry of the wrong kind. -/
  | mismatch (index : Nat) (expected : List Tag) (found : Tag)
  | indexOutOfRange (index count : Nat)
  /-- A reference leads to the second slot of an eight-byte number. -/
  | upperHalf (index : Nat)
  /-- Following method handles from here never leads to a member. -/
  | endlessHandle (index : Nat)
  /-- The last instruction runs past the end of its code array. -/
  | codeLength (declared consumed : Nat)
  | switchRange (pc : Nat) (low high : Int32)
  | switchPairs (pc : Nat) (pairs : Int32)
  | attributeLength (name : String) (declared consumed : Nat)
  | malformedText (index : Nat)
  | tooDeep (limit offset : Nat)
  | trailingBytes (offset remaining : Nat)
  deriving DecidableEq

namespace Error

open Text.Quoted in
def message : Error → String
  | endOfInput => "failed to fill whole buffer"
  | tooFewBytes needed offset left =>
    s!"needed {needed} bytes at offset {offset}, only {left} left"
  | sourceFailed reason => reason
  | wrongMagic found => "Invalid magic identifier: 0x" ++ hex 1 found.toNat
  | unknownConstant tag index offset =>
    s!"Invalid cp info tag {tag} for pool index {index} at offset {offset}"
  | unknownTarget type offset =>
    "Invalid type annotation target type 0x" ++ hex 2 type.toNat ++ s!" at offset {offset}"
  | unknownOpcode opcode pc offset =>
    "Invalid opcode 0x" ++ hex 2 opcode.toNat ++ s!" at pc {pc} (offset {offset})"
  | unknownFrame type offset => s!"Invalid stack map frame type {type} at offset {offset}"
  | unknownVerification tag offset => s!"Invalid verification type tag {tag} at offset {offset}"
  | unknownElement tag offset =>
    "Invalid element value tag " ++ byte tag ++ s!" at offset {offset}"
  | unknownReferenceKind kind index =>
    s!"Invalid method handle reference kind {kind} at pool index {index}"
  | unknownPathStep kind offset => s!"Invalid type path kind {kind} at offset {offset}"
  | mismatch index expected found =>
    s!"Pool index {index}: expected " ++ Tag.alternatives expected ++ ", found " ++ found.name
  | indexOutOfRange index count =>
    s!"Pool index {index} is out of range (constant_pool_count is {count})"
  | upperHalf index => s!"Pool index {index} is the unusable upper half of a Long or Double"
  | endlessHandle index => s!"Pool index {index} is a method handle that leads to no member"
  | codeLength declared consumed =>
    s!"Instruction stream consumed {consumed} bytes, but code_length is {declared}"
  | switchRange pc low high =>
    s!"Malformed switch at pc {pc}: low {low} is greater than high {high}"
  | switchPairs pc pairs => s!"Malformed switch at pc {pc}: negative npairs {pairs}"
  | attributeLength name declared consumed =>
    "Attribute " ++ name ++ s!" declared {declared} bytes, but {consumed} were decoded"
  | malformedText index => s!"Pool index {index} is not valid modified UTF-8"
  | tooDeep limit offset => s!"Structures nest deeper than {limit} levels at offset {offset}"
  | trailingBytes offset remaining =>
    s!"{remaining} unexpected bytes after the class file at offset {offset}"

end Error
end ClassFormat
