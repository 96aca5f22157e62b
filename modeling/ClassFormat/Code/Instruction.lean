import ClassFormat.Error
import ClassFormat.Scalar
import ClassFormat.Code.Opcode

/-! Instructions and what their operands say. -/
namespace ClassFormat

/-- `pc` counts from the start of the code array and `offset` from that of the file. The
operands are all bytes after the opcode, the padding of a switch included. -/
structure Instruction where
  pc : Nat
  offset : Nat
  opcode : UInt8
  operands : Bytes
  padding : Nat
  deriving DecidableEq, Repr

/-- The jumps of a switch, relative to the `pc` of its instruction. -/
inductive Switch where
  | table (default low high : Int32) (jumps : List Int32)
  | lookup (default : Int32) (jumps : List (Int32 × Int32))
  deriving DecidableEq, Repr

/-- Switch operands start at a multiple of four in the code array. -/
def switchPadding (pc : Nat) : Nat := 3 - pc % 4

namespace Bytes

def wordsFrom : List Int32 → Bytes → List Int32
  | words, a :: b :: c :: d :: rest => wordsFrom (Word.ofBytes [a, b, c, d] :: words) rest
  | words, _ => words.reverse

/-- Consecutive four-byte words; what is left over is dropped. -/
def words (bytes : Bytes) : List Int32 := wordsFrom [] bytes

end Bytes

namespace Switch

def pairsFrom : List (Int32 × Int32) → List Int32 → List (Int32 × Int32)
  | pairs, key :: jump :: rest => pairsFrom ((key, jump) :: pairs) rest
  | pairs, _ => pairs.reverse

/-- Consecutive pairs; what is left over is dropped. -/
def pairs (words : List Int32) : List (Int32 × Int32) := pairsFrom [] words

end Switch

namespace Instruction

/-- How many bytes the instruction fills. -/
def width (instruction : Instruction) : Nat := 1 + instruction.operands.length

def mnemonic (instruction : Instruction) : String :=
  match Opcode.ofByte? instruction.opcode with
  | some opcode => opcode.mnemonic
  | none => "<unknown>"

def isWide (instruction : Instruction) : Bool := instruction.opcode = Opcode.wide

/-- The opcode that `wide` applies to. -/
def widened? (instruction : Instruction) : Option UInt8 :=
  if instruction.isWide then instruction.operands.head? else none

/-- The constant that the instruction refers to; `ldc` has room for one byte only. -/
def poolIndex? (instruction : Instruction) : Option Nat :=
  if instruction.opcode = Opcode.ldc then instruction.operands.head?.map UInt8.toNat
  else if instruction.opcode ∈ Opcode.pooled then
    match instruction.operands with
    | a :: b :: _ => some (Bytes.toNat [a, b])
    | _ => none
  else none

/-- The jumps of a switch, read from the words that follow its padding. -/
def switch? (instruction : Instruction) : Option Switch :=
  if instruction.operands.length < instruction.padding then none
  else
    let words := Bytes.words (instruction.operands.drop instruction.padding)
    if instruction.opcode = Opcode.tableSwitch then
      match words with
      | default :: low :: high :: jumps => some (.table default low high jumps)
      | _ => none
    else if instruction.opcode = Opcode.lookupSwitch then
      match words with
      | default :: _ :: rest => some (.lookup default (Switch.pairs rest))
      | _ => none
    else none

end Instruction
end ClassFormat
