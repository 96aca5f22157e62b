import ClassFormat.Cursor
import ClassFormat.Code.Instruction

/-! A code array is a sequence of instructions without gaps. Where each ends depends on its
opcode, for switches also on its place, so it can only be read from the start. -/
namespace ClassFormat.Instruction

/-- The next `n` bytes of a code array; an instruction must not run past its end. What
would have been consumed is reported in 32 bits, like the length it exceeds. -/
def demand (declared n : Nat) (cursor : Cursor) : Except Error Bytes :=
  match cursor.peek? n with
  | some bytes => .ok bytes
  | none => .error (.codeLength declared (min (cursor.position + n) 0xffffffff))

/-- The number at a place in the header of a switch. -/
def headerWord (header : Bytes) (start : Nat) : Int32 :=
  Word.ofBytes ((header.drop start).take 4)

/-- The operands of the instruction `opcode` at `pc`, where the cursor stands after the
opcode; `unknown` is the complaint about an opcode that does not belong there. -/
def readOperands (declared pc : Nat) (unknown : UInt8 → Error) (cursor : Cursor) :
    Operands → Except Error Bytes
  | .fixed n => demand declared n cursor
  | .wide => do
    let head ← demand declared 1 cursor
    let widened := head.headD 0
    if Opcode.isWidenable widened then
      demand declared (1 + Opcode.widenedWidth widened) cursor
    else throw (unknown widened)
  | .tableSwitch => do
    let padding := switchPadding pc
    let header ← demand declared (padding + 12) cursor
    let low := headerWord header (padding + 4)
    let high := headerWord header (padding + 8)
    if high < low then throw (.switchRange pc low high)
    else demand declared (padding + 12 + 4 * (high.toInt - low.toInt + 1).toNat) cursor
  | .lookupSwitch => do
    let padding := switchPadding pc
    let header ← demand declared (padding + 8) cursor
    let pairs := headerWord header (padding + 4)
    if pairs < 0 then throw (.switchPairs pc pairs)
    else demand declared (padding + 8 + 8 * pairs.toInt.toNat) cursor

/-- The instruction at the cursor, whose opcode is `byte`. -/
def decodeAt (declared : Nat) (byte : UInt8) (cursor : Cursor) : Except Error Instruction :=
  let pc := cursor.position
  let unknown (opcode : UInt8) : Error := .unknownOpcode opcode pc cursor.offset
  match Opcode.ofByte? byte with
  | none => .error (unknown byte)
  | some opcode => do
    let operands ← readOperands declared pc unknown (cursor.advance 1) opcode.operands
    let padding :=
      match opcode.operands with
      | .tableSwitch | .lookupSwitch => switchPadding pc
      | _ => 0
    return ⟨pc, cursor.offset, byte, operands, padding⟩

def decodeFrom (declared : Nat) (decoded : Array Instruction) (cursor : Cursor) :
    Except Error (Array Instruction) :=
  if left : cursor.rest = [] then .ok decoded
  else
    match decodeAt declared (cursor.rest.head left) cursor with
    | .ok instruction =>
      decodeFrom declared (decoded.push instruction) (cursor.advance instruction.width)
    | .error cause => .error cause
termination_by cursor.rest.length
decreasing_by
  have := List.length_pos_iff.2 left
  simp only [Cursor.advance, width, List.length_drop]
  omega

/-- All instructions of a code array that lies at `base`. -/
def decodeAll (declared base : Nat) (bytes : Bytes) : Except Error (Array Instruction) :=
  decodeFrom declared #[] (.startingAt base bytes)

end ClassFormat.Instruction
