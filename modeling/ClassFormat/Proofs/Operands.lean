import ClassFormat.Proofs.Misfits

/-! What an instruction says of its operands. Each question reads the raw operands by a rule of its
own, so the answers are compared here with the forms that a code array is cut into. -/
namespace ClassFormat

namespace Bytes

end Bytes

namespace Switch

end Switch

namespace Opcode

variable {byte : UInt8} {opcode : Opcode}

end Opcode

namespace Instruction

section Forms

variable {base pc : Nat}

end Forms

end Instruction
end ClassFormat
