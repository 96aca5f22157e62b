/-! The instruction set. Instructions are numbered without a gap from 0, so an opcode is
a place in the table below; the numbers past its end are reserved or unassigned. -/
namespace ClassFormat

/-- How the bytes that follow an opcode are measured. -/
inductive Operands where
  | fixed (width : Nat)
  /-- A second opcode and operands of twice their usual width. -/
  | wide
  /-- Padding, a default, the two ends of a range, and one jump for each number in it. -/
  | tableSwitch
  /-- Padding, a default, a count, and that many pairs of a number and a jump. -/
  | lookupSwitch
  deriving DecidableEq, Repr

structure Opcode where
  mnemonic : String
  operands : Operands
  deriving DecidableEq, Repr

namespace Opcode

def table : Vector Opcode 202 := #v[
  ⟨"nop", .fixed 0⟩, ⟨"aconst_null", .fixed 0⟩, ⟨"iconst_m1", .fixed 0⟩,
  ⟨"iconst_0", .fixed 0⟩, ⟨"iconst_1", .fixed 0⟩, ⟨"iconst_2", .fixed 0⟩,
  ⟨"iconst_3", .fixed 0⟩, ⟨"iconst_4", .fixed 0⟩, ⟨"iconst_5", .fixed 0⟩,
  ⟨"lconst_0", .fixed 0⟩, ⟨"lconst_1", .fixed 0⟩, ⟨"fconst_0", .fixed 0⟩,
  ⟨"fconst_1", .fixed 0⟩, ⟨"fconst_2", .fixed 0⟩, ⟨"dconst_0", .fixed 0⟩,
  ⟨"dconst_1", .fixed 0⟩, ⟨"bipush", .fixed 1⟩, ⟨"sipush", .fixed 2⟩, ⟨"ldc", .fixed 1⟩,
  ⟨"ldc_w", .fixed 2⟩, ⟨"ldc2_w", .fixed 2⟩, ⟨"iload", .fixed 1⟩, ⟨"lload", .fixed 1⟩,
  ⟨"fload", .fixed 1⟩, ⟨"dload", .fixed 1⟩, ⟨"aload", .fixed 1⟩, ⟨"iload_0", .fixed 0⟩,
  ⟨"iload_1", .fixed 0⟩, ⟨"iload_2", .fixed 0⟩, ⟨"iload_3", .fixed 0⟩, ⟨"lload_0", .fixed 0⟩,
  ⟨"lload_1", .fixed 0⟩, ⟨"lload_2", .fixed 0⟩, ⟨"lload_3", .fixed 0⟩, ⟨"fload_0", .fixed 0⟩,
  ⟨"fload_1", .fixed 0⟩, ⟨"fload_2", .fixed 0⟩, ⟨"fload_3", .fixed 0⟩, ⟨"dload_0", .fixed 0⟩,
  ⟨"dload_1", .fixed 0⟩, ⟨"dload_2", .fixed 0⟩, ⟨"dload_3", .fixed 0⟩, ⟨"aload_0", .fixed 0⟩,
  ⟨"aload_1", .fixed 0⟩, ⟨"aload_2", .fixed 0⟩, ⟨"aload_3", .fixed 0⟩, ⟨"iaload", .fixed 0⟩,
  ⟨"laload", .fixed 0⟩, ⟨"faload", .fixed 0⟩, ⟨"daload", .fixed 0⟩, ⟨"aaload", .fixed 0⟩,
  ⟨"baload", .fixed 0⟩, ⟨"caload", .fixed 0⟩, ⟨"saload", .fixed 0⟩, ⟨"istore", .fixed 1⟩,
  ⟨"lstore", .fixed 1⟩, ⟨"fstore", .fixed 1⟩, ⟨"dstore", .fixed 1⟩, ⟨"astore", .fixed 1⟩,
  ⟨"istore_0", .fixed 0⟩, ⟨"istore_1", .fixed 0⟩, ⟨"istore_2", .fixed 0⟩,
  ⟨"istore_3", .fixed 0⟩, ⟨"lstore_0", .fixed 0⟩, ⟨"lstore_1", .fixed 0⟩,
  ⟨"lstore_2", .fixed 0⟩, ⟨"lstore_3", .fixed 0⟩, ⟨"fstore_0", .fixed 0⟩,
  ⟨"fstore_1", .fixed 0⟩, ⟨"fstore_2", .fixed 0⟩, ⟨"fstore_3", .fixed 0⟩,
  ⟨"dstore_0", .fixed 0⟩, ⟨"dstore_1", .fixed 0⟩, ⟨"dstore_2", .fixed 0⟩,
  ⟨"dstore_3", .fixed 0⟩, ⟨"astore_0", .fixed 0⟩, ⟨"astore_1", .fixed 0⟩,
  ⟨"astore_2", .fixed 0⟩, ⟨"astore_3", .fixed 0⟩, ⟨"iastore", .fixed 0⟩, ⟨"lastore", .fixed 0⟩,
  ⟨"fastore", .fixed 0⟩, ⟨"dastore", .fixed 0⟩, ⟨"aastore", .fixed 0⟩, ⟨"bastore", .fixed 0⟩,
  ⟨"castore", .fixed 0⟩, ⟨"sastore", .fixed 0⟩, ⟨"pop", .fixed 0⟩, ⟨"pop2", .fixed 0⟩,
  ⟨"dup", .fixed 0⟩, ⟨"dup_x1", .fixed 0⟩, ⟨"dup_x2", .fixed 0⟩, ⟨"dup2", .fixed 0⟩,
  ⟨"dup2_x1", .fixed 0⟩, ⟨"dup2_x2", .fixed 0⟩, ⟨"swap", .fixed 0⟩, ⟨"iadd", .fixed 0⟩,
  ⟨"ladd", .fixed 0⟩, ⟨"fadd", .fixed 0⟩, ⟨"dadd", .fixed 0⟩, ⟨"isub", .fixed 0⟩,
  ⟨"lsub", .fixed 0⟩, ⟨"fsub", .fixed 0⟩, ⟨"dsub", .fixed 0⟩, ⟨"imul", .fixed 0⟩,
  ⟨"lmul", .fixed 0⟩, ⟨"fmul", .fixed 0⟩, ⟨"dmul", .fixed 0⟩, ⟨"idiv", .fixed 0⟩,
  ⟨"ldiv", .fixed 0⟩, ⟨"fdiv", .fixed 0⟩, ⟨"ddiv", .fixed 0⟩, ⟨"irem", .fixed 0⟩,
  ⟨"lrem", .fixed 0⟩, ⟨"frem", .fixed 0⟩, ⟨"drem", .fixed 0⟩, ⟨"ineg", .fixed 0⟩,
  ⟨"lneg", .fixed 0⟩, ⟨"fneg", .fixed 0⟩, ⟨"dneg", .fixed 0⟩, ⟨"ishl", .fixed 0⟩,
  ⟨"lshl", .fixed 0⟩, ⟨"ishr", .fixed 0⟩, ⟨"lshr", .fixed 0⟩, ⟨"iushr", .fixed 0⟩,
  ⟨"lushr", .fixed 0⟩, ⟨"iand", .fixed 0⟩, ⟨"land", .fixed 0⟩, ⟨"ior", .fixed 0⟩,
  ⟨"lor", .fixed 0⟩, ⟨"ixor", .fixed 0⟩, ⟨"lxor", .fixed 0⟩, ⟨"iinc", .fixed 2⟩,
  ⟨"i2l", .fixed 0⟩, ⟨"i2f", .fixed 0⟩, ⟨"i2d", .fixed 0⟩, ⟨"l2i", .fixed 0⟩,
  ⟨"l2f", .fixed 0⟩, ⟨"l2d", .fixed 0⟩, ⟨"f2i", .fixed 0⟩, ⟨"f2l", .fixed 0⟩,
  ⟨"f2d", .fixed 0⟩, ⟨"d2i", .fixed 0⟩, ⟨"d2l", .fixed 0⟩, ⟨"d2f", .fixed 0⟩,
  ⟨"i2b", .fixed 0⟩, ⟨"i2c", .fixed 0⟩, ⟨"i2s", .fixed 0⟩, ⟨"lcmp", .fixed 0⟩,
  ⟨"fcmpl", .fixed 0⟩, ⟨"fcmpg", .fixed 0⟩, ⟨"dcmpl", .fixed 0⟩, ⟨"dcmpg", .fixed 0⟩,
  ⟨"ifeq", .fixed 2⟩, ⟨"ifne", .fixed 2⟩, ⟨"iflt", .fixed 2⟩, ⟨"ifge", .fixed 2⟩,
  ⟨"ifgt", .fixed 2⟩, ⟨"ifle", .fixed 2⟩, ⟨"if_icmpeq", .fixed 2⟩, ⟨"if_icmpne", .fixed 2⟩,
  ⟨"if_icmplt", .fixed 2⟩, ⟨"if_icmpge", .fixed 2⟩, ⟨"if_icmpgt", .fixed 2⟩,
  ⟨"if_icmple", .fixed 2⟩, ⟨"if_acmpeq", .fixed 2⟩, ⟨"if_acmpne", .fixed 2⟩,
  ⟨"goto", .fixed 2⟩, ⟨"jsr", .fixed 2⟩, ⟨"ret", .fixed 1⟩, ⟨"tableswitch", .tableSwitch⟩,
  ⟨"lookupswitch", .lookupSwitch⟩, ⟨"ireturn", .fixed 0⟩, ⟨"lreturn", .fixed 0⟩,
  ⟨"freturn", .fixed 0⟩, ⟨"dreturn", .fixed 0⟩, ⟨"areturn", .fixed 0⟩, ⟨"return", .fixed 0⟩,
  ⟨"getstatic", .fixed 2⟩, ⟨"putstatic", .fixed 2⟩, ⟨"getfield", .fixed 2⟩,
  ⟨"putfield", .fixed 2⟩, ⟨"invokevirtual", .fixed 2⟩, ⟨"invokespecial", .fixed 2⟩,
  ⟨"invokestatic", .fixed 2⟩, ⟨"invokeinterface", .fixed 4⟩, ⟨"invokedynamic", .fixed 4⟩,
  ⟨"new", .fixed 2⟩, ⟨"newarray", .fixed 1⟩, ⟨"anewarray", .fixed 2⟩,
  ⟨"arraylength", .fixed 0⟩, ⟨"athrow", .fixed 0⟩, ⟨"checkcast", .fixed 2⟩,
  ⟨"instanceof", .fixed 2⟩, ⟨"monitorenter", .fixed 0⟩, ⟨"monitorexit", .fixed 0⟩,
  ⟨"wide", .wide⟩, ⟨"multianewarray", .fixed 3⟩, ⟨"ifnull", .fixed 2⟩, ⟨"ifnonnull", .fixed 2⟩,
  ⟨"goto_w", .fixed 4⟩, ⟨"jsr_w", .fixed 4⟩]

def ofByte? (byte : UInt8) : Option Opcode := table[byte.toNat]?

def ldc : UInt8 := 0x12
def iinc : UInt8 := 0x84
def tableSwitch : UInt8 := 0xaa
def lookupSwitch : UInt8 := 0xab
def wide : UInt8 := 0xc4

/-- The opcodes that may follow `wide`: loads and stores of a local variable, `ret` and `iinc`. -/
def widenable : List UInt8 := [
  0x15, 0x16, 0x17, 0x18, 0x19, 0x36, 0x37, 0x38, 0x39, 0x3a, 0xa9, iinc]

def isWidenable (byte : UInt8) : Bool := widenable.contains byte

/-- The bytes that follow `wide` and the widened opcode; `iinc` has a second operand. -/
def widenedWidth (byte : UInt8) : Nat := if byte = iinc then 4 else 2

/-- The opcodes whose operands begin with a two-byte pool index: `ldc_w` and `ldc2_w`,
field access, calls, and all that name a class except `newarray`. -/
def pooled : List UInt8 := [
  0x13, 0x14, 0xb2, 0xb3, 0xb4, 0xb5, 0xb6, 0xb7, 0xb8, 0xb9, 0xba, 0xbb, 0xbd, 0xc0, 0xc1,
  0xc5]

end Opcode
end ClassFormat
