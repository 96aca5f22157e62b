import ClassFormat.Scalar
import ClassFormat.Pool.Tag

/-! What a constant pool entry holds. Entries refer to each other by index; that the
indices lead to entries of the right kinds is the subject of `Pool.validate`. -/
namespace ClassFormat

inductive Constant where
  | utf8 (length : U2) (text : String)
  | integer (value : Scalar Int32)
  | float (value : Scalar Binary32)
  | long (value : Scalar Int64)
  | double (value : Scalar Binary64)
  | classRef (name : U2)
  | string (text : U2)
  | fieldRef (owner nameAndType : U2)
  | methodRef (owner nameAndType : U2)
  | interfaceMethodRef (owner nameAndType : U2)
  | nameAndType (name descriptor : U2)
  | methodHandle (kind : U1) (target : U2)
  | methodType (descriptor : U2)
  | dynamic (bootstrap nameAndType : U2)
  | invokeDynamic (bootstrap nameAndType : U2)
  | moduleRef (name : U2)
  | packageRef (name : U2)
  deriving DecidableEq, Repr

namespace Constant

def tag : Constant → Tag
  | utf8 .. => .utf8
  | integer .. => .integer
  | float .. => .float
  | long .. => .long
  | double .. => .double
  | classRef .. => .classRef
  | string .. => .string
  | fieldRef .. => .fieldRef
  | methodRef .. => .methodRef
  | interfaceMethodRef .. => .interfaceMethodRef
  | nameAndType .. => .nameAndType
  | methodHandle .. => .methodHandle
  | methodType .. => .methodType
  | dynamic .. => .dynamic
  | invokeDynamic .. => .invokeDynamic
  | moduleRef .. => .moduleRef
  | packageRef .. => .packageRef

/-- How many bytes follow the tag. -/
def width : Constant → Nat
  | utf8 length _ => 2 + length.toNat
  | classRef .. | string .. | methodType .. | moduleRef .. | packageRef .. => 2
  | methodHandle .. => 3
  | integer .. | float .. | fieldRef .. | methodRef .. | interfaceMethodRef ..
  | nameAndType .. | dynamic .. | invokeDynamic .. => 4
  | long .. | double .. => 8

end Constant

/-- An entry knows the slot it stands in. -/
structure Entry where
  index : Nat
  tag : U1
  constant : Constant
  deriving DecidableEq, Repr

/-- How many bytes the entry fills, its tag included. -/
def Entry.width (entry : Entry) : Nat := 1 + entry.constant.width

end ClassFormat
