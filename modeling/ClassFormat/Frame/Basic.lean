import ClassFormat.Scalar

/-! Stack map frames: which types the local variables and the operand stack hold at a
place in the code, each frame saying how it differs from the one before it. -/
namespace ClassFormat

inductive VerificationKind where
  | top
  | integer
  | float
  | double
  | long
  | null
  | uninitializedThis
  /-- An instance of a class in the pool. -/
  | object
  /-- An object whose constructor has not run; it refers to the `new` that made it. -/
  | uninitialized
  deriving DecidableEq, Repr

namespace VerificationKind

def all : List VerificationKind :=
  [top, integer, float, double, long, null, uninitializedThis, object, uninitialized]

/-- Kinds are numbered from 0 in the order of `all`. -/
def ofByte? (number : UInt8) : Option VerificationKind := all[number.toNat]?

def name : VerificationKind → String
  | top => "Top"
  | integer => "Integer"
  | float => "Float"
  | double => "Double"
  | long => "Long"
  | null => "Null"
  | uninitializedThis => "UninitializedThis"
  | object => "Object"
  | uninitialized => "Uninitialized"

def hasReference : VerificationKind → Bool
  | object | uninitialized => true
  | _ => false

end VerificationKind

structure VerificationType where
  tag : U1
  kind : VerificationKind
  reference : Option U2
  deriving DecidableEq, Repr

/-- What a frame type says about the shape of a frame. -/
inductive FrameKind where
  | same
  | oneItem
  | oneItemExtended
  | chop
  | sameExtended
  | append (locals : Nat)
  | full
  deriving DecidableEq, Repr

namespace FrameKind

/-- The types from 128 to 246 are reserved. -/
def ofByte? (type : UInt8) : Option FrameKind :=
  if type < 64 then some same
  else if type < 128 then some oneItem
  else if type < 247 then none
  else if type = 247 then some oneItemExtended
  else if type < 251 then some chop
  else if type = 251 then some sameExtended
  else if type < 255 then some (append (type.toNat - 251))
  else some full

end FrameKind

/-- What follows the type of a frame. -/
inductive FrameBody where
  | same
  | oneItem (stack : VerificationType)
  | oneItemExtended (delta : U2) (stack : VerificationType)
  | chop (delta : U2)
  | sameExtended (delta : U2)
  | append (delta : U2) (locals : List VerificationType)
  | full (delta : U2) (locals stack : Counted UInt16 VerificationType)
  deriving Repr

structure Frame where
  type : U1
  body : FrameBody
  deriving Repr

namespace Frame

/-- The two shortest shapes have the distance from the previous frame in their type. -/
def delta (frame : Frame) : Nat :=
  match frame.body with
  | .same => frame.type.toNat
  | .oneItem _ => frame.type.toNat - 64
  | .oneItemExtended delta _ | .chop delta | .sameExtended delta | .append delta _
  | .full delta _ _ => delta.toNat

def name (frame : Frame) : String :=
  match frame.body with
  | .same => "same"
  | .oneItem _ => "same_locals_1_stack_item"
  | .oneItemExtended .. => "same_locals_1_stack_item_frame_extended"
  | .chop _ => "chop"
  | .sameExtended _ => "same_frame_extended"
  | .append .. => "append"
  | .full .. => "full_frame"

end Frame
end ClassFormat
