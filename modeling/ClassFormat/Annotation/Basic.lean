import ClassFormat.Scalar
import ClassFormat.Pool.Tag

/-! Annotations and the values of their elements, which may be annotations and arrays of
values again, and annotations on the types that a declaration or an expression uses. -/
namespace ClassFormat

/-- What the tag of an element value says about its form. -/
inductive ElementKind where
  | constant (kind : Tag)
  | enumeration
  | classText
  | annotated
  | array
  deriving DecidableEq, Repr

/-- Each tag is a letter or a sign; the narrow integers are kept as `Integer` constants. -/
def ElementKind.ofByte? (tag : UInt8) : Option ElementKind :=
  match Char.ofNat tag.toNat with
  | 'B' | 'C' | 'I' | 'S' | 'Z' => some (constant .integer)
  | 'D' => some (constant .double)
  | 'F' => some (constant .float)
  | 'J' => some (constant .long)
  | 's' => some (constant .utf8)
  | 'e' => some enumeration
  | 'c' => some classText
  | '@' => some annotated
  | '[' => some array
  | _ => none

mutual

inductive ElementValue where
  | constant (index : U2)
  | enumeration (type name : U2)
  | classText (descriptor : U2)
  | annotated (content : Annotation)
  | array (values : Counted UInt16 Element)

structure Element where
  tag : U1
  value : ElementValue

/-- Each pair is the name of an element and its value. -/
structure Annotation where
  type : U2
  pairs : Counted UInt16 (U2 × Element)

end

/-- What the type of a target says about its form. -/
inductive TargetKind where
  | typeParameter
  | superType
  | typeParameterBound
  | empty
  | formalParameter
  | throws
  | localVariable
  | catchType
  | instruction
  | typeArgument
  deriving DecidableEq, Repr

def TargetKind.ofByte? (type : UInt8) : Option TargetKind :=
  if type ≤ 0x01 then some typeParameter
  else if type < 0x10 then none
  else if type = 0x10 then some superType
  else if type ≤ 0x12 then some typeParameterBound
  else if type ≤ 0x15 then some empty
  else if type = 0x16 then some formalParameter
  else if type = 0x17 then some throws
  else if type < 0x40 then none
  else if type ≤ 0x41 then some localVariable
  else if type = 0x42 then some catchType
  else if type ≤ 0x46 then some instruction
  else if type ≤ 0x4b then some typeArgument
  else none

/-- The range of code in which a local variable has a slot. -/
structure LocalRange where
  start : U2
  length : U2
  index : U2
  deriving DecidableEq, Repr

/-- Where in a declaration or an expression the annotated type stands. -/
inductive TypeTarget where
  | typeParameter (index : U1)
  | superType (index : U2)
  | typeParameterBound (parameter bound : U1)
  | empty
  | formalParameter (index : U1)
  | throws (index : U2)
  | localVariable (ranges : Counted UInt16 LocalRange)
  | catchType (index : U2)
  | instruction (pc : U2)
  | typeArgument (pc : U2) (argument : U1)
  deriving Repr

/-- One step from a type to a part of it. -/
inductive PathKind where
  | array
  | nested
  | wildcard
  | typeArgument
  deriving DecidableEq, Repr

namespace PathKind

def all : List PathKind := [array, nested, wildcard, typeArgument]

/-- Kinds are numbered from 0 in the order of `all`. -/
def ofByte? (number : UInt8) : Option PathKind := all[number.toNat]?

def name : PathKind → String
  | array => "Array"
  | nested => "Nested"
  | wildcard => "Wildcard"
  | typeArgument => "TypeArgument"

end PathKind

structure PathStep where
  tag : U1
  kind : PathKind
  argument : U1
  deriving DecidableEq, Repr

structure TypeAnnotation where
  type : U1
  target : TypeTarget
  path : Counted UInt8 PathStep
  annotation : Annotation

end ClassFormat
