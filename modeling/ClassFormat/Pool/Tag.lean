/-! The kinds of constant pool entry and the kinds of method handle, with the numbers
that stand for them in a file and the names they are reported by. -/
namespace ClassFormat

inductive Tag where
  | utf8
  | integer
  | float
  | long
  | double
  | classRef
  | string
  | fieldRef
  | methodRef
  | interfaceMethodRef
  | nameAndType
  | methodHandle
  | methodType
  | dynamic
  | invokeDynamic
  | moduleRef
  | packageRef
  deriving DecidableEq, Repr

namespace Tag

def all : List Tag := [
  utf8, integer, float, long, double, classRef, string, fieldRef, methodRef,
  interfaceMethodRef, nameAndType, methodHandle, methodType, dynamic, invokeDynamic,
  moduleRef, packageRef]

def byte : Tag → UInt8
  | utf8 => 1
  | integer => 3
  | float => 4
  | long => 5
  | double => 6
  | classRef => 7
  | string => 8
  | fieldRef => 9
  | methodRef => 10
  | interfaceMethodRef => 11
  | nameAndType => 12
  | methodHandle => 15
  | methodType => 16
  | dynamic => 17
  | invokeDynamic => 18
  | moduleRef => 19
  | packageRef => 20

/-- The numbers 2, 13, 14 and those above 20 stand for nothing. -/
def ofByte? (number : UInt8) : Option Tag := all.find? (·.byte = number)

@[simp] theorem mem_all (tag : Tag) : tag ∈ all := by cases tag <;> decide

@[simp] theorem ofByte?_byte (tag : Tag) : ofByte? tag.byte = some tag := by
  cases tag <;> rfl

theorem ofByte?_eq_some_iff {number : UInt8} {tag : Tag} :
    ofByte? number = some tag ↔ tag.byte = number := by
  constructor
  · intro h
    simpa using List.find?_some h
  · rintro rfl
    exact ofByte?_byte tag

def name : Tag → String
  | utf8 => "Utf8"
  | integer => "Integer"
  | float => "Float"
  | long => "Long"
  | double => "Double"
  | classRef => "Class"
  | string => "String"
  | fieldRef => "Fieldref"
  | methodRef => "Methodref"
  | interfaceMethodRef => "InterfaceMethodref"
  | nameAndType => "NameAndType"
  | methodHandle => "MethodHandle"
  | methodType => "MethodType"
  | dynamic => "Dynamic"
  | invokeDynamic => "InvokeDynamic"
  | moduleRef => "Module"
  | packageRef => "Package"

/-- Eight-byte numbers occupy two slots of the pool. -/
def isWide : Tag → Bool
  | long | double => true
  | _ => false

/-- How many slots an entry occupies. -/
def slots (tag : Tag) : Nat := if tag.isWide then 2 else 1

/-- What a reference may lead to, in words. The combinations that the format asks for
are spelt out; any other is summed up. -/
def alternatives : List Tag → String
  | [tag] => tag.name
  | [methodRef, interfaceMethodRef] => "Methodref or InterfaceMethodref"
  | [integer, float, long, double, string] => "Integer, Float, Long, Double or String"
  | _ => "another kind"

end Tag

/-- What a method handle does with the member it refers to. -/
inductive ReferenceKind where
  | getField
  | getStatic
  | putField
  | putStatic
  | invokeVirtual
  | invokeStatic
  | invokeSpecial
  | newInvokeSpecial
  | invokeInterface
  deriving DecidableEq, Repr

namespace ReferenceKind

def all : List ReferenceKind := [
  getField, getStatic, putField, putStatic, invokeVirtual, invokeStatic, invokeSpecial,
  newInvokeSpecial, invokeInterface]

def byte : ReferenceKind → UInt8
  | getField => 1
  | getStatic => 2
  | putField => 3
  | putStatic => 4
  | invokeVirtual => 5
  | invokeStatic => 6
  | invokeSpecial => 7
  | newInvokeSpecial => 8
  | invokeInterface => 9

def ofByte? (number : UInt8) : Option ReferenceKind := all.find? (·.byte = number)

@[simp] theorem ofByte?_byte (kind : ReferenceKind) : ofByte? kind.byte = some kind := by
  cases kind <;> rfl

theorem ofByte?_eq_some_iff {number : UInt8} {kind : ReferenceKind} :
    ofByte? number = some kind ↔ kind.byte = number := by
  constructor
  · intro h
    simpa using List.find?_some h
  · rintro rfl
    exact ofByte?_byte kind

def label : ReferenceKind → String
  | getField => "REF_getField"
  | getStatic => "REF_getStatic"
  | putField => "REF_putField"
  | putStatic => "REF_putStatic"
  | invokeVirtual => "REF_invokeVirtual"
  | invokeStatic => "REF_invokeStatic"
  | invokeSpecial => "REF_invokeSpecial"
  | newInvokeSpecial => "REF_newInvokeSpecial"
  | invokeInterface => "REF_invokeInterface"

/-- Static and special calls may also go to an interface's own methods. -/
def targets : ReferenceKind → List Tag
  | getField | getStatic | putField | putStatic => [.fieldRef]
  | invokeVirtual | newInvokeSpecial => [.methodRef]
  | invokeStatic | invokeSpecial => [.methodRef, .interfaceMethodRef]
  | invokeInterface => [.interfaceMethodRef]

end ReferenceKind
end ClassFormat
