import ClassFormat.Attribute.Basic
import ClassFormat.Pool.Resolve
import ClassFormat.Version

/-! A decoded class file and the questions that can be asked of it. Names are kept as
indices into the constant pool, so every answer in words goes through the pool. -/
namespace ClassFormat

/-- A field or a method. -/
structure Member (set : FlagSet) where
  flags : Scalar (Flags set)
  name : U2
  descriptor : U2
  attributes : Table

/-- What follows the constant pool. -/
structure Body where
  flags : Scalar (Flags .ofClass)
  thisClass : U2
  superClass : U2
  interfaces : Counted UInt16 U2
  fields : Counted UInt16 (Member .ofField)
  methods : Counted UInt16 (Member .ofMethod)
  attributes : Table

structure ClassFile extends Body where
  magic : U4
  minor : U2
  major : U2
  poolCount : U2
  pool : Pool

namespace Member

variable {set : FlagSet}

def nameIn (pool : Pool) (self : Member set) : Except Error String := pool.text self.name.toNat

def descriptorIn (pool : Pool) (self : Member set) : Except Error String :=
  pool.text self.descriptor.toNat

end Member

namespace ClassFile

def version (file : ClassFile) : Version := ⟨file.major.value, file.minor.value⟩

def className (file : ClassFile) : Except Error String :=
  file.pool.className file.thisClass.toNat

/-- The root of all classes has no superclass and is reported as its own. -/
def superName (file : ClassFile) : Except Error String :=
  file.pool.superName file.superClass.toNat

def interfaceNames (file : ClassFile) : Except Error (List String) :=
  file.interfaces.items.mapM fun index => file.pool.className index.toNat

/-- The first method of that name. -/
def findMethod? (file : ClassFile) (name : String) : Option (Member .ofMethod) :=
  file.methods.items.find? fun method => (method.nameIn file.pool).toOption = some name

/-- The name of the source file, if the class says what it is. -/
def sourceFile? (file : ClassFile) : Except Error (Option String) :=
  match file.attributes.sourceFile? with
  | some index => (file.pool.text index.toNat).map some
  | none => .ok none

/-- The offset of the first byte after the class file. -/
def stop (file : ClassFile) : Nat := file.attributes.stop

end ClassFile
end ClassFormat
