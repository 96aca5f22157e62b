import ClassFormat.Annotation.Basic
import ClassFormat.Attribute.Kind
import ClassFormat.Code.Instruction
import ClassFormat.Flags
import ClassFormat.Frame.Basic

/-! Attributes, the tables that hold them, and what each kind of attribute says. Code and
record components have attribute tables of their own. -/
namespace ClassFormat

/-- A `catchType` of 0 catches everything. -/
structure Handler where
  startPc : U2
  endPc : U2
  handlerPc : U2
  catchType : U2
  deriving DecidableEq, Repr

structure InnerClass where
  inner : U2
  outer : U2
  name : U2
  flags : Scalar (Flags .ofInnerClass)
  deriving DecidableEq

structure LineNumber where
  startPc : U2
  line : U2
  deriving DecidableEq, Repr

/-- For a variable type table, `descriptor` is a generic signature. -/
structure LocalVariable where
  startPc : U2
  length : U2
  name : U2
  descriptor : U2
  index : U2
  deriving DecidableEq, Repr

structure BootstrapMethod where
  handle : U2
  arguments : Counted UInt16 U2
  deriving Repr

/-- A `name` of 0 stands for a parameter without one. -/
structure Parameter where
  name : U2
  flags : Scalar (Flags .ofParameter)
  deriving DecidableEq

structure Requirement where
  moduleName : U2
  flags : Scalar (Flags .ofRequires)
  version : U2
  deriving DecidableEq

/-- A package that is exported or opened, to all modules if none is named. -/
structure PackageDirective where
  package : U2
  flags : Scalar (Flags .ofExports)
  modules : Counted UInt16 U2

structure Provision where
  service : U2
  implementations : Counted UInt16 U2
  deriving Repr

structure ModuleInfo where
  name : U2
  flags : Scalar (Flags .ofModule)
  version : U2
  requires : Counted UInt16 Requirement
  exports : Counted UInt16 PackageDirective
  opens : Counted UInt16 PackageDirective
  uses : Counted UInt16 U2
  provides : Counted UInt16 Provision

mutual

/-- What follows the length of an attribute. -/
inductive Payload where
  | constantValue (index : U2)
  | code (code : Code)
  | stackMapTable (frames : Counted UInt16 Frame)
  | exceptions (classes : Counted UInt16 U2)
  | innerClasses (classes : Counted UInt16 InnerClass)
  | enclosingMethod (owner nameAndType : U2)
  | synthetic
  | signature (index : U2)
  | sourceFile (index : U2)
  | sourceDebugExtension (text : String)
  | lineNumberTable (lines : Counted UInt16 LineNumber)
  | localVariableTable (locals : Counted UInt16 LocalVariable)
  | localVariableTypeTable (locals : Counted UInt16 LocalVariable)
  | deprecated
  | annotations (visibility : Visibility) (annotations : Counted UInt16 Annotation)
  | parameterAnnotations (visibility : Visibility)
      (parameters : Counted UInt8 (Counted UInt16 Annotation))
  | typeAnnotations (visibility : Visibility) (annotations : Counted UInt16 TypeAnnotation)
  | annotationDefault (value : Element)
  | bootstrapMethods (methods : Counted UInt16 BootstrapMethod)
  | methodParameters (parameters : Counted UInt8 Parameter)
  | moduleInfo (info : ModuleInfo)
  | modulePackages (packages : Counted UInt16 U2)
  | moduleMainClass (index : U2)
  | nestHost (index : U2)
  | nestMembers (classes : Counted UInt16 U2)
  | recordInfo (components : Counted UInt16 Component)
  | permittedSubclasses (classes : Counted UInt16 U2)
  /-- The bytes of an attribute without a meaning were passed over. -/
  | unknown

structure Attribute where
  nameIndex : U2
  name : String
  length : U4
  payload : Payload

/-- The attributes in the order in which their names first appeared, one of each name;
`count` is how many were written. -/
structure Table where
  count : U2
  entries : List Attribute

structure Code where
  maxStack : U2
  maxLocals : U2
  length : U4
  instructions : Array Instruction
  handlers : Counted UInt16 Handler
  attributes : Table

/-- A component of a record class. -/
structure Component where
  name : U2
  descriptor : U2
  attributes : Table

end

/-- The kind of attribute that a payload belongs to. -/
def Payload.kind? : Payload → Option AttributeKind
  | constantValue _ => some .constantValue
  | code _ => some .code
  | stackMapTable _ => some .stackMapTable
  | exceptions _ => some .exceptions
  | innerClasses _ => some .innerClasses
  | enclosingMethod .. => some .enclosingMethod
  | synthetic => some .synthetic
  | signature _ => some .signature
  | sourceFile _ => some .sourceFile
  | sourceDebugExtension _ => some .sourceDebugExtension
  | lineNumberTable _ => some .lineNumberTable
  | localVariableTable _ => some .localVariableTable
  | localVariableTypeTable _ => some .localVariableTypeTable
  | deprecated => some .deprecated
  | annotations visibility _ => some (.annotations visibility)
  | parameterAnnotations visibility _ => some (.parameterAnnotations visibility)
  | typeAnnotations visibility _ => some (.typeAnnotations visibility)
  | annotationDefault _ => some .annotationDefault
  | bootstrapMethods _ => some .bootstrapMethods
  | methodParameters _ => some .methodParameters
  | moduleInfo _ => some .moduleInfo
  | modulePackages _ => some .modulePackages
  | moduleMainClass _ => some .moduleMainClass
  | nestHost _ => some .nestHost
  | nestMembers _ => some .nestMembers
  | recordInfo _ => some .recordInfo
  | permittedSubclasses _ => some .permittedSubclasses
  | unknown => none

/-- The offset of the first byte after the attribute. -/
def Attribute.stop (self : Attribute) : Nat := self.length.stop + self.length.toNat

namespace Table

/-- A later attribute takes the place of the earlier one of its name. -/
def insert (later : Attribute) : List Attribute → List Attribute
  | [] => [later]
  | earlier :: rest =>
    if earlier.name = later.name then later :: rest else earlier :: insert later rest

def get? (table : Table) (name : String) : Option Attribute :=
  table.entries.find? (·.name = name)

def size (table : Table) : Nat := table.entries.length

/-- The offset of the first byte after the table. -/
def stop (table : Table) : Nat :=
  (table.entries.map Attribute.stop).max?.getD table.count.stop

def code? (table : Table) : Option Code :=
  match (table.get? "Code").map Attribute.payload with
  | some (.code code) => some code
  | _ => none

/-- A code array is smaller than the table that holds it. -/
theorem sizeOf_code?_lt {table : Table} {code : Code} (found : table.code? = some code) :
    sizeOf code.attributes < sizeOf table := by
  unfold code? get? at found
  split at found
  next body h =>
    obtain ⟨holder, holds, payload⟩ := Option.map_eq_some_iff.1 h
    have smaller := List.sizeOf_lt_of_mem (List.mem_of_find?_eq_some holds)
    cases table with | mk count entries =>
    cases holder with | mk nameIndex name length held =>
    cases code with | mk maxStack maxLocals length instructions handlers attributes =>
    cases found
    subst payload
    simp at smaller ⊢
    omega
  next => contradiction

/-- How many code arrays lie one inside the other. -/
def codeDepth (table : Table) : Nat :=
  match found : table.code? with
  | some code => codeDepth code.attributes + 1
  | none => 0
termination_by sizeOf table
decreasing_by exact sizeOf_code?_lt found

def stackMap? (table : Table) : Option (Counted UInt16 Frame) :=
  match (table.get? "StackMapTable").map Attribute.payload with
  | some (.stackMapTable frames) => some frames
  | _ => none

/-- The index of the name of the source file. -/
def sourceFile? (table : Table) : Option U2 :=
  match (table.get? "SourceFile").map Attribute.payload with
  | some (.sourceFile index) => some index
  | _ => none

end Table

namespace Code

/-- Looks for `pc` between two places of an array of instructions ordered by `pc`. -/
def search (instructions : Array Instruction) (pc low high : Nat) : Option Instruction :=
  if low < high then
    let middle := low + (high - low) / 2
    match instructions[middle]? with
    | none => none
    | some instruction =>
      if instruction.pc = pc then some instruction
      else if instruction.pc < pc then search instructions pc (middle + 1) high
      else search instructions pc low middle
  else none
termination_by high - low

/-- The instruction that starts at `pc`. -/
def instructionAt? (code : Code) (pc : Nat) : Option Instruction :=
  search code.instructions pc 0 code.instructions.size

end Code
end ClassFormat
