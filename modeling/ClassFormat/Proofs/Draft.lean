import ClassFormat.Annotation.Basic
import ClassFormat.Attribute.Kind
import ClassFormat.Flags
import ClassFormat.Frame.Basic
import ClassFormat.Proofs.CodeGrammar
import ClassFormat.Proofs.ModifiedText

/-! Descriptions of class files. A description says what a class consists of and leaves open
where it stands in a file: it has no offsets, no counts and no lengths, and what a byte of its
own kind would say is said by its form. How deep it nests is limited by its type. -/
namespace ClassFormat.Draft

/-- A list whose length fits its count. -/
structure Listed (κ : Type) [Word κ] (α : Type) where
  items : List α
  short : items.length < Nat.pow 256 (Word.width κ)

/-- A byte that selects one of several kinds. -/
structure Selector {κ : Type} (ofByte? : UInt8 → Option κ) (kind : κ) where
  byte : UInt8
  selects : ofByte? byte = some kind

section Pool

/-- Text whose length in modified UTF-8 fits two bytes. -/
structure Text where
  chars : List Char
  short : (Text.Modified.encode chars).length < 0x10000

inductive Constant where
  | utf8 (text : Text)
  | integer (value : Int32)
  | float (value : Binary32)
  | long (value : Int64)
  | double (value : Binary64)
  | classRef (name : UInt16)
  | string (text : UInt16)
  | fieldRef (owner nameAndType : UInt16)
  | methodRef (owner nameAndType : UInt16)
  | interfaceMethodRef (owner nameAndType : UInt16)
  | nameAndType (name descriptor : UInt16)
  | methodHandle (kind : ReferenceKind) (target : UInt16)
  | methodType (descriptor : UInt16)
  | dynamic (bootstrap nameAndType : UInt16)
  | invokeDynamic (bootstrap nameAndType : UInt16)
  | moduleRef (name : UInt16)
  | packageRef (name : UInt16)

def Constant.tag : Constant → Tag
  | utf8 .. => .utf8
  | integer .. => .integer
  | float .. => .float
  | long .. => .long
  | double .. => .double
  | classRef .. => .classRef
  | string .. => .string
  | fieldRef .. => .fieldRef
  | methodRef .. => .methodRef
  | interfaceMethodRef .. => .interfaceMethodRef
  | nameAndType .. => .nameAndType
  | methodHandle .. => .methodHandle
  | methodType .. => .methodType
  | dynamic .. => .dynamic
  | invokeDynamic .. => .invokeDynamic
  | moduleRef .. => .moduleRef
  | packageRef .. => .packageRef

/-- How many slots the constants of a pool occupy. -/
def slots : List Constant → Nat
  | [] => 0
  | constant :: rest => constant.tag.slots + slots rest

end Pool

section Annotations

/-- A value whose parts, if it has any, are annotations and values of given types. -/
inductive ElementOf (α ε : Type) where
  | constant (kind : Tag) (tag : Selector ElementKind.ofByte? (.constant kind)) (index : UInt16)
  | enumeration (type name : UInt16)
  | classText (descriptor : UInt16)
  | annotated (content : α)
  | array (values : Listed UInt16 ε)

structure AnnotationOf (ε : Type) where
  type : UInt16
  pairs : Listed UInt16 (UInt16 × ε)

/-- A value with at most so many levels of others in it. -/
def Element : Nat → Type
  | 0 => ElementOf Empty Empty
  | levels + 1 => ElementOf (AnnotationOf (Element levels)) (Element levels)

structure LocalRange where
  start : UInt16
  length : UInt16
  index : UInt16

inductive TypeTarget where
  | typeParameter (type : Selector TargetKind.ofByte? .typeParameter) (index : UInt8)
  | superType (index : UInt16)
  | typeParameterBound (type : Selector TargetKind.ofByte? .typeParameterBound) (parameter bound : UInt8)
  | empty (type : Selector TargetKind.ofByte? .empty)
  | formalParameter (index : UInt8)
  | throws (index : UInt16)
  | localVariable (type : Selector TargetKind.ofByte? .localVariable) (ranges : Listed UInt16 LocalRange)
  | catchType (index : UInt16)
  | instruction (type : Selector TargetKind.ofByte? .instruction) (pc : UInt16)
  | typeArgument (type : Selector TargetKind.ofByte? .typeArgument) (pc : UInt16) (argument : UInt8)

structure PathStep where
  kind : PathKind
  argument : UInt8

structure TypeAnnotationOf (ε : Type) where
  target : TypeTarget
  path : Listed UInt8 PathStep
  content : AnnotationOf ε

end Annotations

section Frames

inductive VerificationType where
  | bare (kind : VerificationKind) (alone : kind.hasReference = false)
  | object (type : UInt16)
  | uninitialized (pc : UInt16)

inductive Frame where
  | same (type : Selector FrameKind.ofByte? .same)
  | oneItem (type : Selector FrameKind.ofByte? .oneItem) (stack : VerificationType)
  | oneItemExtended (delta : UInt16) (stack : VerificationType)
  | chop (type : Selector FrameKind.ofByte? .chop) (delta : UInt16)
  | sameExtended (delta : UInt16)
  | append (locals : List VerificationType) (type : Selector FrameKind.ofByte? (.append locals.length))
      (delta : UInt16)
  | full (delta : UInt16) (locals stack : Listed UInt16 VerificationType)

end Frames

section Attributes

structure Handler where
  startPc : UInt16
  endPc : UInt16
  handlerPc : UInt16
  catchType : UInt16

structure InnerClass where
  inner : UInt16
  outer : UInt16
  name : UInt16
  flags : Flags .ofInnerClass

structure LineNumber where
  startPc : UInt16
  line : UInt16

structure LocalVariable where
  startPc : UInt16
  length : UInt16
  name : UInt16
  descriptor : UInt16
  index : UInt16

structure BootstrapMethod where
  handle : UInt16
  arguments : Listed UInt16 UInt16

structure Parameter where
  name : UInt16
  flags : Flags .ofParameter

structure Requirement where
  moduleName : UInt16
  flags : Flags .ofRequires
  version : UInt16

structure PackageDirective where
  package : UInt16
  flags : Flags .ofExports
  modules : Listed UInt16 UInt16

structure Provision where
  service : UInt16
  implementations : Listed UInt16 UInt16

structure ModuleInfo where
  name : UInt16
  flags : Flags .ofModule
  version : UInt16
  requires : Listed UInt16 Requirement
  exports : Listed UInt16 PackageDirective
  opens : Listed UInt16 PackageDirective
  uses : Listed UInt16 UInt16
  provides : Listed UInt16 Provision

/-- Whether instructions fit one behind the other, the first of them at `pc`. -/
def FitFrom : Nat → List Instruction.Form → Prop
  | _, [] => True
  | pc, form :: rest => form.Fits pc ∧ FitFrom (pc + 1 + form.operands.length) rest

/-- Code whose attribute table is of a given type. -/
structure CodeOf (τ : Type) where
  maxStack : UInt16
  maxLocals : UInt16
  instructions : List Instruction.Form
  fit : FitFrom 0 instructions
  handlers : Listed UInt16 Handler
  attributes : τ

structure ComponentOf (τ : Type) where
  name : UInt16
  descriptor : UInt16
  attributes : τ

inductive PayloadOf (ε τ : Type) where
  | constantValue (index : UInt16)
  | code (code : CodeOf τ)
  | stackMapTable (frames : Listed UInt16 Frame)
  | exceptions (classes : Listed UInt16 UInt16)
  | innerClasses (classes : Listed UInt16 InnerClass)
  | enclosingMethod (owner nameAndType : UInt16)
  | synthetic
  | signature (index : UInt16)
  | sourceFile (index : UInt16)
  | sourceDebugExtension (chars : List Char)
  | lineNumberTable (lines : Listed UInt16 LineNumber)
  | localVariableTable (locals : Listed UInt16 LocalVariable)
  | localVariableTypeTable (locals : Listed UInt16 LocalVariable)
  | deprecated
  | annotations (visibility : Visibility) (annotations : Listed UInt16 (AnnotationOf ε))
  | parameterAnnotations (visibility : Visibility)
      (parameters : Listed UInt8 (Listed UInt16 (AnnotationOf ε)))
  | typeAnnotations (visibility : Visibility) (annotations : Listed UInt16 (TypeAnnotationOf ε))
  | annotationDefault (value : ε)
  | bootstrapMethods (methods : Listed UInt16 BootstrapMethod)
  | methodParameters (parameters : Listed UInt8 Parameter)
  | moduleInfo (info : ModuleInfo)
  | modulePackages (packages : Listed UInt16 UInt16)
  | moduleMainClass (index : UInt16)
  | nestHost (index : UInt16)
  | nestMembers (classes : Listed UInt16 UInt16)
  | recordInfo (components : Listed UInt16 (ComponentOf τ))
  | permittedSubclasses (classes : Listed UInt16 UInt16)

def PayloadOf.kind {ε τ : Type} : PayloadOf ε τ → AttributeKind
  | constantValue _ => .constantValue
  | code _ => .code
  | stackMapTable _ => .stackMapTable
  | exceptions _ => .exceptions
  | innerClasses _ => .innerClasses
  | enclosingMethod .. => .enclosingMethod
  | synthetic => .synthetic
  | signature _ => .signature
  | sourceFile _ => .sourceFile
  | sourceDebugExtension _ => .sourceDebugExtension
  | lineNumberTable _ => .lineNumberTable
  | localVariableTable _ => .localVariableTable
  | localVariableTypeTable _ => .localVariableTypeTable
  | deprecated => .deprecated
  | annotations visibility _ => .annotations visibility
  | parameterAnnotations visibility _ => .parameterAnnotations visibility
  | typeAnnotations visibility _ => .typeAnnotations visibility
  | annotationDefault _ => .annotationDefault
  | bootstrapMethods _ => .bootstrapMethods
  | methodParameters _ => .methodParameters
  | moduleInfo _ => .moduleInfo
  | modulePackages _ => .modulePackages
  | moduleMainClass _ => .moduleMainClass
  | nestHost _ => .nestHost
  | nestMembers _ => .nestMembers
  | recordInfo _ => .recordInfo
  | permittedSubclasses _ => .permittedSubclasses

/-- What an attribute says: a payload under the name of its kind, or any bytes under a name
that means nothing. -/
inductive ContentOf (ε τ : Type) where
  | known (payload : PayloadOf ε τ)
  | unknown (name : String) (meaningless : ∀ kind : AttributeKind, kind.name ≠ name) (bytes : Bytes)

def ContentOf.name {ε τ : Type} : ContentOf ε τ → String
  | known payload => payload.kind.name
  | unknown name _ _ => name

structure AttributeOf (ε τ : Type) where
  nameIndex : UInt16
  content : ContentOf ε τ

def AttributeOf.name {ε τ : Type} (self : AttributeOf ε τ) : String := self.content.name

/-- Attributes of which no two have the same name. -/
structure TableOf (ε τ : Type) where
  attributes : Listed UInt16 (AttributeOf ε τ)
  distinct : (attributes.items.map AttributeOf.name).Nodup

/-- A table with at most so many levels of others in it. -/
def Table : Nat → Type
  | 0 => TableOf (Element 0) Empty
  | levels + 1 => TableOf (Element (levels + 1)) (Table levels)

end Attributes

structure Member (limit : Nat) (set : FlagSet) where
  flags : Flags set
  name : UInt16
  descriptor : UInt16
  attributes : Table limit

structure Body (limit : Nat) where
  flags : Flags .ofClass
  thisClass : UInt16
  superClass : UInt16
  interfaces : Listed UInt16 UInt16
  fields : Listed UInt16 (Member limit .ofField)
  methods : Listed UInt16 (Member limit .ofMethod)
  attributes : Table limit

/-- The description of a class of at most `limit` levels of nesting. -/
structure ClassFile (limit : Nat) where
  minor : UInt16
  major : UInt16
  constants : List Constant
  room : slots constants ≤ 65534
  body : Body limit

end ClassFormat.Draft
