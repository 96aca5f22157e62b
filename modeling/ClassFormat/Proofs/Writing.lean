import ClassFormat.ClassFile.Basic
import ClassFormat.Proofs.Draft
import ClassFormat.Proofs.PoolGrammar
import ClassFormat.Proofs.Spelling

/-! Writing a class file from its description. Offsets, counts and lengths are filled in on the
way, so writing gives the decoded value along with its bytes, and with them what the value
demands of the pool that it is read with. -/
namespace ClassFormat

/-- What must hold for something written to be read again. -/
inductive Demand where
  | index (index : Nat) (target : Target)
  | name (index : Nat) (text : String)
  /-- A length that must fit in four bytes. -/
  | length (bytes : Nat)

def Demand.Met (pool : Pool) : Demand → Prop
  | index place target => target.Met pool place
  | name place text => pool.text place = .ok text
  | length bytes => bytes < Nat.pow 256 4

@[reducible] def decidableEqOk [DecidableEq α] (value : α) :
    DecidablePred fun outcome : Except ε α => outcome = .ok value
  | .ok found => decidable_of_iff (found = value) ⟨congrArg _, Except.ok.inj⟩
  | .error _ => .isFalse nofun

instance Demand.decidableMet (pool : Pool) : DecidablePred (Demand.Met pool)
  | .index place target =>
    @decidable_of_iff _ _ Target.check_eq_ok (decidableEqOk () (target.check pool place))
  | .name place text => decidableEqOk text (pool.text place)
  | .length _ => inferInstanceAs (Decidable (_ < _))

structure Written (α : Type) where
  value : α
  bytes : Bytes
  demands : List Demand

/-- Writes from a given offset on. -/
def Put (α : Type) : Type := Nat → Written α

namespace Put

instance : Monad Put where
  pure value _ := ⟨value, [], []⟩
  bind first next offset :=
    let head := first offset
    let tail := next head.value (offset + head.bytes.length)
    ⟨tail.value, head.bytes ++ tail.bytes, head.demands ++ tail.demands⟩

def word [Word κ] (value : κ) : Put (Scalar κ) := fun offset => ⟨⟨value, offset⟩, Word.toBytes value, []⟩

def flagWord {set : FlagSet} (flags : Flags set) : Put (Scalar (Flags set)) := fun offset =>
  ⟨⟨flags, offset⟩, Word.toBytes flags.bits, []⟩

/-- An index that must lead to the target. -/
def index (target : Target) (value : UInt16) : Put U2 := fun offset =>
  ⟨⟨value, offset⟩, Word.toBytes value, [.index value.toNat target]⟩

def reference (kind : Tag) (value : UInt16) : Put U2 := index (.oneOf [kind]) value

def optional (kind : Tag) (value : UInt16) : Put U2 := index (.noneOr kind) value

/-- The index of the name of an attribute. -/
def attributeName (value : UInt16) (text : String) : Put U2 := fun offset =>
  ⟨⟨value, offset⟩, Word.toBytes value, [.name value.toNat text]⟩

def all (item : δ → Put α) : List δ → Put (List α)
  | [] => pure []
  | first :: rest => do
    let value ← item first
    let others ← all item rest
    return value :: others

def list [Word κ] (item : δ → Put α) (list : Draft.Listed κ δ) : Put (Counted κ α) := do
  let count ← word (Word.ofNat list.items.length : κ)
  let items ← all item list.items
  return ⟨count, items⟩

def text (chars : List Char) : Put String := fun _ => ⟨.ofList chars, Text.Modified.encode chars, []⟩

/-- Puts the number of its bytes in front of what is written. -/
def measured (content : Put α) : Put (U4 × α) := fun offset =>
  let inner := content (offset + 4)
  let length : UInt32 := .ofNat inner.bytes.length
  ⟨(⟨length, offset⟩, inner.value), Word.toBytes length ++ inner.bytes,
    .length inner.bytes.length :: inner.demands⟩

end Put

namespace Draft

open Put

section Pool

def Constant.put : Constant → Put ClassFormat.Constant
  | utf8 text => do
    let length ← word (UInt16.ofNat (ClassFormat.Text.Modified.encode text.chars).length)
    return .utf8 length (← Put.text text.chars)
  | integer value => return .integer (← word value)
  | float value => return .float (← word value)
  | long value => return .long (← word value)
  | double value => return .double (← word value)
  | classRef name => return .classRef (← reference .utf8 name)
  | string text => return .string (← reference .utf8 text)
  | fieldRef owner member =>
    return .fieldRef (← reference .classRef owner) (← reference .nameAndType member)
  | methodRef owner member =>
    return .methodRef (← reference .classRef owner) (← reference .nameAndType member)
  | interfaceMethodRef owner member =>
    return .interfaceMethodRef (← reference .classRef owner) (← reference .nameAndType member)
  | nameAndType name descriptor =>
    return .nameAndType (← reference .utf8 name) (← reference .utf8 descriptor)
  | methodHandle kind target =>
    return .methodHandle (← word kind.byte) (← index (.oneOf kind.targets) target)
  | methodType descriptor => return .methodType (← reference .utf8 descriptor)
  | dynamic bootstrap member =>
    return .dynamic (← word bootstrap) (← reference .nameAndType member)
  | invokeDynamic bootstrap member =>
    return .invokeDynamic (← word bootstrap) (← reference .nameAndType member)
  | moduleRef name => return .moduleRef (← reference .utf8 name)
  | packageRef name => return .packageRef (← reference .utf8 name)

/-- The entry of a constant, which is to stand in the slot `index`. -/
def Constant.entry (index : Nat) (constant : Constant) : Put Entry := do
  let tag ← word constant.tag.byte
  let constant ← constant.put
  return ⟨index, tag, constant⟩

/-- The entries of constants, the first of which is to stand in the slot `index`. -/
def entries : Nat → List Constant → Put (List Entry)
  | _, [] => pure []
  | index, constant :: rest => do
    let entry ← constant.entry index
    let others ← entries (index + constant.tag.slots) rest
    return entry :: others

def pool (constants : List Constant) : Put Pool := do
  let entries ← entries 1 constants
  return ⟨(Pool.slotsOf entries).toArray⟩

end Pool

section Annotations

def AnnotationOf.put (element : ε → Put ClassFormat.Element) (self : AnnotationOf ε) :
    Put Annotation := do
  let type ← reference .utf8 self.type
  let pairs ← list (fun pair => do
    let name ← reference .utf8 pair.1
    let value ← element pair.2
    return (name, value)) self.pairs
  return ⟨type, pairs⟩

def ElementOf.put (nested : α → Put Annotation) (element : ε → Put ClassFormat.Element) :
    ElementOf α ε → Put ClassFormat.Element
  | constant kind tag index => do
    let tag ← word tag.byte
    let index ← reference kind index
    return ⟨tag, .constant index⟩
  | enumeration type name => do
    let tag ← word (0x65 : UInt8)
    let type ← reference .utf8 type
    let name ← reference .utf8 name
    return ⟨tag, .enumeration type name⟩
  | classText descriptor => do
    let tag ← word (0x63 : UInt8)
    let descriptor ← reference .utf8 descriptor
    return ⟨tag, .classText descriptor⟩
  | annotated content => do
    let tag ← word (0x40 : UInt8)
    let content ← nested content
    return ⟨tag, .annotated content⟩
  | array values => do
    let tag ← word (0x5b : UInt8)
    let values ← list element values
    return ⟨tag, .array values⟩

def Element.put : (levels : Nat) → Element levels → Put ClassFormat.Element
  | 0 => ElementOf.put nofun nofun
  | levels + 1 => ElementOf.put (AnnotationOf.put (put levels)) (put levels)

def LocalRange.put (range : LocalRange) : Put ClassFormat.LocalRange := do
  return ⟨← word range.start, ← word range.length, ← word range.index⟩

/-- The type of a target and the target itself. -/
def TypeTarget.put : TypeTarget → Put (U1 × ClassFormat.TypeTarget)
  | typeParameter type index => return (← word type.byte, .typeParameter (← word index))
  | superType index => return (← word (0x10 : UInt8), .superType (← word index))
  | typeParameterBound type parameter bound =>
    return (← word type.byte, .typeParameterBound (← word parameter) (← word bound))
  | empty type => return (← word type.byte, .empty)
  | formalParameter index => return (← word (0x16 : UInt8), .formalParameter (← word index))
  | throws index => return (← word (0x17 : UInt8), .throws (← word index))
  | localVariable type ranges =>
    return (← word type.byte, .localVariable (← list LocalRange.put ranges))
  | catchType index => return (← word (0x42 : UInt8), .catchType (← word index))
  | instruction type pc => return (← word type.byte, .instruction (← word pc))
  | typeArgument type pc argument =>
    return (← word type.byte, .typeArgument (← word pc) (← word argument))

def PathStep.put (step : PathStep) : Put ClassFormat.PathStep := do
  let tag ← word (UInt8.ofNat step.kind.number)
  let argument ← word step.argument
  return ⟨tag, step.kind, argument⟩

def TypeAnnotationOf.put (element : ε → Put ClassFormat.Element) (self : TypeAnnotationOf ε) :
    Put TypeAnnotation := do
  let (type, target) ← self.target.put
  let path ← list PathStep.put self.path
  let content ← self.content.put element
  return ⟨type, target, path, content⟩

end Annotations

section Frames

def VerificationType.put : VerificationType → Put ClassFormat.VerificationType
  | bare kind _ => return ⟨← word (UInt8.ofNat kind.number), kind, none⟩
  | object type => return ⟨← word (7 : UInt8), .object, some (← reference .classRef type)⟩
  | uninitialized pc => return ⟨← word (8 : UInt8), .uninitialized, some (← word pc)⟩

def Frame.put : Frame → Put ClassFormat.Frame
  | same type => return ⟨← word type.byte, .same⟩
  | oneItem type stack => return ⟨← word type.byte, .oneItem (← stack.put)⟩
  | oneItemExtended delta stack =>
    return ⟨← word (247 : UInt8), .oneItemExtended (← word delta) (← stack.put)⟩
  | chop type delta => return ⟨← word type.byte, .chop (← word delta)⟩
  | sameExtended delta => return ⟨← word (251 : UInt8), .sameExtended (← word delta)⟩
  | append locals type delta =>
    return ⟨← word type.byte, .append (← word delta) (← all VerificationType.put locals)⟩
  | full delta locals stack =>
    return ⟨← word (255 : UInt8), .full (← word delta) (← list VerificationType.put locals)
      (← list VerificationType.put stack)⟩

end Frames

section Attributes

def Handler.put (handler : Handler) : Put ClassFormat.Handler := do
  return ⟨← word handler.startPc, ← word handler.endPc, ← word handler.handlerPc,
    ← optional .classRef handler.catchType⟩

def InnerClass.put (info : InnerClass) : Put ClassFormat.InnerClass := do
  return ⟨← reference .classRef info.inner, ← optional .classRef info.outer,
    ← optional .utf8 info.name, ← flagWord info.flags⟩

def LineNumber.put (line : LineNumber) : Put ClassFormat.LineNumber := do
  return ⟨← word line.startPc, ← word line.line⟩

def LocalVariable.put (item : LocalVariable) : Put ClassFormat.LocalVariable := do
  return ⟨← word item.startPc, ← word item.length, ← reference .utf8 item.name,
    ← reference .utf8 item.descriptor, ← word item.index⟩

def BootstrapMethod.put (method : BootstrapMethod) : Put ClassFormat.BootstrapMethod := do
  return ⟨← reference .methodHandle method.handle, ← list (index .anyEntry) method.arguments⟩

def Parameter.put (parameter : Parameter) : Put ClassFormat.Parameter := do
  return ⟨← optional .utf8 parameter.name, ← flagWord parameter.flags⟩

def Requirement.put (requirement : Requirement) : Put ClassFormat.Requirement := do
  return ⟨← reference .moduleRef requirement.moduleName, ← flagWord requirement.flags,
    ← optional .utf8 requirement.version⟩

def PackageDirective.put (directive : PackageDirective) : Put ClassFormat.PackageDirective := do
  return ⟨← reference .packageRef directive.package, ← flagWord directive.flags,
    ← list (reference .moduleRef) directive.modules⟩

def Provision.put (provision : Provision) : Put ClassFormat.Provision := do
  return ⟨← reference .classRef provision.service,
    ← list (reference .classRef) provision.implementations⟩

def ModuleInfo.put (info : ModuleInfo) : Put ClassFormat.ModuleInfo := do
  return ⟨← reference .moduleRef info.name, ← flagWord info.flags, ← optional .utf8 info.version,
    ← list Requirement.put info.requires, ← list PackageDirective.put info.exports,
    ← list PackageDirective.put info.opens, ← list (reference .classRef) info.uses,
    ← list Provision.put info.provides⟩

/-- The instructions of the forms, the first of them at `pc` in an array that lies at `base`. -/
def placed (base : Nat) : Nat → List Instruction.Form → List Instruction
  | _, [] => []
  | pc, form :: rest => form.placed base pc :: placed base (pc + 1 + form.operands.length) rest

def code (forms : List Instruction.Form) : Put (Array Instruction) := fun offset =>
  ⟨(placed offset 0 forms).toArray, forms.flatMap fun form => form.opcode :: form.operands, []⟩

def CodeOf.put (table : τ → Put ClassFormat.Table) (self : CodeOf τ) : Put Code := do
  let maxStack ← word self.maxStack
  let maxLocals ← word self.maxLocals
  let (length, instructions) ← measured (code self.instructions)
  let handlers ← list Handler.put self.handlers
  let attributes ← table self.attributes
  return ⟨maxStack, maxLocals, length, instructions, handlers, attributes⟩

def ComponentOf.put (table : τ → Put ClassFormat.Table) (self : ComponentOf τ) : Put Component := do
  return ⟨← reference .utf8 self.name, ← reference .utf8 self.descriptor, ← table self.attributes⟩

variable (element : ε → Put ClassFormat.Element) (table : τ → Put ClassFormat.Table)

def PayloadOf.put : PayloadOf ε τ → Put Payload
  | constantValue value =>
    return .constantValue (← index (.oneOf [.integer, .float, .long, .double, .string]) value)
  | code body => return .code (← body.put table)
  | stackMapTable frames => return .stackMapTable (← list Frame.put frames)
  | exceptions classes => return .exceptions (← list (reference .classRef) classes)
  | innerClasses classes => return .innerClasses (← list InnerClass.put classes)
  | enclosingMethod owner member =>
    return .enclosingMethod (← reference .classRef owner) (← optional .nameAndType member)
  | synthetic => return .synthetic
  | signature text => return .signature (← reference .utf8 text)
  | sourceFile text => return .sourceFile (← reference .utf8 text)
  | sourceDebugExtension chars => return .sourceDebugExtension (← Put.text chars)
  | lineNumberTable lines => return .lineNumberTable (← list LineNumber.put lines)
  | localVariableTable locals => return .localVariableTable (← list LocalVariable.put locals)
  | localVariableTypeTable locals => return .localVariableTypeTable (← list LocalVariable.put locals)
  | deprecated => return .deprecated
  | annotations visibility items =>
    return .annotations visibility (← list (AnnotationOf.put element) items)
  | parameterAnnotations visibility parameters =>
    return .parameterAnnotations visibility (← list (list (AnnotationOf.put element)) parameters)
  | typeAnnotations visibility items =>
    return .typeAnnotations visibility (← list (TypeAnnotationOf.put element) items)
  | annotationDefault value => return .annotationDefault (← element value)
  | bootstrapMethods methods => return .bootstrapMethods (← list BootstrapMethod.put methods)
  | methodParameters parameters => return .methodParameters (← list Parameter.put parameters)
  | moduleInfo info => return .moduleInfo (← info.put)
  | modulePackages packages => return .modulePackages (← list (reference .packageRef) packages)
  | moduleMainClass main => return .moduleMainClass (← reference .classRef main)
  | nestHost host => return .nestHost (← reference .classRef host)
  | nestMembers classes => return .nestMembers (← list (reference .classRef) classes)
  | recordInfo components => return .recordInfo (← list (ComponentOf.put table) components)
  | permittedSubclasses classes => return .permittedSubclasses (← list (reference .classRef) classes)

def ContentOf.put : ContentOf ε τ → Put Payload
  | known payload => payload.put element table
  | unknown _ _ bytes => fun _ => ⟨.unknown, bytes, []⟩

def AttributeOf.put (self : AttributeOf ε τ) : Put Attribute := do
  let nameIndex ← attributeName self.nameIndex self.name
  let (length, payload) ← measured (self.content.put element table)
  return ⟨nameIndex, self.name, length, payload⟩

def TableOf.put (self : TableOf ε τ) : Put ClassFormat.Table := do
  let count ← word (UInt16.ofNat self.attributes.items.length)
  let entries ← all (AttributeOf.put element table) self.attributes.items
  return ⟨count, entries⟩

def Table.put : (levels : Nat) → Table levels → Put ClassFormat.Table
  | 0 => TableOf.put (Element.put 0) nofun
  | levels + 1 => TableOf.put (Element.put (levels + 1)) (put levels)

end Attributes

def Member.put {limit : Nat} {set : FlagSet} (member : Member limit set) :
    Put (ClassFormat.Member set) := do
  return ⟨← flagWord member.flags, ← reference .utf8 member.name, ← reference .utf8 member.descriptor,
    ← Table.put limit member.attributes⟩

def Body.put {limit : Nat} (body : Body limit) : Put ClassFormat.Body := do
  return ⟨← flagWord body.flags, ← index .ownClass body.thisClass, ← optional .classRef body.superClass,
    ← list (reference .classRef) body.interfaces, ← list Member.put body.fields,
    ← list Member.put body.methods, ← Table.put limit body.attributes⟩

namespace ClassFile

variable {limit : Nat}

def put (self : ClassFile limit) : Put ClassFormat.ClassFile := do
  let magic ← word ClassFormat.ClassFile.magicNumber
  let minor ← word self.minor
  let major ← word self.major
  let poolCount ← word (UInt16.ofNat (slots self.constants + 1))
  let pool ← pool self.constants
  let body ← self.body.put
  return { body with magic, minor, major, poolCount, pool }

/-- The bytes of the class file that is described. -/
def bytes (self : ClassFile limit) : Bytes := (self.put 0).bytes

/-- The class file that is described, with all its parts in their places. -/
def file (self : ClassFile limit) : ClassFormat.ClassFile := (self.put 0).value

/-- Whether all that the description refers to is there, in its own pool, and no length in it
needs more than four bytes. -/
def Sound (self : ClassFile limit) : Prop :=
  ∀ demand ∈ (self.put 0).demands, demand.Met self.file.pool

instance (self : ClassFile limit) : Decidable self.Sound :=
  inferInstanceAs (Decidable (∀ demand ∈ (self.put 0).demands, demand.Met self.file.pool))

end ClassFile
end ClassFormat.Draft
