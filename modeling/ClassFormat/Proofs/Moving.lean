import ClassFormat.Attribute.Basic
import ClassFormat.Error

/-! What was decoded in one place, as it would be in another. Each offset is moved by a given
function and nothing else is touched: values, texts, lengths, and all that counts from the start of
a code array stay as they are. -/
namespace ClassFormat

variable (move : Nat → Nat)

def Scalar.moved (scalar : Scalar α) : Scalar α := ⟨scalar.value, move scalar.offset⟩

def Counted.moved (item : α → α) (list : Counted κ α) : Counted κ α :=
  ⟨list.count.moved move, list.items.map item⟩

/-- A `pc` is not an offset. -/
def Instruction.moved (instruction : Instruction) : Instruction :=
  { instruction with offset := move instruction.offset }

/-- Complaints about what an index leads to and about lengths name no offset. -/
def Error.moved : Error → Error
  | tooFewBytes needed offset left => tooFewBytes needed (move offset) left
  | unknownConstant tag index offset => unknownConstant tag index (move offset)
  | unknownTarget type offset => unknownTarget type (move offset)
  | unknownOpcode opcode pc offset => unknownOpcode opcode pc (move offset)
  | unknownFrame type offset => unknownFrame type (move offset)
  | unknownVerification tag offset => unknownVerification tag (move offset)
  | unknownElement tag offset => unknownElement tag (move offset)
  | unknownPathStep kind offset => unknownPathStep kind (move offset)
  | tooDeep limit offset => tooDeep limit (move offset)
  | trailingBytes offset remaining => trailingBytes (move offset) remaining
  | cause => cause

section Annotations

mutual

def ElementValue.moved : ElementValue → ElementValue
  | .constant index => .constant (index.moved move)
  | .enumeration type name => .enumeration (type.moved move) (name.moved move)
  | .classText descriptor => .classText (descriptor.moved move)
  | .annotated content => .annotated ( Annotation.moved content)
  | .array ⟨count, values⟩ => .array ⟨count.moved move, Element.movedAll values⟩

def Element.moved : Element → Element
  | ⟨tag, value⟩ => ⟨tag.moved move, ElementValue.moved value⟩

def Element.movedAll : List Element → List Element
  | [] => []
  | value :: rest => Element.moved value :: Element.movedAll rest

def Annotation.moved : Annotation → Annotation
  | ⟨type, ⟨count, pairs⟩⟩ =>
    ⟨type.moved move, ⟨count.moved move, Annotation.movedPairs pairs⟩⟩

def Annotation.movedPairs : List (U2 × Element) → List (U2 × Element)
  | [] => []
  | (name, value) :: rest =>
    (name.moved move, Element.moved value) :: Annotation.movedPairs rest

end

def LocalRange.moved (range : LocalRange) : LocalRange :=
  ⟨range.start.moved move, range.length.moved move, range.index.moved move⟩

def TypeTarget.moved : TypeTarget → TypeTarget
  | typeParameter index => typeParameter (index.moved move)
  | superType index => superType (index.moved move)
  | typeParameterBound parameter bound =>
    typeParameterBound (parameter.moved move) (bound.moved move)
  | empty => empty
  | formalParameter index => formalParameter (index.moved move)
  | throws index => throws (index.moved move)
  | localVariable ranges => localVariable (ranges.moved move (LocalRange.moved move))
  | catchType index => catchType (index.moved move)
  | instruction pc => instruction (pc.moved move)
  | typeArgument pc argument => typeArgument (pc.moved move) (argument.moved move)

def PathStep.moved (step : PathStep) : PathStep :=
  ⟨step.tag.moved move, step.kind, step.argument.moved move⟩

def TypeAnnotation.moved (whole : TypeAnnotation) : TypeAnnotation :=
  ⟨whole.type.moved move, whole.target.moved move, whole.path.moved move (PathStep.moved move),
    whole.annotation.moved move⟩

end Annotations

section Frames

def VerificationType.moved (type : VerificationType) : VerificationType :=
  ⟨type.tag.moved move, type.kind, type.reference.map (Scalar.moved move)⟩

def FrameBody.moved : FrameBody → FrameBody
  | same => same
  | oneItem stack => oneItem (stack.moved move)
  | oneItemExtended delta stack => oneItemExtended (delta.moved move) (stack.moved move)
  | chop delta => chop (delta.moved move)
  | sameExtended delta => sameExtended (delta.moved move)
  | append delta locals => append (delta.moved move) (locals.map (VerificationType.moved move))
  | full delta locals stack =>
    full (delta.moved move) (locals.moved move (VerificationType.moved move))
      (stack.moved move (VerificationType.moved move))

def Frame.moved (frame : Frame) : Frame := ⟨frame.type.moved move, frame.body.moved move⟩

end Frames

section Attributes

def Handler.moved (handler : Handler) : Handler :=
  ⟨handler.startPc.moved move, handler.endPc.moved move, handler.handlerPc.moved move,
    handler.catchType.moved move⟩

def InnerClass.moved (info : InnerClass) : InnerClass :=
  ⟨info.inner.moved move, info.outer.moved move, info.name.moved move, info.flags.moved move⟩

def LineNumber.moved (number : LineNumber) : LineNumber :=
  ⟨number.startPc.moved move, number.line.moved move⟩

def LocalVariable.moved (item : LocalVariable) : LocalVariable :=
  ⟨item.startPc.moved move, item.length.moved move, item.name.moved move,
    item.descriptor.moved move, item.index.moved move⟩

def BootstrapMethod.moved (method : BootstrapMethod) : BootstrapMethod :=
  ⟨method.handle.moved move, method.arguments.moved move (Scalar.moved move)⟩

def Parameter.moved (parameter : Parameter) : Parameter :=
  ⟨parameter.name.moved move, parameter.flags.moved move⟩

def Requirement.moved (requirement : Requirement) : Requirement :=
  ⟨requirement.moduleName.moved move, requirement.flags.moved move, requirement.version.moved move⟩

def PackageDirective.moved (directive : PackageDirective) : PackageDirective :=
  ⟨directive.package.moved move, directive.flags.moved move,
    directive.modules.moved move (Scalar.moved move)⟩

def Provision.moved (provision : Provision) : Provision :=
  ⟨provision.service.moved move, provision.implementations.moved move (Scalar.moved move)⟩

def ModuleInfo.moved (info : ModuleInfo) : ModuleInfo :=
  ⟨info.name.moved move, info.flags.moved move, info.version.moved move,
    info.requires.moved move (Requirement.moved move),
    info.exports.moved move (PackageDirective.moved move),
    info.opens.moved move (PackageDirective.moved move), info.uses.moved move (Scalar.moved move),
    info.provides.moved move (Provision.moved move)⟩

mutual

def Payload.moved : Payload → Payload
  | .constantValue index => .constantValue (index.moved move)
  | .code body => .code (Code.moved body)
  | .stackMapTable frames => .stackMapTable (frames.moved move (Frame.moved move))
  | .exceptions classes => .exceptions (classes.moved move (Scalar.moved move))
  | .innerClasses classes => .innerClasses (classes.moved move (InnerClass.moved move))
  | .enclosingMethod owner member => .enclosingMethod (owner.moved move) (member.moved move)
  | .synthetic => .synthetic
  | .signature index => .signature (index.moved move)
  | .sourceFile index => .sourceFile (index.moved move)
  | .sourceDebugExtension text => .sourceDebugExtension text
  | .lineNumberTable lines => .lineNumberTable (lines.moved move (LineNumber.moved move))
  | .localVariableTable locals => .localVariableTable (locals.moved move (LocalVariable.moved move))
  | .localVariableTypeTable locals =>
    .localVariableTypeTable (locals.moved move (LocalVariable.moved move))
  | .deprecated => .deprecated
  | .annotations visibility items =>
    .annotations visibility (items.moved move ( Annotation.moved move))
  | .parameterAnnotations visibility parameters =>
    .parameterAnnotations visibility
      (parameters.moved move (Counted.moved move ( Annotation.moved move)))
  | .typeAnnotations visibility items =>
    .typeAnnotations visibility (items.moved move ( TypeAnnotation.moved move))
  | .annotationDefault value => .annotationDefault (value.moved move)
  | .bootstrapMethods methods => .bootstrapMethods (methods.moved move (BootstrapMethod.moved move))
  | .methodParameters parameters => .methodParameters (parameters.moved move (Parameter.moved move))
  | .moduleInfo info => .moduleInfo (info.moved move)
  | .modulePackages packages => .modulePackages (packages.moved move (Scalar.moved move))
  | .moduleMainClass index => .moduleMainClass (index.moved move)
  | .nestHost index => .nestHost (index.moved move)
  | .nestMembers classes => .nestMembers (classes.moved move (Scalar.moved move))
  | .recordInfo ⟨count, components⟩ => .recordInfo ⟨count.moved move, Component.movedAll components⟩
  | .permittedSubclasses classes => .permittedSubclasses (classes.moved move (Scalar.moved move))
  | .unknown => .unknown

def Attribute.moved : Attribute → Attribute
  | ⟨nameIndex, name, length, payload⟩ =>
    ⟨nameIndex.moved move, name, length.moved move, Payload.moved payload⟩

def Attribute.movedAll : List Attribute → List Attribute
  | [] => []
  | entry :: rest => Attribute.moved entry :: Attribute.movedAll rest

def Table.moved : Table → Table
  | ⟨count, entries⟩ => ⟨count.moved move, Attribute.movedAll entries⟩

def Code.moved : Code → Code
  | ⟨maxStack, maxLocals, length, instructions, handlers, attributes⟩ =>
    ⟨maxStack.moved move, maxLocals.moved move, length.moved move,
      instructions.map (Instruction.moved move), handlers.moved move (Handler.moved move),
      Table.moved attributes⟩

def Component.moved : Component → Component
  | ⟨name, descriptor, attributes⟩ =>
    ⟨name.moved move, descriptor.moved move, Table.moved attributes⟩

def Component.movedAll : List Component → List Component
  | [] => []
  | component :: rest => Component.moved component :: Component.movedAll rest

end

end Attributes

/-! ### Lists are moved item by item -/

theorem Element.movedAll_eq (values : List Element) :
    Element.movedAll move values = values.map (Element.moved move) := by
  induction values with
  | nil => simp [Element.movedAll]
  | cons value rest ih => simp [Element.movedAll, ih]

theorem Annotation.movedPairs_eq (pairs : List (U2 × Element)) :
    Annotation.movedPairs move pairs =
      pairs.map (Prod.map (Scalar.moved move) (Element.moved move)) := by
  induction pairs with
  | nil => simp [ Annotation.movedPairs]
  | cons pair rest ih =>
    cases pair
    simp [ Annotation.movedPairs, ih]

theorem Attribute.movedAll_eq (entries : List Attribute) :
    Attribute.movedAll move entries = entries.map (Attribute.moved move) := by
  induction entries with
  | nil => simp [Attribute.movedAll]
  | cons entry rest ih => simp [Attribute.movedAll, ih]

theorem Component.movedAll_eq (components : List Component) :
    Component.movedAll move components = components.map (Component.moved move) := by
  induction components with
  | nil => simp [Component.movedAll]
  | cons component rest ih => simp [Component.movedAll, ih]

/-! ### What does not depend on places -/

@[simp] theorem Scalar.toNat_moved [Word α] (scalar : Scalar α) :
    (scalar.moved move).toNat = scalar.toNat := rfl

@[simp] theorem Attribute.moved_name (entry : Attribute) : (entry.moved move).name = entry.name := by
  cases entry
  simp [Attribute.moved]

/-- Which attribute takes the place of which depends on names alone. -/
theorem Table.insert_moved (later : Attribute) (entries : List Attribute) :
    Table.insert (later.moved move) (entries.map (Attribute.moved move)) =
      (Table.insert later entries).map (Attribute.moved move) := by
  induction entries with
  | nil => simp [Table.insert]
  | cons earlier rest ih =>
    by_cases same : earlier.name = later.name
    · simp [Table.insert, same]
    · simp [Table.insert, same, ih]

end ClassFormat
