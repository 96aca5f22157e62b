import ClassFormat.ClassFile.Basic
import ClassFormat.Layout.Basic

/-! The parts of a decoded class file in the order in which they are written. They are
listed from the decoded values alone, so that what is said of every part of a file can be
compared with how the file was read. -/
namespace ClassFormat

/-- What fills a run of bytes. -/
inductive Part where
  | unsigned (offset width number : Nat)
  | signed (offset width : Nat) (number : Int)
  /-- A byte that selects one of several kinds, which go by numbers. -/
  | selector (byte : U1) (number : Nat)
  | flags (set : FlagSet) (word : Scalar (Flags set))
  /-- An index that must lead somewhere. -/
  | index (word : U2) (target : Target)
  /-- The index of the name of an attribute. -/
  | name (word : U2) (text : String)
  | text (offset length : Nat) (text : String)
  /-- Text that may be broken. -/
  | looseText (offset length : Nat) (text : String)
  /-- The instructions behind the length of a code array. -/
  | code (length : U4) (instructions : Array Instruction)
  /-- Bytes without a meaning. -/
  | passed (offset length : Nat)
  /-- An attribute table, which has parts of its own. -/
  | table (held : Table)

namespace Part

/-- A number that is written as it is. -/
def number [Word κ] (scalar : Scalar κ) : Part :=
  .unsigned scalar.offset scalar.width scalar.toNat

def offset : Part → Nat
  | unsigned offset .. | signed offset .. | text offset .. | looseText offset ..
  | passed offset _ => offset
  | selector byte _ => byte.offset
  | flags _ word => word.offset
  | index word _ | name word _ => word.offset
  | code length _ => length.stop
  | table held => held.count.offset

/-- The offset of the first byte after the part. -/
def stop : Part → Nat
  | unsigned offset width _ | signed offset width _ => offset + width
  | text offset length _ | looseText offset length _ | passed offset length => offset + length
  | selector byte _ => byte.offset + 1
  | flags _ word => word.offset + 2
  | index word _ | name word _ => word.offset + 2
  | code length _ => length.stop + length.toNat
  | table held => held.stop

/-- An index that must lead to an entry of one kind. -/
def references (kind : Tag) (index : U2) : Part := .index index (.oneOf [kind])

/-- An index that is 0 where there is none. -/
def mayReference (kind : Tag) (index : U2) : Part := .index index (.noneOr kind)

end Part

/-- The number that stands for a step in a type path. -/
def PathKind.number : PathKind → Nat
  | array => 0
  | nested => 1
  | wildcard => 2
  | typeArgument => 3

/-- The number that stands for a verification type. -/
def VerificationKind.number : VerificationKind → Nat
  | top => 0
  | integer => 1
  | float => 2
  | double => 3
  | long => 4
  | null => 5
  | uninitializedThis => 6
  | object => 7
  | uninitialized => 8

open ClassFormat.Part (number references mayReference)

def Counted.parts [Word κ] (item : α → List Part) (list : Counted κ α) : List Part :=
  number list.count :: list.items.flatMap item

section Pool

def Constant.parts : Constant → List Part
  | utf8 length text => [number length, .text length.stop length.toNat text]
  | integer value => [.signed value.offset 4 value.value.toInt]
  | float value => [.unsigned value.offset 4 value.value.bits.toNat]
  | long value => [.signed value.offset 8 value.value.toInt]
  | double value => [.unsigned value.offset 8 value.value.bits.toNat]
  | classRef index | string index | methodType index | moduleRef index | packageRef index =>
    [number index]
  | fieldRef first second | methodRef first second | interfaceMethodRef first second
  | nameAndType first second | dynamic first second | invokeDynamic first second =>
    [number first, number second]
  | methodHandle kind target => [number kind, number target]

def Entry.parts (entry : Entry) : List Part :=
  .selector entry.tag entry.constant.tag.byte.toNat :: entry.constant.parts

end Pool

section Annotations

/-- The kind of constant that the tag of an element value asks for. -/
def Element.constantTarget (tag : U1) : Target :=
  match Char.ofNat tag.value.toNat with
  | 'B' | 'C' | 'I' | 'S' | 'Z' => .oneOf [.integer]
  | 'D' => .oneOf [.double]
  | 'F' => .oneOf [.float]
  | 'J' => .oneOf [.long]
  | 's' => .oneOf [.utf8]
  | _ => .oneOf []

mutual

def ElementValue.parts (tag : U1) : ElementValue → List Part
  | .constant index => [.index index (Element.constantTarget tag)]
  | .enumeration type name => [references .utf8 type, references .utf8 name]
  | .classText descriptor => [references .utf8 descriptor]
  | .annotated content => content.parts
  | .array ⟨count, values⟩ => number count :: Element.partsOfAll values

def Element.parts : Element → List Part
  | ⟨tag, value⟩ => number tag :: value.parts tag

def Element.partsOfAll : List Element → List Part
  | [] => []
  | value :: rest => value.parts ++ Element.partsOfAll rest

def Annotation.parts : Annotation → List Part
  | ⟨type, ⟨count, pairs⟩⟩ => references .utf8 type :: number count :: Annotation.partsOfPairs pairs

def Annotation.partsOfPairs : List (U2 × Element) → List Part
  | [] => []
  | (name, value) :: rest => references .utf8 name :: (value.parts ++ Annotation.partsOfPairs rest)

end

def LocalRange.parts (range : LocalRange) : List Part :=
  [number range.start, number range.length, number range.index]

def TypeTarget.parts : TypeTarget → List Part
  | typeParameter index | formalParameter index => [number index]
  | superType index | throws index | catchType index | instruction index => [number index]
  | typeParameterBound parameter bound => [number parameter, number bound]
  | empty => []
  | localVariable ranges => ranges.parts LocalRange.parts
  | typeArgument pc argument => [number pc, number argument]

def PathStep.parts (step : PathStep) : List Part :=
  [.selector step.tag step.kind.number, number step.argument]

def TypeAnnotation.parts (whole : TypeAnnotation) : List Part :=
  number whole.type :: (whole.target.parts ++
    (whole.path.parts PathStep.parts ++ whole.annotation.parts))

end Annotations

section Frames

/-- Only an object names a class; where an uninitialized object was made is a place in the code. -/
def VerificationType.parts (type : VerificationType) : List Part :=
  .selector type.tag type.kind.number ::
    match type.kind, type.reference with
    | .object, some index => [references .classRef index]
    | _, some place => [number place]
    | _, none => []

def FrameBody.parts : FrameBody → List Part
  | same => []
  | oneItem stack => stack.parts
  | oneItemExtended delta stack => number delta :: stack.parts
  | chop delta | sameExtended delta => [number delta]
  | append delta locals => number delta :: locals.flatMap VerificationType.parts
  | full delta locals stack => number delta ::
      (locals.parts VerificationType.parts ++ stack.parts VerificationType.parts)

def Frame.parts (frame : Frame) : List Part := number frame.type :: frame.body.parts

end Frames

section Attributes

def Handler.parts (handler : Handler) : List Part :=
  [number handler.startPc, number handler.endPc, number handler.handlerPc,
    mayReference .classRef handler.catchType]

def InnerClass.parts (info : InnerClass) : List Part :=
  [references .classRef info.inner, mayReference .classRef info.outer,
    mayReference .utf8 info.name, .flags .ofInnerClass info.flags]

def LineNumber.parts (line : LineNumber) : List Part := [number line.startPc, number line.line]

def LocalVariable.parts (item : LocalVariable) : List Part :=
  [number item.startPc, number item.length, references .utf8 item.name,
    references .utf8 item.descriptor, number item.index]

def BootstrapMethod.parts (method : BootstrapMethod) : List Part :=
  references .methodHandle method.handle :: method.arguments.parts fun index =>
    [.index index .anyEntry]

def Parameter.parts (parameter : Parameter) : List Part :=
  [mayReference .utf8 parameter.name, .flags .ofParameter parameter.flags]

def Requirement.parts (requirement : Requirement) : List Part :=
  [references .moduleRef requirement.moduleName, .flags .ofRequires requirement.flags,
    mayReference .utf8 requirement.version]

def PackageDirective.parts (directive : PackageDirective) : List Part :=
  references .packageRef directive.package :: .flags .ofExports directive.flags ::
    directive.modules.parts fun index => [references .moduleRef index]

/-- A list of classes. -/
def partsOfClasses (classes : Counted UInt16 U2) : List Part :=
  classes.parts fun index => [references .classRef index]

def Provision.parts (provision : Provision) : List Part :=
  references .classRef provision.service :: partsOfClasses provision.implementations

def ModuleInfo.parts (info : ModuleInfo) : List Part :=
  references .moduleRef info.name :: .flags .ofModule info.flags :: mayReference .utf8 info.version ::
    (info.requires.parts Requirement.parts ++ (info.exports.parts PackageDirective.parts ++
      (info.opens.parts PackageDirective.parts ++ (partsOfClasses info.uses ++
        info.provides.parts Provision.parts))))

def Code.parts (code : Code) : List Part :=
  number code.maxStack :: number code.maxLocals :: number code.length ::
    .code code.length code.instructions ::
      (code.handlers.parts Handler.parts ++ [.table code.attributes])

def Component.parts (component : Component) : List Part :=
  [references .utf8 component.name, references .utf8 component.descriptor,
    .table component.attributes]

/-- What follows the declared length of an attribute. -/
def Payload.parts (length : U4) : Payload → List Part
  | constantValue index => [.index index (.oneOf [.integer, .float, .long, .double, .string])]
  | code body => body.parts
  | stackMapTable frames => frames.parts Frame.parts
  | exceptions classes | nestMembers classes | permittedSubclasses classes =>
    partsOfClasses classes
  | innerClasses classes => classes.parts InnerClass.parts
  | enclosingMethod owner member => [references .classRef owner, mayReference .nameAndType member]
  | synthetic | deprecated => []
  | signature index | sourceFile index => [references .utf8 index]
  | sourceDebugExtension text => [.looseText length.stop length.toNat text]
  | lineNumberTable lines => lines.parts LineNumber.parts
  | localVariableTable locals | localVariableTypeTable locals => locals.parts LocalVariable.parts
  | annotations _ items => items.parts Annotation.parts
  | parameterAnnotations _ parameters => parameters.parts (Counted.parts Annotation.parts)
  | typeAnnotations _ items => items.parts TypeAnnotation.parts
  | annotationDefault value => value.parts
  | bootstrapMethods methods => methods.parts BootstrapMethod.parts
  | methodParameters parameters => parameters.parts Parameter.parts
  | moduleInfo info => info.parts
  | modulePackages packages => packages.parts fun index => [references .packageRef index]
  | moduleMainClass index | nestHost index => [references .classRef index]
  | recordInfo components => components.parts Component.parts
  | unknown => [.passed length.stop length.toNat]

def Attribute.parts (self : Attribute) : List Part :=
  .name self.nameIndex self.name :: number self.length :: self.payload.parts self.length

def Table.parts (table : Table) : List Part :=
  number table.count :: table.entries.flatMap Attribute.parts

end Attributes

def Member.parts {set : FlagSet} (member : Member set) : List Part :=
  [.flags set member.flags, references .utf8 member.name, references .utf8 member.descriptor,
    .table member.attributes]

def Body.parts (body : Body) : List Part :=
  .flags .ofClass body.flags :: .index body.thisClass .ownClass ::
    mayReference .classRef body.superClass :: (partsOfClasses body.interfaces ++
      (body.fields.parts Member.parts ++ (body.methods.parts Member.parts ++
        [.table body.attributes])))

namespace ClassFile

/-- What stands before the first entry of the pool. -/
def heading (file : ClassFile) : List Part :=
  [number file.magic, number file.minor, number file.major, number file.poolCount]

def parts (file : ClassFile) : List Part :=
  file.heading ++ (file.pool.entries.flatMap Entry.parts ++ file.toBody.parts)

end ClassFile

/-- A part that is listed, or one of an attribute table that can be reached from there. -/
inductive Reaches : List Part → Part → Prop where
  | listed {parts : List Part} {part : Part} : part ∈ parts → Reaches parts part
  | within {parts : List Part} {part : Part} {table : Table} :
    Part.table table ∈ parts → Reaches table.parts part → Reaches parts part

/-- The parts of a file, those of its attribute tables at any depth included. -/
def ClassFile.HasPart (file : ClassFile) (part : Part) : Prop := Reaches file.parts part

end ClassFormat
