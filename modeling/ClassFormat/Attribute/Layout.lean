import ClassFormat.Annotation.Layout
import ClassFormat.Frame.Layout

/-! How attributes are laid out. The attribute table of a code array or of a record
component is one level of nesting further down than the table that holds it. -/
namespace ClassFormat

open Layout (u1 u2 reference optional)

def Handler.layout : Layout Handler :=
  .as { make := fun (startPc, endPc, handlerPc, catchType) =>
          ⟨startPc, endPc, handlerPc, catchType⟩
        parts? := fun handler =>
          some (handler.startPc, handler.endPc, handler.handlerPc, handler.catchType) }
    (.seq u2 (.seq u2 (.seq u2 (optional .classRef))))

def InnerClass.layout : Layout InnerClass :=
  .as { make := fun (inner, outer, name, flags) => ⟨inner, outer, name, flags⟩
        parts? := fun info => some (info.inner, info.outer, info.name, info.flags) }
    (.seq (reference .classRef)
      (.seq (optional .classRef) (.seq (optional .utf8) (.flags .ofInnerClass))))

def LineNumber.layout : Layout LineNumber :=
  .as { make := fun (startPc, line) => ⟨startPc, line⟩
        parts? := fun number => some (number.startPc, number.line) }
    (.seq u2 u2)

def LocalVariable.layout : Layout LocalVariable :=
  .as { make := fun (startPc, length, name, descriptor, index) =>
          ⟨startPc, length, name, descriptor, index⟩
        parts? := fun item =>
          some (item.startPc, item.length, item.name, item.descriptor,
            item.index) }
    (.seq u2 (.seq u2 (.seq (reference .utf8) (.seq (reference .utf8) u2))))

def BootstrapMethod.layout : Layout BootstrapMethod :=
  .as { make := fun (handle, arguments) => ⟨handle, arguments⟩
        parts? := fun method => some (method.handle, method.arguments) }
    (.seq (reference .methodHandle) (.list (.index .anyEntry)))

def Parameter.layout : Layout Parameter :=
  .as { make := fun (name, flags) => ⟨name, flags⟩
        parts? := fun parameter => some (parameter.name, parameter.flags) }
    (.seq (optional .utf8) (.flags .ofParameter))

def Requirement.layout : Layout Requirement :=
  .as { make := fun (moduleName, flags, version) => ⟨moduleName, flags, version⟩
        parts? := fun requirement =>
          some (requirement.moduleName, requirement.flags, requirement.version) }
    (.seq (reference .moduleRef) (.seq (.flags .ofRequires) (optional .utf8)))

def PackageDirective.layout : Layout PackageDirective :=
  .as { make := fun (package, flags, modules) => ⟨package, flags, modules⟩
        parts? := fun directive =>
          some (directive.package, directive.flags, directive.modules) }
    (.seq (reference .packageRef)
      (.seq (.flags .ofExports) (.list (reference .moduleRef))))

def Provision.layout : Layout Provision :=
  .as { make := fun (service, implementations) => ⟨service, implementations⟩
        parts? := fun provision => some (provision.service, provision.implementations) }
    (.seq (reference .classRef) (.list (reference .classRef)))

def ModuleInfo.layout : Layout ModuleInfo :=
  .as { make := fun (name, flags, version, requires, exports, opens, uses, provides) =>
          ⟨name, flags, version, requires, exports, opens, uses, provides⟩
        parts? := fun info =>
          some (info.name, info.flags, info.version, info.requires, info.exports, info.opens,
            info.uses, info.provides) }
    (.seq (reference .moduleRef) (.seq (.flags .ofModule) (.seq (optional .utf8)
      (.seq (.list Requirement.layout) (.seq (.list PackageDirective.layout)
        (.seq (.list PackageDirective.layout) (.seq (.list (reference .classRef))
          (.list Provision.layout))))))))

def Code.layout (attributes : Layout Table) : Layout Code :=
  .as { make := fun (maxStack, maxLocals, (length, instructions), handlers, attributes) =>
          ⟨maxStack, maxLocals, length, instructions, handlers, attributes⟩
        parts? := fun code =>
          some (code.maxStack, code.maxLocals, (code.length, code.instructions),
            code.handlers, code.attributes) }
    (.seq u2 (.seq u2 (.seq .code (.seq (.list Handler.layout) attributes))))

def Component.layout (attributes : Layout Table) : Layout Component :=
  .as { make := fun (name, descriptor, attributes) => ⟨name, descriptor, attributes⟩
        parts? := fun component =>
          some (component.name, component.descriptor, component.attributes) }
    (.seq (reference .utf8) (.seq (reference .utf8) attributes))

/-- What the name of an attribute announces, where element values and the attribute tables
inside a payload are laid out in given ways. -/
def Payload.layout (element : Layout Element) (attributes : Layout Table)
    (kind : AttributeKind) (length : Nat) : Layout Payload :=
  let inner := Annotation.layoutWith element
  match kind with
  | .constantValue =>
    .as { make := .constantValue
          parts? := fun | .constantValue index => some index | _ => none }
      (.index (.oneOf [.integer, .float, .long, .double, .string]))
  | .code =>
    .as { make := .code, parts? := fun | .code body => some body | _ => none }
      (Code.layout attributes)
  | .stackMapTable =>
    .as { make := .stackMapTable
          parts? := fun | .stackMapTable frames => some frames | _ => none }
      (.list Frame.layout)
  | .exceptions =>
    .as { make := .exceptions
          parts? := fun | .exceptions classes => some classes | _ => none }
      (.list (reference .classRef))
  | .innerClasses =>
    .as { make := .innerClasses
          parts? := fun | .innerClasses classes => some classes | _ => none }
      (.list InnerClass.layout)
  | .enclosingMethod =>
    .as { make := fun (owner, member) => .enclosingMethod owner member
          parts? := fun | .enclosingMethod owner member => some (owner, member) | _ => none }
      (.seq (reference .classRef) (optional .nameAndType))
  | .synthetic =>
    .as { make := fun () => .synthetic
          parts? := fun | .synthetic => some () | _ => none } .nothing
  | .signature =>
    .as { make := .signature, parts? := fun | .signature index => some index | _ => none }
      (reference .utf8)
  | .sourceFile =>
    .as { make := .sourceFile, parts? := fun | .sourceFile index => some index | _ => none }
      (reference .utf8)
  | .sourceDebugExtension =>
    .as { make := .sourceDebugExtension
          parts? := fun | .sourceDebugExtension text => some text | _ => none }
      (.looseText length)
  | .lineNumberTable =>
    .as { make := .lineNumberTable
          parts? := fun | .lineNumberTable lines => some lines | _ => none }
      (.list LineNumber.layout)
  | .localVariableTable =>
    .as { make := .localVariableTable
          parts? := fun | .localVariableTable locals => some locals | _ => none }
      (.list LocalVariable.layout)
  | .localVariableTypeTable =>
    .as { make := .localVariableTypeTable
          parts? := fun | .localVariableTypeTable locals => some locals | _ => none }
      (.list LocalVariable.layout)
  | .deprecated =>
    .as { make := fun () => .deprecated
          parts? := fun | .deprecated => some () | _ => none } .nothing
  | .annotations visibility =>
    .as { make := .annotations visibility
          parts? := fun
            | .annotations seen items =>
              if seen = visibility then some items else none
            | _ => none
          parts?_make := by simp
          make_of_parts? := by rintro parts ⟨⟩ h <;> simp_all }
      (.list inner)
  | .parameterAnnotations visibility =>
    .as { make := .parameterAnnotations visibility
          parts? := fun
            | .parameterAnnotations seen parameters =>
              if seen = visibility then some parameters else none
            | _ => none
          parts?_make := by simp
          make_of_parts? := by rintro parts ⟨⟩ h <;> simp_all }
      (.shortList (.list inner))
  | .typeAnnotations visibility =>
    .as { make := .typeAnnotations visibility
          parts? := fun
            | .typeAnnotations seen items =>
              if seen = visibility then some items else none
            | _ => none
          parts?_make := by simp
          make_of_parts? := by rintro parts ⟨⟩ h <;> simp_all }
      (.list <| TypeAnnotation.layout inner)
  | .annotationDefault =>
    .as { make := .annotationDefault
          parts? := fun | .annotationDefault value => some value | _ => none }
      element
  | .bootstrapMethods =>
    .as { make := .bootstrapMethods
          parts? := fun | .bootstrapMethods methods => some methods | _ => none }
      (.list BootstrapMethod.layout)
  | .methodParameters =>
    .as { make := .methodParameters
          parts? := fun | .methodParameters parameters => some parameters | _ => none }
      (.shortList Parameter.layout)
  | .moduleInfo =>
    .as { make := .moduleInfo, parts? := fun | .moduleInfo info => some info | _ => none }
      ModuleInfo.layout
  | .modulePackages =>
    .as { make := .modulePackages
          parts? := fun | .modulePackages packages => some packages | _ => none }
      (.list (reference .packageRef))
  | .moduleMainClass =>
    .as { make := .moduleMainClass
          parts? := fun | .moduleMainClass index => some index | _ => none }
      (reference .classRef)
  | .nestHost =>
    .as { make := .nestHost, parts? := fun | .nestHost index => some index | _ => none }
      (reference .classRef)
  | .nestMembers =>
    .as { make := .nestMembers
          parts? := fun | .nestMembers classes => some classes | _ => none }
      (.list (reference .classRef))
  | .recordInfo =>
    .as { make := .recordInfo
          parts? := fun | .recordInfo components => some components | _ => none }
      (.list (Component.layout attributes))
  | .permittedSubclasses =>
    .as { make := .permittedSubclasses
          parts? := fun | .permittedSubclasses classes => some classes | _ => none }
      (.list (reference .classRef))

/-- An attribute table with so many levels of nesting left, of `limit` in all. -/
def Table.layout (limit : Nat) : Nat → Layout Table
  | 0 => .table (.entry (Payload.layout (Element.layout limit 0) (.tooDeep limit)))
  | levels + 1 =>
    .table (.entry (Payload.layout (Element.layout limit (levels + 1))
      (.nested (layout limit levels))))

end ClassFormat
