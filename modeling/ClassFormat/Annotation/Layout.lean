import ClassFormat.Layout.Basic

/-! How annotations are laid out. The values of an array and an annotation that is a value
are one level of nesting further down than the value that holds them. -/
namespace ClassFormat

open Layout (u1 u2)

/-- An annotation whose values are laid out in a given way. -/
def Annotation.layoutWith (element : Layout Element) : Layout Annotation :=
  .as { make := fun (type, pairs) => ⟨type, pairs⟩
        parts? := fun self => some (self.type, self.pairs) }
    (.seq (.reference .utf8) (.list (.seq (.reference .utf8) element)))

/-- The value that a tag announces, where nested annotations and values are laid out in
given ways. -/
def ElementKind.layout (inner : Layout Annotation) (element : Layout Element) :
    ElementKind → Layout ElementValue
  | .constant kind =>
    .as { make := .constant, parts? := fun | .constant index => some index | _ => none }
      (.reference kind)
  | .enumeration =>
    .as { make := fun (type, name) => .enumeration type name
          parts? := fun | .enumeration type name => some (type, name) | _ => none }
      (.indexPair (.oneOf [.utf8]) (.oneOf [.utf8]))
  | .classText =>
    .as { make := .classText
          parts? := fun | .classText descriptor => some descriptor | _ => none }
      (.reference .utf8)
  | .annotated =>
    .as { make := .annotated
          parts? := fun | .annotated content => some content | _ => none }
      inner
  | .array =>
    .as { make := .array, parts? := fun | .array values => some values | _ => none }
      (.list element)

def Element.layoutWith (inner : Layout Annotation) (element : Layout Element) :
    Layout Element :=
  .as { make := fun (tag, value) => ⟨tag, value⟩
        parts? := fun element => some (element.tag, element.value) }
    (.tagged ⟨ElementKind.ofByte?, .unknownElement⟩ (ElementKind.layout inner element))

/-- An element value with so many levels of nesting left, of `limit` in all. -/
def Element.layout (limit : Nat) : Nat → Layout Element
  | 0 => layoutWith (.tooDeep limit) (.tooDeep limit)
  | levels + 1 =>
    let below := layout limit levels
    layoutWith (.nested <| Annotation.layoutWith below) (.nested below)

def TargetKind.layout : TargetKind → Layout TypeTarget
  | .typeParameter =>
    .as { make := .typeParameter
          parts? := fun | .typeParameter index => some index | _ => none } u1
  | .superType =>
    .as { make := .superType, parts? := fun | .superType index => some index | _ => none } u2
  | .typeParameterBound =>
    .as { make := fun (parameter, bound) => .typeParameterBound parameter bound
          parts? := fun
            | .typeParameterBound parameter bound => some (parameter, bound)
            | _ => none }
      (.seq u1 u1)
  | .empty =>
    .as { make := fun () => .empty, parts? := fun | .empty => some () | _ => none } .nothing
  | .formalParameter =>
    .as { make := .formalParameter
          parts? := fun | .formalParameter index => some index | _ => none } u1
  | .throws =>
    .as { make := .throws, parts? := fun | .throws index => some index | _ => none } u2
  | .localVariable =>
    .as { make := .localVariable
          parts? := fun | .localVariable ranges => some ranges | _ => none }
      (.list (.as
        { make := fun (start, length, index) => ⟨start, length, index⟩
          parts? := fun range => some (range.start, range.length, range.index) }
        (.seq u2 (.seq u2 u2))))
  | .catchType =>
    .as { make := .catchType, parts? := fun | .catchType index => some index | _ => none } u2
  | .instruction =>
    .as { make := .instruction, parts? := fun | .instruction pc => some pc | _ => none } u2
  | .typeArgument =>
    .as { make := fun (pc, argument) => .typeArgument pc argument
          parts? := fun | .typeArgument pc argument => some (pc, argument) | _ => none }
      (.seq u2 u1)

def PathStep.layout : Layout PathStep :=
  .as { make := fun (tag, kind, argument) => ⟨tag, kind, argument⟩
        parts? := fun step => some (step.tag, step.kind, step.argument) }
    (.tagged ⟨PathKind.ofByte?, .unknownPathStep⟩ fun kind =>
      .seq (.as (.constant kind) .nothing) u1)

/-- The target and the path come before the annotation itself. -/
def TypeAnnotation.layout (inner : Layout Annotation) : Layout TypeAnnotation :=
  .as { make := fun ((type, target), path, annotation) => ⟨type, target, path, annotation⟩
        parts? := fun whole =>
          some ((whole.type, whole.target), whole.path, whole.annotation) }
    (.seq (.tagged ⟨TargetKind.ofByte?, .unknownTarget⟩ TargetKind.layout)
      (.seq (.shortList PathStep.layout) inner))

end ClassFormat
