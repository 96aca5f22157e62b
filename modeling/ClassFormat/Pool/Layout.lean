import ClassFormat.Layout.Basic

/-! How constant pool entries are laid out. Their references are not checked as they are
read, since they may lead forward. -/
namespace ClassFormat

open Layout (u1 u2)

def Constant.layout (index : Nat) : Tag → Layout Constant
  | .utf8 =>
    .as { make := fun (length, text) => .utf8 length text
          parts? := fun | .utf8 length text => some (length, text) | _ => none }
      (.text index)
  | .integer =>
    .as { make := .integer, parts? := fun | .integer value => some value | _ => none }
      (.word inferInstance)
  | .float =>
    .as { make := .float, parts? := fun | .float value => some value | _ => none }
      (.word inferInstance)
  | .long =>
    .as { make := .long, parts? := fun | .long value => some value | _ => none }
      (.word inferInstance)
  | .double =>
    .as { make := .double, parts? := fun | .double value => some value | _ => none }
      (.word inferInstance)
  | .classRef =>
    .as { make := .classRef, parts? := fun | .classRef name => some name | _ => none } u2
  | .string =>
    .as { make := .string, parts? := fun | .string text => some text | _ => none } u2
  | .fieldRef =>
    .as { make := fun (owner, member) => .fieldRef owner member
          parts? := fun | .fieldRef owner member => some (owner, member) | _ => none }
      (.seq u2 u2)
  | .methodRef =>
    .as { make := fun (owner, member) => .methodRef owner member
          parts? := fun | .methodRef owner member => some (owner, member) | _ => none }
      (.seq u2 u2)
  | .interfaceMethodRef =>
    .as { make := fun (owner, member) => .interfaceMethodRef owner member
          parts? := fun | .interfaceMethodRef owner member => some (owner, member) | _ => none }
      (.seq u2 u2)
  | .nameAndType =>
    .as { make := fun (name, descriptor) => .nameAndType name descriptor
          parts? := fun | .nameAndType name descriptor => some (name, descriptor) | _ => none }
      (.seq u2 u2)
  | .methodHandle =>
    .as { make := fun (kind, target) => .methodHandle kind target
          parts? := fun | .methodHandle kind target => some (kind, target) | _ => none }
      (.seq u1 u2)
  | .methodType =>
    .as { make := .methodType
          parts? := fun | .methodType descriptor => some descriptor | _ => none } u2
  | .dynamic =>
    .as { make := fun (bootstrap, member) => .dynamic bootstrap member
          parts? := fun | .dynamic bootstrap member => some (bootstrap, member) | _ => none }
      (.seq u2 u2)
  | .invokeDynamic =>
    .as { make := fun (bootstrap, member) => .invokeDynamic bootstrap member
          parts? := fun
            | .invokeDynamic bootstrap member => some (bootstrap, member) | _ => none }
      (.seq u2 u2)
  | .moduleRef =>
    .as { make := .moduleRef, parts? := fun | .moduleRef name => some name | _ => none } u2
  | .packageRef =>
    .as { make := .packageRef, parts? := fun | .packageRef name => some name | _ => none } u2

/-- The entry that stands in the slot `index`. -/
def Entry.layout (index : Nat) : Layout Entry :=
  .as { make := fun (tag, constant) => ⟨index, tag, constant⟩
        parts? := fun entry =>
          if entry.index = index then some (entry.tag, entry.constant) else none
        parts?_make := by rintro ⟨tag, constant⟩; simp
        make_of_parts? := by
          rintro parts ⟨slot, tag, constant⟩ h
          by_cases same : slot = index <;> simp [same] at h
          subst h same; rfl }
    (.tagged ⟨Tag.ofByte?, fun tag offset => .unknownConstant tag index offset⟩
      (Constant.layout index))

end ClassFormat
