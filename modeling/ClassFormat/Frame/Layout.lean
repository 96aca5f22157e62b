import ClassFormat.Layout.Basic

/-! How stack map frames are laid out. -/
namespace ClassFormat

open Layout (u1 u2)

/-- Only an object refers to the pool; an uninitialized object refers to the code. -/
def VerificationKind.layout (kind : VerificationKind) : Layout (Option U2) :=
  let referring : Shape U2 (Option U2) := { make := some, parts? := id }
  match kind with
  | .object => .as referring (.reference .classRef)
  | .uninitialized => .as referring u2
  | _ => .as (.constant none) .nothing

def VerificationType.layout : Layout VerificationType :=
  .as { make := fun (tag, kind, reference) => ⟨tag, kind, reference⟩
        parts? := fun type => some (type.tag, type.kind, type.reference) }
    (.tagged ⟨VerificationKind.ofByte?, .unknownVerification⟩ fun kind =>
      .seq (.as (.constant kind) .nothing) kind.layout)

def FrameKind.layout : FrameKind → Layout FrameBody
  | .same =>
    .as { make := fun () => .same, parts? := fun | .same => some () | _ => none } .nothing
  | .oneItem =>
    .as { make := .oneItem, parts? := fun | .oneItem stack => some stack | _ => none }
      VerificationType.layout
  | .oneItemExtended =>
    .as { make := fun (delta, stack) => .oneItemExtended delta stack
          parts? := fun | .oneItemExtended delta stack => some (delta, stack) | _ => none }
      (.seq u2 VerificationType.layout)
  | .chop => .as { make := .chop, parts? := fun | .chop delta => some delta | _ => none } u2
  | .sameExtended =>
    .as { make := .sameExtended
          parts? := fun | .sameExtended delta => some delta | _ => none } u2
  | .append locals =>
    .as { make := fun (delta, locals) => .append delta locals
          parts? := fun | .append delta locals => some (delta, locals) | _ => none }
      (.seq u2 (.times locals VerificationType.layout))
  | .full =>
    .as { make := fun (delta, locals, stack) => .full delta locals stack
          parts? := fun
            | .full delta locals stack => some (delta, locals, stack)
            | _ => none }
      (.seq u2 (.seq (.list VerificationType.layout) (.list VerificationType.layout)))

def Frame.layout : Layout Frame :=
  .as { make := fun (type, body) => ⟨type, body⟩
        parts? := fun frame => some (frame.type, frame.body) }
    (.tagged ⟨FrameKind.ofByte?, .unknownFrame⟩ FrameKind.layout)

end ClassFormat
