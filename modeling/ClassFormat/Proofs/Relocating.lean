import ClassFormat.Proofs.Described
import ClassFormat.Proofs.Elsewhere

/-! Attributes are decoded alike wherever they lie. Only the places in what is decoded, and those
that complaints name, tell one place in a file from another. -/
namespace ClassFormat

open Layout (Moves)
open Layout.Moves

variable {pool : Pool} {move : Nat → Nat}

section Annotations

theorem Annotation.layoutWith_moves {element : Layout Element}
    (values : element.Moves pool move (Element.moved move)) :
    ( Annotation.layoutWith element).Moves pool move ( Annotation.moved move) := by
  refine .as (.seq (.index _) (.counted (.seq (.index _) values))) fun value => ?_
  change _ = Annotation.moved move ⟨value.1, ⟨value.2.count, value.2.items⟩⟩
  rw [ Annotation.moved, Annotation.movedPairs_eq]
  rfl

theorem ElementKind.layout_moves {inner : Layout Annotation} {element : Layout Element}
    (annotated : inner.Moves pool move ( Annotation.moved move))
    (values : element.Moves pool move (Element.moved move)) (kind : ElementKind) :
    (kind.layout inner element).Moves pool move (ElementValue.moved move) := by
  cases kind with
  | constant => exact .as (.index _) fun _ => rfl
  | enumeration => exact .as (.indexPair _ _) fun _ => rfl
  | classText => exact .as (.index _) fun _ => rfl
  | annotated => exact .as annotated fun _ => rfl
  | array =>
    refine .as (.counted values) fun value => ?_
    change _ = ElementValue.moved move (.array ⟨value.count, value.items⟩)
    rw [ElementValue.moved, Element.movedAll_eq]
    rfl

theorem Element.layoutWith_moves {inner : Layout Annotation} {element : Layout Element}
    (annotated : inner.Moves pool move ( Annotation.moved move))
    (values : element.Moves pool move (Element.moved move)) :
    (Element.layoutWith inner element).Moves pool move (Element.moved move) :=
  .as (.tagged (fun _ _ => rfl) (ElementKind.layout_moves annotated values)) fun _ => rfl

theorem Element.layout_moves (limit levels : Nat) :
    (Element.layout limit levels).Moves pool move (Element.moved move) := by
  induction levels with
  | zero => exact layoutWith_moves (.tooDeep limit _) (.tooDeep limit _)
  | succ levels ih => exact layoutWith_moves (.nested ( Annotation.layoutWith_moves ih)) (.nested ih)

theorem TargetKind.layout_moves (kind : TargetKind) :
    kind.layout.Moves pool move (TypeTarget.moved move) := by
  cases kind with
  | empty => exact .as .nothing fun _ => rfl
  | typeParameterBound | typeArgument => exact .as (.seq .word .word) fun _ => rfl
  | localVariable =>
    refine .as (.counted ?_) fun _ => rfl
    exact .as (.seq .word (.seq .word .word)) fun _ => rfl
  | _ => exact .as .word fun _ => rfl

/-- A kind that a tag stands for lies nowhere. -/
theorem Layout.Moves.constant {κ : Type} [DecidableEq κ] (kind : κ) :
    (Layout.as (.constant kind) .nothing).Moves pool move id :=
  .as .nothing fun _ => rfl

theorem PathStep.layout_moves : PathStep.layout.Moves pool move (PathStep.moved move) :=
  .as (.tagged (fun _ _ => rfl) fun kind => .seq (.constant kind) .word) fun _ => rfl

theorem TypeAnnotation.layout_moves {inner : Layout Annotation}
    (annotated : inner.Moves pool move ( Annotation.moved move)) :
    ( TypeAnnotation.layout inner).Moves pool move ( TypeAnnotation.moved move) :=
  .as (.seq (.tagged (fun _ _ => rfl) TargetKind.layout_moves)
    (.seq (.counted PathStep.layout_moves) annotated)) fun _ => rfl

end Annotations

section Frames

theorem VerificationKind.layout_moves (kind : VerificationKind) :
    kind.layout.Moves pool move (Option.map (Scalar.moved move)) := by
  cases kind with
  | object => exact .as (.index _) fun _ => rfl
  | uninitialized => exact .as .word fun _ => rfl
  | _ => exact .as .nothing fun _ => rfl

theorem VerificationType.layout_moves :
    VerificationType.layout.Moves pool move (VerificationType.moved move) :=
  .as (.tagged (fun _ _ => rfl) fun kind => .seq (.constant kind) kind.layout_moves) fun _ => rfl

theorem FrameKind.layout_moves (kind : FrameKind) :
    kind.layout.Moves pool move (FrameBody.moved move) := by
  have type : VerificationType.layout.Moves pool move (VerificationType.moved move) :=
    VerificationType.layout_moves
  cases kind with
  | same => exact .as .nothing fun _ => rfl
  | oneItem => exact .as type fun _ => rfl
  | oneItemExtended => exact .as (.seq .word type) fun _ => rfl
  | chop | sameExtended => exact .as .word fun _ => rfl
  | append locals => exact .as (.seq .word (.times locals type)) fun _ => rfl
  | full => exact .as (.seq .word (.seq (.counted type) (.counted type))) fun _ => rfl

theorem Frame.layout_moves : Frame.layout.Moves pool move (Frame.moved move) :=
  .as (.tagged (fun _ _ => rfl) FrameKind.layout_moves) fun _ => rfl

end Frames

section Attributes

variable {element : Layout Element} {attributes : Layout Table}

theorem Handler.layout_moves : Handler.layout.Moves pool move (Handler.moved move) :=
  .as (.seq .word (.seq .word (.seq .word (.index _)))) fun _ => rfl

theorem InnerClass.layout_moves : InnerClass.layout.Moves pool move (InnerClass.moved move) :=
  .as (.seq (.index _) (.seq (.index _) (.seq (.index _) (.flags _)))) fun _ => rfl

theorem LineNumber.layout_moves : LineNumber.layout.Moves pool move (LineNumber.moved move) :=
  .as (.seq .word .word) fun _ => rfl

theorem LocalVariable.layout_moves :
    LocalVariable.layout.Moves pool move (LocalVariable.moved move) :=
  .as (.seq .word (.seq .word (.seq (.index _) (.seq (.index _) .word)))) fun _ => rfl

theorem BootstrapMethod.layout_moves :
    BootstrapMethod.layout.Moves pool move (BootstrapMethod.moved move) :=
  .as (.seq (.index _) (.counted (.index _))) fun _ => rfl

theorem Parameter.layout_moves : Parameter.layout.Moves pool move (Parameter.moved move) :=
  .as (.seq (.index _) (.flags _)) fun _ => rfl

theorem Requirement.layout_moves : Requirement.layout.Moves pool move (Requirement.moved move) :=
  .as (.seq (.index _) (.seq (.flags _) (.index _))) fun _ => rfl

theorem PackageDirective.layout_moves :
    PackageDirective.layout.Moves pool move (PackageDirective.moved move) :=
  .as (.seq (.index _) (.seq (.flags _) (.counted (.index _)))) fun _ => rfl

theorem Provision.layout_moves : Provision.layout.Moves pool move (Provision.moved move) :=
  .as (.seq (.index _) (.counted (.index _))) fun _ => rfl

theorem ModuleInfo.layout_moves : ModuleInfo.layout.Moves pool move (ModuleInfo.moved move) :=
  .as (.seq (.index _) (.seq (.flags _) (.seq (.index _) (.seq (.counted Requirement.layout_moves)
    (.seq (.counted PackageDirective.layout_moves) (.seq (.counted PackageDirective.layout_moves)
      (.seq (.counted (.index _)) (.counted Provision.layout_moves)))))))) fun _ => rfl

theorem Code.layout_moves (within : attributes.Moves pool move (Table.moved move)) :
    (Code.layout attributes).Moves pool move (Code.moved move) :=
  .as (.seq .word (.seq .word (.seq .code (.seq (.counted Handler.layout_moves) within))))
    fun _ => rfl

theorem Component.layout_moves (within : attributes.Moves pool move (Table.moved move)) :
    (Component.layout attributes).Moves pool move (Component.moved move) :=
  .as (.seq (.index _) (.seq (.index _) within)) fun _ => rfl

theorem Payload.layout_moves (values : element.Moves pool move (Element.moved move))
    (within : attributes.Moves pool move (Table.moved move)) (kind : AttributeKind) (length : Nat) :
    (Payload.layout element attributes kind length).Moves pool move (Payload.moved move) := by
  have annotated := Annotation.layoutWith_moves values
  cases kind with
  | constantValue | signature | sourceFile | moduleMainClass | nestHost =>
    exact .as (.index _) fun _ => rfl
  | code => exact .as (Code.layout_moves within) fun _ => rfl
  | stackMapTable => exact .as (.counted Frame.layout_moves) fun _ => rfl
  | exceptions | modulePackages | nestMembers | permittedSubclasses =>
    exact .as (.counted (.index _)) fun _ => rfl
  | innerClasses => exact .as (.counted InnerClass.layout_moves) fun _ => rfl
  | enclosingMethod => exact .as (.seq (.index _) (.index _)) fun _ => rfl
  | synthetic | deprecated => exact .as .nothing fun _ => rfl
  | sourceDebugExtension => exact .as (.looseText _) fun _ => rfl
  | lineNumberTable => exact .as (.counted LineNumber.layout_moves) fun _ => rfl
  | localVariableTable | localVariableTypeTable =>
    exact .as (.counted LocalVariable.layout_moves) fun _ => rfl
  | annotations => exact .as (.counted annotated) fun _ => rfl
  | parameterAnnotations => exact .as (.counted (.counted annotated)) fun _ => rfl
  | typeAnnotations =>
    exact .as (.counted ( TypeAnnotation.layout_moves annotated)) fun _ => rfl
  | annotationDefault => exact .as values fun _ => rfl
  | bootstrapMethods =>
    exact .as (.counted BootstrapMethod.layout_moves) fun _ => rfl
  | methodParameters => exact .as (.counted Parameter.layout_moves) fun _ => rfl
  | moduleInfo => exact .as ModuleInfo.layout_moves fun _ => rfl
  | recordInfo =>
    refine .as (.counted (Component.layout_moves within)) fun components => ?_
    change _ = Payload.moved move (.recordInfo ⟨components.count, components.items⟩)
    rw [Payload.moved, Component.movedAll_eq]
    rfl

end Attributes

/-- An attribute of a table with so many levels of nesting left, of `limit` in all. -/
def Attribute.layout (limit : Nat) : Nat → Layout Attribute
  | 0 => .entry (Payload.layout (Element.layout limit 0) (.tooDeep limit))
  | levels + 1 =>
    .entry (Payload.layout (Element.layout limit (levels + 1)) (.nested (Table.layout limit levels)))

theorem Table.layout_eq (limit levels : Nat) :
    Table.layout limit levels = .table (Attribute.layout limit levels) := by
  cases levels <;> rfl

/-- Tables lie in attributes and attributes in tables, one level further down each time. -/
theorem Attribute.layout_moves (limit levels : Nat) :
    (Attribute.layout limit levels).Moves pool move (Attribute.moved move) := by
  induction levels with
  | zero => exact entry (Payload.layout_moves (Element.layout_moves limit 0) (tooDeep limit _))
  | succ levels ih =>
    have below : (Table.layout limit levels).Moves pool move (Table.moved move) := by
      rw [Table.layout_eq]
      exact table ih
    exact entry (Payload.layout_moves (Element.layout_moves limit (levels + 1)) (nested below))

theorem Table.layout_moves (limit levels : Nat) :
    (Table.layout limit levels).Moves pool move (Table.moved move) := by
  rw [Table.layout_eq]
  exact table (Attribute.layout_moves limit levels)

/-- The difference of two offsets, added to a place. -/
def shift (first second place : Nat) : Nat := (place + ((second : Int) - first)).toNat

/-- Before the same bytes, cursors are apart by the difference of their offsets. -/
theorem Cursor.elsewhere_shift {first second : Cursor} (same : second.rest = first.rest) :
    first.Elsewhere (shift first.offset second.offset) second := by
  refine ⟨same, fun n => ?_⟩
  unfold shift
  omega

/-- Wherever the bytes of an attribute or of a table lie, decoding them ends alike, all offsets being
apart by the difference of the places: those of scalars, of instructions and of complaints. -/
theorem Attribute.decode_elsewhere (pool : Pool) (limit levels : Nat) (first second : State)
    (same : second.cursor.rest = first.cursor.rest) :
    let move := shift first.cursor.offset second.cursor.offset
    Alike move (Attribute.moved move) first second
        ((Attribute.layout limit levels).decode pool first)
        ((Attribute.layout limit levels).decode pool second) ∧
      Alike move (Table.moved move) first second ((Table.layout limit levels).decode pool first)
        ((Table.layout limit levels).decode pool second) := by
  have apart := Cursor.elsewhere_shift same
  exact ⟨Attribute.layout_moves limit levels first second apart,
    Table.layout_moves limit levels first second apart⟩

section Sample

/-- A pool that holds the name of code attributes and nothing else. -/
def codePool : Pool := ⟨#[some ⟨1, ⟨Tag.utf8.byte, 10⟩, .utf8 ⟨4, 11⟩ "Code"⟩]⟩

/-- A code attribute in which a `tableswitch` stands at 1, behind a `nop`. -/
def switchSample : Bytes := [
  0, 1, 0, 0, 0, 0x20, 0, 1, 0, 1, 0, 0, 0, 0x14,
  0, 0xaa, 0, 0, 0, 0, 0, 0, 0, 0, 0, 0, 0, 0, 0, 0, 0, 0, 0, 0, 0, 0, 0, 0]

/-- The switch keeps its padding although the whole attribute lies seven bytes further on. -/
theorem Attribute.decode_switchSample :
    let first : State := ⟨.startingAt 0 switchSample, #[]⟩
    let second : State := ⟨.startingAt 7 switchSample, #[]⟩
    second.cursor.rest = first.cursor.rest ∧
      ∃ decoded after other,
        (Attribute.layout 64 64).decode codePool first = .ok decoded after ∧
        (Attribute.layout 64 64).decode codePool second = .ok (decoded.moved (shift 0 7)) other := by
  refine ⟨rfl, ?_⟩
  have alike := (Attribute.decode_elsewhere codePool 64 64 ⟨.startingAt 0 switchSample, #[]⟩
    ⟨.startingAt 7 switchSample, #[]⟩ rfl).1
  have accepted : (match (Attribute.layout 64 64).decode codePool ⟨.startingAt 0 switchSample, #[]⟩ with
    | .ok .. => true
    | .error .. => false) = true := by decide +kernel
  generalize (Attribute.layout 64 64).decode codePool ⟨.startingAt 0 switchSample, #[]⟩ = one at *
  generalize (Attribute.layout 64 64).decode codePool ⟨.startingAt 7 switchSample, #[]⟩ = two at *
  cases alike with
  | ok => exact ⟨_, _, _, rfl, rfl⟩
  | error => cases accepted

end Sample
end ClassFormat
