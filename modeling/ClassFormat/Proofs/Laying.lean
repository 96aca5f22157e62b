import ClassFormat.Proofs.Writing
import ClassFormat.Proofs.Linking

/-! What is written from a description is laid out as the decoder expects it, wherever it is
put and as long as its demands are met. -/
namespace ClassFormat

/-- What is written is a value made from one that the layout writes as the same bytes. -/
def Put.Lays (pool : Pool) (layout : Layout α) (make : α → β) (put : Put β) : Prop :=
  ∀ offset, (∀ demand ∈ (put offset).demands, demand.Met pool) →
    ∃ value, (put offset).value = make value ∧ layout.Writes pool offset value (put offset).bytes

namespace Put.Lays

variable {pool : Pool}

theorem word {κ : Type} [width : Word κ] (value : κ) :
    Lays pool (Layout.word width) id (Put.word value) :=
  fun offset _ => ⟨⟨value, offset⟩, rfl, rfl, rfl⟩

theorem flagWord {set : FlagSet} (flags : Flags set) :
    Lays pool (Layout.flags set) id (Put.flagWord flags) :=
  fun offset _ => ⟨⟨flags, offset⟩, rfl, rfl, flags.bits, rfl, (Flags.truncate_bits flags).symm⟩

theorem index (target : Target) (value : UInt16) :
    Lays pool (Layout.index target) id (Put.index target value) := by
  intro offset met
  have here : target.Met pool value.toNat := met (.index value.toNat target) List.mem_cons_self
  exact ⟨⟨value, offset⟩, rfl, ⟨rfl, rfl⟩, Target.check_eq_ok.mpr here⟩

/-- A first part is followed by the others. -/
theorem bind {first : Layout α} {second : Layout β} {make : α × β → γ} {head : Put α}
    {tail : α → Put γ} (starts : Lays pool first id head)
    (goes : ∀ part, Lays pool second (fun rest => make (part, rest)) (tail part)) :
    Lays pool (first.seq second) make (head >>= tail) := by
  intro offset met
  obtain ⟨part, same, written⟩ := starts offset fun _ member => met _ (List.mem_append_left _ member)
  obtain ⟨rest, also, others⟩ := goes (head offset).value (offset + (head offset).bytes.length)
    fun _ member => met _ (List.mem_append_right _ member)
  obtain rfl : (head offset).value = part := same
  exact ⟨((head offset).value, rest), also, _, _, rfl, written, others⟩

/-- What has been written is made into a value. -/
theorem last {layout : Layout α} {make : α → β} {put : Put α} (whole : Lays pool layout id put) :
    Lays pool layout make (put >>= fun value => pure (make value)) := by
  intro offset met
  obtain ⟨value, same, written⟩ := whole offset fun _ member => met _ (List.mem_append_left _ member)
  obtain rfl : (put offset).value = value := same
  refine ⟨(put offset).value, rfl, ?_⟩
  change layout.Writes pool offset _ ((put offset).bytes ++ [])
  rw [List.append_nil]
  exact written

/-- Two indices that are checked once both are there. -/
theorem indexPair {first second : Target} {make : U2 × U2 → β} {one two : UInt16} :
    Lays pool (Layout.indexPair first second) make (do
      let a ← Put.index first one
      let b ← Put.index second two
      return make (a, b)) := by
  intro offset met
  have here : first.Met pool one.toNat := met (.index one.toNat first) (by exact List.mem_cons_self)
  have there : second.Met pool two.toNat :=
    met (.index two.toNat second) (List.mem_cons_of_mem _ List.mem_cons_self)
  refine ⟨(⟨one, offset⟩, ⟨two, offset + 2⟩), rfl, _, _, ?_, ⟨rfl, rfl⟩, ⟨rfl, rfl⟩,
    Target.check_eq_ok.mpr here, Target.check_eq_ok.mpr there⟩
  change Word.toBytes one ++ (Word.toBytes two ++ []) = _
  rw [List.append_nil]

theorem bindPair {first second : Target} {layout : Layout α} {make : (U2 × U2) × α → β}
    {one two : UInt16} {tail : U2 → U2 → Put β}
    (goes : ∀ a b, Lays pool layout (fun rest => make ((a, b), rest)) (tail a b)) :
    Lays pool ((Layout.indexPair first second).seq layout) make (do
      let a ← Put.index first one
      let b ← Put.index second two
      tail a b) := by
  intro offset met
  have here : first.Met pool one.toNat := met (.index one.toNat first) List.mem_cons_self
  have there : second.Met pool two.toNat :=
    met (.index two.toNat second) (List.mem_cons_of_mem _ List.mem_cons_self)
  let a : U2 := ⟨one, offset⟩
  let b : U2 := ⟨two, offset + 2⟩
  obtain ⟨rest, same, written⟩ := goes a b (offset + 2 + 2)
    fun _ member => met _ (List.mem_cons_of_mem _ (List.mem_cons_of_mem _ member))
  refine ⟨((a, b), rest), same, Word.toBytes one ++ Word.toBytes two, (tail a b (offset + 2 + 2)).bytes,
    (List.append_assoc _ _ _).symm, ?_, written⟩
  exact ⟨_, _, rfl, ⟨rfl, rfl⟩, ⟨rfl, rfl⟩, Target.check_eq_ok.mpr here, Target.check_eq_ok.mpr there⟩

/-- A part that is not written is what its layout says. -/
theorem unwritten [DecidableEq α] {value : α} {layout : Layout β} {make : α × β → γ} {put : Put γ}
    (others : Lays pool layout (fun rest => make (value, rest)) put) :
    Lays pool ((Layout.as (.constant value) .nothing).seq layout) make put := by
  intro offset met
  obtain ⟨rest, same, written⟩ := others offset met
  exact ⟨(value, rest), same, [], _, rfl, ⟨(), rfl, rfl⟩, written⟩

theorem as {shape : Shape α β} {layout : Layout α} {make : β → γ} {put : Put γ}
    (inner : Lays pool layout (fun value => make (shape.make value)) put) :
    Lays pool (layout.as shape) make put := by
  intro offset met
  obtain ⟨value, same, written⟩ := inner offset met
  exact ⟨shape.make value, same, value, rfl, written⟩

theorem nothing {make : Unit → α} : Lays pool Layout.nothing make (pure (make ())) :=
  fun _ _ => ⟨(), rfl, rfl⟩

theorem nested {layout : Layout α} {make : α → β} {put : Put β} (inner : Lays pool layout make put) :
    Lays pool layout.nested make put := inner

/-- A byte followed by what it selects. -/
theorem tagged {κ : Type} {tagging : Tagging κ} {body : κ → Layout α} {make : U1 × α → β}
    {byte : UInt8} {tail : U1 → Put β} (kind : κ) (selects : tagging.ofByte? byte = some kind)
    (goes : ∀ tag, Lays pool (body kind) (fun rest => make (tag, rest)) (tail tag)) :
    Lays pool (Layout.tagged tagging body) make (Put.word byte >>= tail) := by
  intro offset met
  obtain ⟨rest, same, written⟩ := goes ⟨byte, offset⟩ (offset + (Word.toBytes byte).length)
    fun _ member => met _ member
  rw [Word.length_toBytes] at same written
  refine ⟨(⟨byte, offset⟩, rest), ?_, kind, _, selects, rfl, ?_, written⟩
  · change (tail ⟨byte, offset⟩ (offset + (Word.toBytes byte).length)).value = _
    rw [Word.length_toBytes]
    exact same
  · change Word.toBytes byte ++ (tail ⟨byte, offset⟩ (offset + (Word.toBytes byte).length)).bytes = _
    rw [Word.length_toBytes, Word.toBytes_u1]
    rfl

theorem each {item : δ → Put α} {layout : Layout α} {items : List δ}
    (lays : ∀ one ∈ items, Lays pool layout id (item one)) (offset : Nat)
    (met : ∀ demand ∈ (all item items offset).demands, demand.Met pool) :
    (all item items offset).value.length = items.length ∧
      (layout.Writes pool).each offset (all item items offset).value (all item items offset).bytes := by
  induction items generalizing offset with
  | nil => exact ⟨rfl, rfl⟩
  | cons first rest ih =>
    obtain ⟨value, same, written⟩ := lays first List.mem_cons_self offset
      fun _ member => met _ (List.mem_append_left _ member)
    obtain ⟨size, others⟩ := ih (fun one member => lays one (List.mem_cons_of_mem _ member))
      (offset + (item first offset).bytes.length)
      fun _ member => met _ (List.mem_append_right _ (List.mem_append_left _ member))
    obtain rfl : (item first offset).value = value := same
    refine ⟨congrArg (· + 1) size, _, _, rfl, written, ?_⟩
    change (layout.Writes pool).each _ _ ((all item rest _).bytes ++ [])
    rw [List.append_nil]
    exact others

theorem times {item : δ → Put α} {layout : Layout α} (items : List δ)
    (lays : ∀ one ∈ items, Lays pool layout id (item one)) :
    Lays pool (layout.times items.length) id (all item items) :=
  fun offset met => ⟨_, rfl, each lays offset met⟩

theorem list {κ : Type} [width : Word κ] {item : δ → Put α} {layout : Layout α}
    (lays : ∀ one, Lays pool layout id (item one)) (items : Draft.Listed κ δ) :
    Lays pool (layout.counted width) id (Put.list item items) := by
  intro offset met
  let count : κ := Word.ofNat items.items.length
  have number : Word.toNat count = items.items.length := Word.toNat_ofNat _ items.short
  obtain ⟨size, written⟩ := each (fun one _ => lays one) (offset + (Word.toBytes count).length)
    fun _ member => met _ (List.mem_append_right [] (List.mem_append_left [] member))
  refine ⟨_, rfl, Word.toBytes count, _, rfl, ⟨rfl, rfl⟩, ?_, ?_⟩
  · exact size.trans number.symm
  · change (layout.Writes pool).each _ _ ((all item items.items _).bytes ++ [])
    rw [List.append_nil, ← Word.length_toBytes count]
    exact written

theorem looseText (chars : List Char) :
    Lays pool (Layout.looseText (Text.Modified.encode chars).length) id (Put.text chars) := by
  refine fun offset _ => ⟨_, rfl, rfl, ?_⟩
  change String.ofList chars = .ofList ((Text.Modified.decode? (Text.Modified.encode chars)).getD _)
  rw [Text.Modified.decode?_encode]
  rfl

end Put.Lays

namespace Draft

open Put (Lays)

variable {pool : Pool}

section Annotations

theorem AnnotationOf.lays {layout : Layout ClassFormat.Element}
    {element : ε → Put ClassFormat.Element}
    (inner : ∀ value, Lays pool layout id (element value)) (self : AnnotationOf ε) :
    Lays pool ( Annotation.layoutWith layout) id (self.put element) := by
  refine .as (.bind (.index _ _) fun _ => .last (.list (fun pair => ?_) _))
  exact .bind (.index _ _) fun _ => .last (inner _)

theorem ElementOf.lays {outer : Layout Annotation} {layout : Layout ClassFormat.Element}
    {nested : α → Put Annotation} {element : ε → Put ClassFormat.Element}
    (annotated : ∀ value, Lays pool outer id (nested value))
    (listed : ∀ value, Lays pool layout id (element value)) (self : ElementOf α ε) :
    Lays pool (Element.layoutWith outer layout) id (self.put nested element) := by
  cases self with
  | constant kind tag index => exact .as (.tagged _ tag.selects fun _ => .as (.last (.index _ _)))
  | enumeration =>
    refine .as (.tagged ElementKind.enumeration rfl fun _ => .as ?_)
    exact .indexPair
  | classText =>
    exact .as (.tagged ElementKind.classText rfl fun _ => .as (.last (.index _ _)))
  | annotated =>
    exact .as (.tagged ElementKind.annotated rfl fun _ => .as (.last (annotated _)))
  | array =>
    exact .as (.tagged ElementKind.array rfl fun _ => .as (.last (.list listed _)))

theorem Element.lays (limit levels : Nat) (self : Element levels) :
    Lays pool (ClassFormat.Element.layout limit levels) id (Element.put levels self) := by
  induction levels with
  | zero => exact ElementOf.lays nofun nofun self
  | succ levels ih =>
    exact ElementOf.lays (fun value => .nested (AnnotationOf.lays ih value))
      (fun value => .nested (ih value)) self

theorem LocalRange.lays (range : LocalRange) : Lays pool (.as
    { make := fun (start, length, index) => ⟨start, length, index⟩
      parts? := fun range => some (range.start, range.length, range.index) }
    (.seq .u2 (.seq .u2 .u2))) id range.put :=
  .as (.bind (.word _) fun _ => .bind (.word _) fun _ => .last (.word _))

theorem TypeTarget.lays (self : TypeTarget) :
    Lays pool (.tagged ⟨TargetKind.ofByte?, .unknownTarget⟩ TargetKind.layout) id self.put := by
  cases self with
  | typeParameter type | instruction type =>
    exact .tagged _ type.selects fun _ => .as (.last (.word _))
  | typeParameterBound type | typeArgument type =>
    exact .tagged _ type.selects fun _ => .as (.bind (.word _) fun _ => .last (.word _))
  | empty type => exact .tagged _ type.selects fun _ => .as .nothing
  | localVariable type => exact .tagged _ type.selects fun _ => .as (.last (.list LocalRange.lays _))
  | superType => exact .tagged TargetKind.superType rfl fun _ => .as (.last (.word _))
  | formalParameter =>
    exact .tagged TargetKind.formalParameter rfl fun _ => .as (.last (.word _))
  | throws => exact .tagged TargetKind.throws rfl fun _ => .as (.last (.word _))
  | catchType => exact .tagged TargetKind.catchType rfl fun _ => .as (.last (.word _))

theorem PathStep.lays (step : PathStep) : Lays pool ClassFormat.PathStep.layout id step.put := by
  have selects : PathKind.ofByte? (UInt8.ofNat step.kind.number) = some step.kind := by
    cases step.kind <;> rfl
  exact .as (.tagged _ selects fun _ => .unwritten (.last (.word _)))

theorem TypeAnnotationOf.lays {layout : Layout ClassFormat.Element}
    {element : ε → Put ClassFormat.Element}
    (inner : ∀ value, Lays pool layout id (element value)) (self : TypeAnnotationOf ε) :
    Lays pool ( TypeAnnotation.layout <| Annotation.layoutWith layout) id (self.put element) :=
  .as (.bind self.target.lays fun _ => .bind (.list PathStep.lays _) fun _ =>
    .last (self.content.lays inner))

end Annotations

section Frames

theorem VerificationType.lays (self : VerificationType) :
    Lays pool ClassFormat.VerificationType.layout id self.put := by
  cases self with
  | bare kind alone =>
    cases kind with
    | object | uninitialized => cases alone
    | top => exact .as (.tagged VerificationKind.top rfl fun _ => .unwritten (.as .nothing))
    | integer =>
      exact .as (.tagged VerificationKind.integer rfl fun _ => .unwritten (.as .nothing))
    | float => exact .as (.tagged VerificationKind.float rfl fun _ => .unwritten (.as .nothing))
    | double => exact .as (.tagged VerificationKind.double rfl fun _ => .unwritten (.as .nothing))
    | long => exact .as (.tagged VerificationKind.long rfl fun _ => .unwritten (.as .nothing))
    | null => exact .as (.tagged VerificationKind.null rfl fun _ => .unwritten (.as .nothing))
    | uninitializedThis =>
      exact .as (.tagged VerificationKind.uninitializedThis rfl fun _ => .unwritten (.as .nothing))
  | object =>
    exact .as (.tagged VerificationKind.object rfl fun _ => .unwritten (.as (.last (.index _ _))))
  | uninitialized =>
    exact .as (.tagged VerificationKind.uninitialized rfl fun _ => .unwritten (.as (.last (.word _))))

theorem Frame.lays (frame : Frame) : Lays pool ClassFormat.Frame.layout id frame.put := by
  cases frame with
  | same type => exact .as (.tagged _ type.selects fun _ => .as .nothing)
  | oneItem type stack => exact .as (.tagged _ type.selects fun _ => .as (.last stack.lays))
  | oneItemExtended delta stack =>
    exact .as (.tagged FrameKind.oneItemExtended rfl fun _ =>
      .as (.bind (.word _) fun _ => .last stack.lays))
  | chop type => exact .as (.tagged _ type.selects fun _ => .as (.last (.word _)))
  | sameExtended =>
    exact .as (.tagged FrameKind.sameExtended rfl fun _ => .as (.last (.word _)))
  | append locals type =>
    exact .as (.tagged _ type.selects fun _ =>
      .as (.bind (.word _) fun _ => .last (.times locals fun one _ => one.lays)))
  | full =>
    exact .as (.tagged FrameKind.full rfl fun _ => .as (.bind (.word _) fun _ =>
      .bind (.list VerificationType.lays _) fun _ => .last (.list VerificationType.lays _)))

end Frames

section Attributes

theorem Handler.lays (handler : Handler) : Lays pool ClassFormat.Handler.layout id handler.put :=
  .as (.bind (.word _) fun _ => .bind (.word _) fun _ => .bind (.word _) fun _ => .last (.index _ _))

theorem InnerClass.lays (info : InnerClass) : Lays pool ClassFormat.InnerClass.layout id info.put :=
  .as (.bind (.index _ _) fun _ => .bind (.index _ _) fun _ => .bind (.index _ _) fun _ =>
    .last (.flagWord _))

theorem LineNumber.lays (line : LineNumber) : Lays pool ClassFormat.LineNumber.layout id line.put :=
  .as (.bind (.word _) fun _ => .last (.word _))

theorem LocalVariable.lays (item : LocalVariable) :
    Lays pool ClassFormat.LocalVariable.layout id item.put :=
  .as (.bind (.word _) fun _ => .bind (.word _) fun _ => .bind (.index _ _) fun _ =>
    .bind (.index _ _) fun _ => .last (.word _))

theorem BootstrapMethod.lays (method : BootstrapMethod) :
    Lays pool ClassFormat.BootstrapMethod.layout id method.put :=
  .as (.bind (.index _ _) fun _ => .last (.list (.index _) _))

theorem Parameter.lays (parameter : Parameter) :
    Lays pool ClassFormat.Parameter.layout id parameter.put :=
  .as (.bind (.index _ _) fun _ => .last (.flagWord _))

theorem Requirement.lays (requirement : Requirement) :
    Lays pool ClassFormat.Requirement.layout id requirement.put :=
  .as (.bind (.index _ _) fun _ => .bind (.flagWord _) fun _ => .last (.index _ _))

theorem PackageDirective.lays (directive : PackageDirective) :
    Lays pool ClassFormat.PackageDirective.layout id directive.put :=
  .as (.bind (.index _ _) fun _ => .bind (.flagWord _) fun _ => .last (.list (.index _) _))

theorem Provision.lays (provision : Provision) :
    Lays pool ClassFormat.Provision.layout id provision.put :=
  .as (.bind (.index _ _) fun _ => .last (.list (.index _) _))

theorem ModuleInfo.lays (info : ModuleInfo) : Lays pool ClassFormat.ModuleInfo.layout id info.put :=
  .as (.bind (.index _ _) fun _ => .bind (.flagWord _) fun _ => .bind (.index _ _) fun _ =>
    .bind (.list Requirement.lays _) fun _ => .bind (.list PackageDirective.lays _) fun _ =>
      .bind (.list PackageDirective.lays _) fun _ => .bind (.list (.index _) _) fun _ =>
        .last (.list Provision.lays _))

/-- Forms that fit one behind the other are cut into the instructions they are. -/
theorem each_placed (base pc : Nat) (forms : List Instruction.Form) (fit : FitFrom pc forms) :
    (Instruction.grammar base).each pc (placed base pc forms)
      (forms.flatMap fun form => form.opcode :: form.operands) := by
  induction forms generalizing pc with
  | nil => rfl
  | cons form rest ih =>
    refine ⟨_, _, rfl, ⟨form, fit.1, rfl, rfl⟩, ?_⟩
    have width : pc + (form.opcode :: form.operands).length = pc + 1 + form.operands.length := by
      rw [List.length_cons, Nat.add_assoc, Nat.add_comm 1]
    rw [width]
    exact ih _ fit.2

theorem code_lays {forms : List Instruction.Form} (fit : FitFrom 0 forms) :
    Lays pool .code id (Put.measured (code forms)) := by
  intro offset met
  have short : (forms.flatMap fun form => form.opcode :: form.operands).length < Nat.pow 256 4 :=
    met (.length _) List.mem_cons_self
  have number := (UInt32.toNat_ofNat_of_lt' short).symm
  refine ⟨_, rfl, _, rfl, rfl, number, Instruction.decodeAll_eq_ok.mpr ?_⟩
  exact each_placed (offset + 4) 0 forms fit

section Nested

variable {attributes : Layout ClassFormat.Table} {table : τ → Put ClassFormat.Table}
  {layout : Layout ClassFormat.Element} {element : ε → Put ClassFormat.Element}

theorem CodeOf.lays (nested : ∀ held, Lays pool attributes id (table held)) (self : CodeOf τ) :
    Lays pool (Code.layout attributes) id (self.put table) :=
  .as (.bind (.word _) fun _ => .bind (.word _) fun _ => .bind (code_lays self.fit) fun _ =>
    .bind (.list Handler.lays _) fun _ => .last (nested _))

theorem ComponentOf.lays (nested : ∀ held, Lays pool attributes id (table held))
    (self : ComponentOf τ) :
    Lays pool (Component.layout attributes) id (self.put table) :=
  .as (.bind (.index _ _) fun _ => .bind (.index _ _) fun _ => .last (nested _))

/-- Only text that fills its attribute depends on the length. -/
theorem PayloadOf.lays (valued : ∀ value, Lays pool layout id (element value))
    (nested : ∀ held, Lays pool attributes id (table held)) (self : PayloadOf ε τ) (length : Nat)
    (fills : ∀ chars, self = .sourceDebugExtension chars →
      length = (ClassFormat.Text.Modified.encode chars).length) :
    Lays pool (Payload.layout layout attributes self.kind length) id (self.put element table) := by
  cases self with
  | constantValue | signature | sourceFile | moduleMainClass | nestHost =>
    exact .as (.last (.index _ _))
  | code body => exact .as (.last (body.lays nested))
  | stackMapTable => exact .as (.last (.list Frame.lays _))
  | exceptions | modulePackages | nestMembers | permittedSubclasses =>
    exact .as (.last (.list (.index _) _))
  | innerClasses => exact .as (.last (.list InnerClass.lays _))
  | enclosingMethod => exact .as (.bind (.index _ _) fun _ => .last (.index _ _))
  | synthetic | deprecated => exact .as .nothing
  | sourceDebugExtension chars =>
    rw [fills chars rfl]
    exact .as (.last (.looseText chars))
  | lineNumberTable => exact .as (.last (.list LineNumber.lays _))
  | localVariableTable | localVariableTypeTable =>
    exact .as (.last (.list LocalVariable.lays _))
  | annotations => exact .as (.last (.list (AnnotationOf.lays valued) _))
  | parameterAnnotations =>
    exact .as (.last (.list (fun _ => .list (AnnotationOf.lays valued) _) _))
  | typeAnnotations => exact .as (.last (.list (TypeAnnotationOf.lays valued) _))
  | annotationDefault => exact .as (.last (valued _))
  | bootstrapMethods => exact .as (.last (.list BootstrapMethod.lays _))
  | methodParameters => exact .as (.last (.list Parameter.lays _))
  | moduleInfo info => exact .as (.last info.lays)
  | recordInfo => exact .as (.last (.list (ComponentOf.lays nested) _))

/-- The content of an attribute is what its name announces. -/
theorem ContentOf.lays (valued : ∀ value, Lays pool layout id (element value))
    (nested : ∀ held, Lays pool attributes id (table held)) (self : ContentOf ε τ) (offset : Nat)
    (met : ∀ demand ∈ (self.put element table offset).demands, demand.Met pool) (length : Nat)
    (size : (self.put element table offset).bytes.length = length) :
    match AttributeKind.ofName? self.name with
    | some kind => (Payload.layout layout attributes kind length).Writes pool offset
        (self.put element table offset).value (self.put element table offset).bytes
    | none => (self.put element table offset).value = .unknown := by
  cases self with
  | known payload =>
    rw [ContentOf.name, AttributeKind.ofName?_name]
    have fills (chars) (same : payload = .sourceDebugExtension chars) :
        length = (ClassFormat.Text.Modified.encode chars).length := by
      subst same
      rw [← size]
      exact congrArg List.length (List.append_nil _)
    obtain ⟨value, same, written⟩ := payload.lays valued nested length fills offset met
    obtain rfl : (payload.put element table offset).value = value := same
    exact written
  | unknown name meaningless bytes =>
    rw [ContentOf.name, AttributeKind.ofName?_eq_none.mpr meaningless]
    rfl

theorem AttributeOf.lays (valued : ∀ value, Lays pool layout id (element value))
    (nested : ∀ held, Lays pool attributes id (table held)) (self : AttributeOf ε τ) :
    Lays pool (.entry (Payload.layout layout attributes)) id (self.put element table) := by
  intro offset met
  let content := self.content.put element table (offset + 2 + 4)
  have named : pool.text self.nameIndex.toNat = .ok self.name :=
    met (.name self.nameIndex.toNat self.name) List.mem_cons_self
  have short : content.bytes.length < Nat.pow 256 4 :=
    met (.length _) (List.mem_cons_of_mem _ List.mem_cons_self)
  have number := (UInt32.toNat_ofNat_of_lt' short).symm
  have inner (demand) (member : demand ∈ content.demands) : demand.Met pool :=
    met demand (List.mem_cons_of_mem _ (List.mem_cons_of_mem _ (List.mem_append_left _ member)))
  have meant := ContentOf.lays valued nested self.content (offset + 2 + 4) inner _ number
  refine ⟨_, rfl, content.bytes, rfl, rfl, ?_, named, number, meant⟩
  exact congrArg (Word.toBytes self.nameIndex ++ ·) (List.append_nil _)

theorem names_put (items : List (AttributeOf ε τ)) (offset : Nat) :
    (Put.all (AttributeOf.put element table) items offset).value.map Attribute.name =
      items.map AttributeOf.name := by
  induction items generalizing offset with
  | nil => rfl
  | cons item rest ih => exact congrArg (item.name :: ·) (ih _)

/-- A table keeps all attributes that are written for it, since no two have the same name. -/
theorem TableOf.lays (valued : ∀ value, Lays pool layout id (element value))
    (nested : ∀ held, Lays pool attributes id (table held)) (self : TableOf ε τ) :
    Lays pool (.table (.entry (Payload.layout layout attributes))) id (self.put element table) := by
  intro offset met
  let all := Put.all (AttributeOf.put element table) self.attributes.items (offset + 2)
  have number : (UInt16.ofNat self.attributes.items.length).toNat = self.attributes.items.length :=
    UInt16.toNat_ofNat_of_lt' self.attributes.short
  have lays (one) (_ : one ∈ self.attributes.items) : Lays pool
      (.entry (Payload.layout layout attributes)) id (one.put element table) := one.lays valued nested
  obtain ⟨size, written⟩ := Put.Lays.each lays (offset + 2)
    fun _ member => met _ (List.mem_append_right [] (List.mem_append_left [] member))
  have distinct : (all.value.map Attribute.name).Nodup := by
    rw [names_put]
    exact self.distinct
  refine ⟨_, rfl, all.value, all.bytes, rfl, ?_, size.trans number.symm, ?_, written⟩
  · exact congrArg (Word.toBytes (UInt16.ofNat self.attributes.items.length) ++ ·) (List.append_nil _)
  · exact (Table.collect_of_nodup [] distinct).symm

end Nested

theorem Table.lays (limit levels : Nat) (self : Table levels) :
    Lays pool (ClassFormat.Table.layout limit levels) id (Table.put levels self) := by
  induction levels with
  | zero => exact TableOf.lays (Element.lays limit 0) nofun self
  | succ levels ih =>
    exact TableOf.lays (Element.lays limit (levels + 1)) (fun held => .nested (ih held)) self

end Attributes

theorem Member.lays {limit : Nat} {set : FlagSet} (member : Member limit set) :
    Lays pool (ClassFormat.Member.layout set (ClassFormat.Table.layout limit limit)) id member.put :=
  .as (.bind (.flagWord _) fun _ => .bindPair fun _ _ => .last (Table.lays limit limit _))

theorem Body.lays {limit : Nat} (body : Body limit) :
    Lays pool (ClassFormat.Body.layout (ClassFormat.Table.layout limit limit)) id body.put :=
  .as (.bind (.flagWord _) fun _ => .bind (.index _ _) fun _ => .bind (.index _ _) fun _ =>
    .bind (.list (.index _) _) fun _ => .bind (.list Member.lays _) fun _ =>
      .bind (.list Member.lays _) fun _ => .last (Table.lays limit limit _))

end Draft
end ClassFormat
