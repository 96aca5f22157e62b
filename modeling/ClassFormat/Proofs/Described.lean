import ClassFormat.Proofs.Spelling

/-! Every layout of the format is described by the parts listed for its values. -/
namespace ClassFormat

open Layout (Describes)
open Layout.Describes

variable {pool : Pool}

/-- A layout that writes nothing at all has no values to describe. -/
theorem Layout.Describes.tooDeep (limit : Nat) (parts : α → List Part) :
    (Layout.tooDeep limit).Describes pool parts := fun _ _ _ written => written.elim

section Pool

theorem int32_toInt (word : Int32) :
    word.toInt = (Bytes.toNat (Word.toBytes word) : Int).bmod (Nat.pow 256 4) := by
  rw [Word.toNat_toBytes, ← Int32.toInt_toBitVec, BitVec.toInt_eq_toNat_bmod]
  rfl

theorem int64_toInt (word : Int64) :
    word.toInt = (Bytes.toNat (Word.toBytes word) : Int).bmod (Nat.pow 256 8) := by
  rw [Word.toNat_toBytes, ← Int64.toInt_toBitVec, BitVec.toInt_eq_toNat_bmod]
  rfl

theorem Layout.Describes.int32 : (Layout.word inferInstance).Describes pool
    fun word : Scalar Int32 => [.signed word.offset 4 word.value.toInt] := by
  rintro offset word _ ⟨rfl, rfl⟩
  exact Grammar.each_singleton.mpr ⟨rfl, Word.length_toBytes _, (int32_toInt _).symm⟩

theorem Layout.Describes.int64 : (Layout.word inferInstance).Describes pool
    fun word : Scalar Int64 => [.signed word.offset 8 word.value.toInt] := by
  rintro offset word _ ⟨rfl, rfl⟩
  exact Grammar.each_singleton.mpr ⟨rfl, Word.length_toBytes _, (int64_toInt _).symm⟩

/-- No constant is laid out with regard to a pool. -/
theorem Constant.writes_eq (index : Nat) (kind : Tag) :
    (Constant.layout index kind).Writes pool = (Constant.layout index kind).Writes .empty := by
  cases kind <;> rfl

theorem Entry.writes_eq (pool : Pool) (index : Nat) :
    (Entry.layout index).Writes pool = (Entry.layout index).Writes .empty := by
  simp only [Entry.layout, Layout.Writes, Constant.writes_eq]

theorem Constant.tag_of_writes {index offset : Nat} {kind : Tag} {constant : Constant} {bytes : Bytes}
    (written : (Constant.layout index kind).Writes pool offset constant bytes) :
    constant.tag = kind := by
  cases kind <;> obtain ⟨_, rfl, _⟩ := written <;> rfl

theorem Constant.described (index : Nat) (kind : Tag) :
    (Constant.layout index kind).Describes pool Constant.parts := by
  cases kind with
  | utf8 => exact .as (.text index) fun _ => rfl
  | integer => exact .as .int32 fun _ => rfl
  | float | double => exact .as .word fun _ => rfl
  | long => exact .as .int64 fun _ => rfl
  | classRef | string | methodType | moduleRef | packageRef => exact .as .word fun _ => rfl
  | fieldRef | methodRef | interfaceMethodRef | nameAndType | dynamic | invokeDynamic | methodHandle =>
    exact .as (.seq .word .word) fun _ => rfl

theorem Tag.byte_of_ofByte? {number : UInt8} {tag : Tag} (known : Tag.ofByte? number = some tag) :
    tag.byte = number := Tag.ofByte?_eq_some_iff.mp known

theorem Entry.described (index : Nat) : (Entry.layout index).Describes pool Entry.parts := by
  refine .as (.tagged (fun tag constant => .selector tag constant.tag.byte.toNat)
    (fun _ constant => constant.parts) ?_) fun _ => rfl
  intro kind tag offset constant bytes known written
  have same := Constant.tag_of_writes written
  refine ⟨⟨rfl, rfl, ?_⟩, Constant.described index kind _ _ _ written⟩
  rw [same, Tag.byte_of_ofByte? known]

end Pool

section Annotations

theorem Annotation.partsOfPairs_eq (pairs : List (U2 × Element)) :
    Annotation.partsOfPairs pairs =
      pairs.flatMap fun pair => [.references .utf8 pair.1] ++ pair.2.parts := by
  induction pairs with
  | nil => rfl
  | cons pair rest ih => simp [ Annotation.partsOfPairs, ih]

theorem Element.partsOfAll_eq (values : List Element) :
    Element.partsOfAll values = values.flatMap Element.parts := by
  induction values with
  | nil => rfl
  | cons value rest ih => simp [Element.partsOfAll, ih]

theorem Annotation.described {element : Layout Element} (inner : element.Describes pool Element.parts) :
    ( Annotation.layoutWith element).Describes pool Annotation.parts := by
  refine .as (.seq (.index _) (.counted (.seq (.index _) inner))) fun value => ?_
  change Annotation.parts ⟨value.1, ⟨value.2.count, value.2.items⟩⟩ = _
  rw [ Annotation.parts, Annotation.partsOfPairs_eq]
  rfl

theorem Element.constantTarget_eq {tag : U1} {kind : Tag}
    (known : ElementKind.ofByte? tag.value = some (.constant kind)) :
    Element.constantTarget tag = .oneOf [kind] := by
  unfold ElementKind.ofByte? at known
  unfold Element.constantTarget
  split at known <;> simp_all

theorem ElementValue.described {inner : Layout Annotation} {element : Layout Element} {tag : U1}
    (annotated : inner.Describes pool Annotation.parts) (listed : element.Describes pool Element.parts)
    (kind : ElementKind) (known : ElementKind.ofByte? tag.value = some kind) :
    (kind.layout inner element).Describes pool (ElementValue.parts tag) := by
  cases kind with
  | constant kind =>
    refine .as (.index _) fun index => ?_
    rw [ElementValue.parts, Element.constantTarget_eq known]
  | enumeration => exact .as (.indexPair _ _) fun _ => rfl
  | classText => exact .as (.index _) fun _ => rfl
  | annotated => exact .as annotated fun _ => rfl
  | array =>
    refine .as (.counted listed) fun values => ?_
    change ElementValue.parts tag (.array ⟨values.count, values.items⟩) = _
    rw [ElementValue.parts, Element.partsOfAll_eq]
    rfl

theorem Element.describedWith {inner : Layout Annotation} {element : Layout Element}
    (annotated : inner.Describes pool Annotation.parts) (listed : element.Describes pool Element.parts) :
    (Element.layoutWith inner element).Describes pool Element.parts := by
  refine .as (.tagged (fun tag _ => .number tag) (fun tag value => value.parts tag) ?_) fun _ => rfl
  intro kind tag offset value bytes known written
  exact ⟨byte tag, ElementValue.described annotated listed kind known _ _ _ written⟩

/-- However many levels are left, the values that can be written are described alike. -/
theorem Element.described (limit levels : Nat) :
    (Element.layout limit levels).Describes pool Element.parts := by
  induction levels with
  | zero => exact Element.describedWith (.tooDeep limit _) (.tooDeep limit _)
  | succ levels ih => exact Element.describedWith ( Annotation.described ih) ih

theorem TypeTarget.described (kind : TargetKind) : kind.layout.Describes pool TypeTarget.parts := by
  cases kind with
  | empty => exact .as .nothing fun _ => rfl
  | typeParameterBound | typeArgument => exact .as (.seq .word .word) fun _ => rfl
  | localVariable =>
    refine .as (.counted ?_) fun _ => rfl
    exact .as (.seq .word (.seq .word .word)) fun _ => rfl
  | typeParameter | superType | formalParameter | throws | catchType | instruction =>
    exact .as .word fun _ => rfl

theorem PathKind.number_of_ofByte? {byte : UInt8} {kind : PathKind}
    (known : PathKind.ofByte? byte = some kind) : byte.toNat = kind.number := by
  unfold PathKind.ofByte? PathKind.all at known
  match size : byte.toNat, known with
  | 0, rfl | 1, rfl | 2, rfl | 3, rfl => rfl

theorem PathStep.described : PathStep.layout.Describes pool PathStep.parts := by
  refine .as (.tagged (fun tag rest => .selector tag rest.1.number)
    (fun _ rest => [.number rest.2]) ?_) fun _ => rfl
  rintro kind tag offset value bytes known ⟨_, ys, rfl, ⟨_, same, rfl⟩, written⟩
  rw [same]
  exact ⟨⟨rfl, rfl, PathKind.number_of_ofByte? known⟩, word _ _ _ written⟩

theorem TypeAnnotation.described {inner : Layout Annotation}
    (annotated : inner.Describes pool Annotation.parts) :
    ( TypeAnnotation.layout inner).Describes pool TypeAnnotation.parts :=
  .as (.seq (.selected TypeTarget.described) (.seq (.counted PathStep.described) annotated)) fun _ => rfl

end Annotations

section Frames

theorem VerificationKind.number_of_ofByte? {byte : UInt8} {kind : VerificationKind}
    (known : VerificationKind.ofByte? byte = some kind) : byte.toNat = kind.number := by
  unfold VerificationKind.ofByte? VerificationKind.all at known
  match size : byte.toNat, known with
  | 0, rfl | 1, rfl | 2, rfl | 3, rfl | 4, rfl | 5, rfl | 6, rfl | 7, rfl | 8, rfl => rfl

theorem VerificationType.described : VerificationType.layout.Describes pool VerificationType.parts := by
  refine .as (.tagged (fun tag rest => .selector tag rest.1.number)
    (fun tag rest => (VerificationType.parts ⟨tag, rest.1, rest.2⟩).tail) ?_) fun _ => rfl
  rintro kind tag offset ⟨found, reference⟩ bytes known ⟨_, ys, rfl, ⟨_, same, rfl⟩, written⟩
  obtain rfl : found = kind := same
  refine ⟨⟨rfl, rfl, VerificationKind.number_of_ofByte? known⟩, ?_⟩
  cases found with
  | object =>
    obtain ⟨place, rfl, written⟩ := written
    exact Layout.Describes.index _ _ _ _ written
  | uninitialized =>
    obtain ⟨place, rfl, written⟩ := written
    exact word _ _ _ written
  | _ =>
    obtain ⟨_, rfl, rfl⟩ := written
    rfl

theorem FrameBody.described (kind : FrameKind) : kind.layout.Describes pool FrameBody.parts := by
  cases kind with
  | same => exact .as .nothing fun _ => rfl
  | oneItem => exact .as VerificationType.described fun _ => rfl
  | oneItemExtended => exact .as (.seq .word VerificationType.described) fun _ => rfl
  | chop | sameExtended => exact .as .word fun _ => rfl
  | append locals => exact .as (.seq .word (.times locals VerificationType.described)) fun _ => rfl
  | full =>
    exact .as (.seq .word (.seq (.counted VerificationType.described)
      (.counted VerificationType.described))) fun _ => rfl

theorem Frame.described : Frame.layout.Describes pool Frame.parts :=
  .as (.selected FrameBody.described) fun _ => rfl

end Frames

section Attributes

variable {element : Layout Element} {attributes : Layout Table}

theorem Handler.described : Handler.layout.Describes pool Handler.parts :=
  .as (.seq .word (.seq .word (.seq .word (.index _)))) fun _ => rfl

theorem InnerClass.described : InnerClass.layout.Describes pool InnerClass.parts :=
  .as (.seq (.index _) (.seq (.index _) (.seq (.index _) (.flags _)))) fun _ => rfl

theorem LineNumber.described : LineNumber.layout.Describes pool LineNumber.parts :=
  .as (.seq .word .word) fun _ => rfl

theorem LocalVariable.described : LocalVariable.layout.Describes pool LocalVariable.parts :=
  .as (.seq .word (.seq .word (.seq (.index _) (.seq (.index _) .word)))) fun _ => rfl

theorem BootstrapMethod.described : BootstrapMethod.layout.Describes pool BootstrapMethod.parts :=
  .as (.seq (.index _) (.counted (.index _))) fun _ => rfl

theorem Parameter.described : Parameter.layout.Describes pool Parameter.parts :=
  .as (.seq (.index _) (.flags _)) fun _ => rfl

theorem Requirement.described : Requirement.layout.Describes pool Requirement.parts :=
  .as (.seq (.index _) (.seq (.flags _) (.index _))) fun _ => rfl

theorem PackageDirective.described : PackageDirective.layout.Describes pool PackageDirective.parts :=
  .as (.seq (.index _) (.seq (.flags _) (.counted (.index _)))) fun _ => rfl

theorem Provision.described : Provision.layout.Describes pool Provision.parts :=
  .as (.seq (.index _) (.counted (.index _))) fun _ => rfl

theorem ModuleInfo.described : ModuleInfo.layout.Describes pool ModuleInfo.parts :=
  .as (.seq (.index _) (.seq (.flags _) (.seq (.index _) (.seq (.counted Requirement.described)
    (.seq (.counted PackageDirective.described) (.seq (.counted PackageDirective.described)
      (.seq (.counted (.index _)) (.counted Provision.described)))))))) fun _ => rfl

theorem Code.described (nested : attributes.Describes pool fun held => [.table held]) :
    (Code.layout attributes).Describes pool Code.parts :=
  .as (.seq .word (.seq .word (.seq .code (.seq (.counted Handler.described) nested)))) fun _ => rfl

theorem Component.described (nested : attributes.Describes pool fun held => [.table held]) :
    (Component.layout attributes).Describes pool Component.parts :=
  .as (.seq (.index _) (.seq (.index _) nested)) fun _ => rfl

/-- A payload lies right behind the declared length. -/
theorem Payload.described (valued : element.Describes pool Element.parts)
    (nested : attributes.Describes pool fun held => [.table held]) (kind : AttributeKind) (length : U4)
    (value : Payload) (bytes : Bytes)
    (written :
      (Payload.layout element attributes kind length.toNat).Writes pool length.stop value bytes) :
    (Part.grammar pool).each length.stop (value.parts length) bytes := by
  cases kind with
  | constantValue | signature | sourceFile | moduleMainClass | nestHost =>
    exact Describes.as (.index _) (fun _ => rfl) _ _ _ written
  | code => exact Describes.as (Code.described nested) (fun _ => rfl) _ _ _ written
  | stackMapTable => exact Describes.as (.counted Frame.described) (fun _ => rfl) _ _ _ written
  | exceptions | modulePackages | nestMembers | permittedSubclasses =>
    exact Describes.as (.counted (.index _)) (fun _ => rfl) _ _ _ written
  | innerClasses => exact Describes.as (.counted InnerClass.described) (fun _ => rfl) _ _ _ written
  | enclosingMethod => exact Describes.as (.seq (.index _) (.index _)) (fun _ => rfl) _ _ _ written
  | synthetic | deprecated => exact Describes.as .nothing (fun _ => rfl) _ _ _ written
  | sourceDebugExtension =>
    obtain ⟨text, rfl, written⟩ := written
    exact looseText _ _ _ _ written
  | lineNumberTable => exact Describes.as (.counted LineNumber.described) (fun _ => rfl) _ _ _ written
  | localVariableTable | localVariableTypeTable =>
    exact Describes.as (.counted LocalVariable.described) (fun _ => rfl) _ _ _ written
  | annotations =>
    exact Describes.as (.counted <| Annotation.described valued) (fun _ => rfl) _ _ _ written
  | parameterAnnotations =>
    exact Describes.as (.counted <| .counted <| Annotation.described valued) (fun _ => rfl) _ _ _ written
  | typeAnnotations =>
    exact Describes.as (.counted <| TypeAnnotation.described <| Annotation.described valued)
      (fun _ => rfl) _ _ _ written
  | annotationDefault => exact Describes.as valued (fun _ => rfl) _ _ _ written
  | bootstrapMethods =>
    exact Describes.as (.counted BootstrapMethod.described) (fun _ => rfl) _ _ _ written
  | methodParameters => exact Describes.as (.counted Parameter.described) (fun _ => rfl) _ _ _ written
  | moduleInfo => exact Describes.as ModuleInfo.described (fun _ => rfl) _ _ _ written
  | recordInfo =>
    exact Describes.as (.counted (Component.described nested)) (fun _ => rfl) _ _ _ written

theorem Attribute.described (valued : element.Describes pool Element.parts)
    (nested : attributes.Describes pool fun held => [.table held]) :
    (Layout.entry (Payload.layout element attributes)).Describes pool Attribute.parts := by
  rintro offset self _ ⟨content, rfl, place, rfl, named, size, written⟩
  refine ⟨_, _, rfl, ⟨rfl, rfl, named⟩, _, content, rfl,
    ⟨place, Word.length_toBytes _, Word.toNat_toBytes _⟩, ?_⟩
  have start : self.nameIndex.offset + (Word.toBytes self.nameIndex.value).length +
      (Word.toBytes self.length.value).length = self.length.stop := by
    rw [Word.length_toBytes, Word.length_toBytes, Scalar.stop, place]
    rfl
  have behind : self.nameIndex.offset + 6 = self.length.stop := by
    rw [Scalar.stop, place]
    rfl
  rw [start]
  rw [behind] at written
  split at written
  next kind known => exact Payload.described valued nested kind self.length _ _ written
  next unknown =>
    rw [written]
    exact Grammar.each_singleton.mpr ⟨rfl, size⟩

theorem Table.described (limit levels : Nat) :
    (Table.layout limit levels).Describes pool fun held => [.table held] := by
  intro offset held bytes written
  refine Grammar.each_singleton.mpr ⟨?_, limit, levels, written⟩
  cases levels <;> exact written.choose_spec.choose_spec.1

/-- At every level a table holds payloads whose values and tables are described. -/
theorem Table.exists_layout (pool : Pool) (limit levels : Nat) : ∃ attributes : Layout Table,
    Table.layout limit levels =
      .table (.entry (Payload.layout (Element.layout limit levels) attributes)) ∧
    attributes.Describes pool fun held => [.table held] := by
  cases levels with
  | zero => exact ⟨.tooDeep limit, rfl, .tooDeep limit _⟩
  | succ below => exact ⟨.nested (Table.layout limit below), rfl, Table.described limit below⟩

theorem Member.described (set : FlagSet) (nested : attributes.Describes pool fun held => [.table held]) :
    (Member.layout set attributes).Describes pool Member.parts :=
  .as (.seq (.flags _) (.seq (.indexPair _ _) nested)) fun _ => rfl

theorem Body.described (nested : attributes.Describes pool fun held => [.table held]) :
    (Body.layout attributes).Describes pool Body.parts :=
  .as (.seq (.flags _) (.seq (.index _) (.seq (.index _) (.seq (.counted (.index _))
    (.seq (.counted (Member.described _ nested)) (.seq (.counted (Member.described _ nested))
      nested)))))) fun _ => rfl

end Attributes
end ClassFormat
