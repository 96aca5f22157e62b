import ClassFormat.Proofs.Hidden

/-! Decoding is indifferent to what it does not keep. Most parts of the format hide nothing; the
others are gone through as they are laid out, attribute tables down to the last level. -/
namespace ClassFormat

open Layout (Keeps)
open ClassFormat.Part (number references)

section Rigid

theorem Constant.rigid (constant : Constant) : Rigid constant.parts := by
  cases constant <;> simp [Constant.parts, number, Part.isRigid]

theorem Entry.rigid (entry : Entry) : Rigid entry.parts := rigid_cons.mpr ⟨rfl, entry.constant.rigid⟩

mutual

theorem ElementValue.rigid (tag : U1) : (value : ElementValue) → Rigid (value.parts tag)
  | .constant _ | .classText _ | .enumeration .. => by
    simp [ElementValue.parts, references, Part.isRigid]
  | .annotated content => by
    rw [ElementValue.parts]
    exact Annotation.rigid content
  | .array ⟨_, values⟩ => by
    rw [ElementValue.parts]
    exact rigid_cons.mpr ⟨rfl, Element.rigid_all values⟩

theorem Element.rigid : (element : Element) → Rigid element.parts
  | ⟨tag, value⟩ => by
    rw [Element.parts]
    exact rigid_cons.mpr ⟨rfl, ElementValue.rigid tag value⟩

theorem Element.rigid_all : (values : List Element) → Rigid (Element.partsOfAll values)
  | [] => rigid_nil
  | value :: rest => by
    rw [Element.partsOfAll]
    exact rigid_append.mpr ⟨Element.rigid value, Element.rigid_all rest⟩

theorem Annotation.rigid : (content : Annotation) → Rigid content.parts
  | ⟨_, ⟨_, pairs⟩⟩ => by
    rw [ Annotation.parts]
    exact rigid_cons.mpr ⟨rfl, rigid_cons.mpr ⟨rfl, Annotation.rigid_pairs pairs⟩⟩

theorem Annotation.rigid_pairs : (pairs : List (U2 × Element)) → Rigid ( Annotation.partsOfPairs pairs)
  | [] => rigid_nil
  | (_, value) :: rest => by
    rw [ Annotation.partsOfPairs]
    exact rigid_cons.mpr ⟨rfl, rigid_append.mpr ⟨Element.rigid value, Annotation.rigid_pairs rest⟩⟩

end

theorem TypeTarget.rigid (target : TypeTarget) : Rigid target.parts := by
  cases target with
  | localVariable ranges =>
    exact rigid_counted (fun range => by simp [LocalRange.parts, number, Part.isRigid]) ranges
  | _ => simp [TypeTarget.parts, number, Part.isRigid]

theorem TypeAnnotation.rigid (whole : TypeAnnotation) : Rigid whole.parts := by
  have path : Rigid (whole.path.parts PathStep.parts) :=
    rigid_counted (fun step => by simp [PathStep.parts, number, Part.isRigid]) whole.path
  refine rigid_cons.mpr ⟨rfl, rigid_append.mpr ⟨whole.target.rigid, ?_⟩⟩
  exact rigid_append.mpr ⟨path, whole.annotation.rigid⟩

theorem VerificationType.rigid (type : VerificationType) : Rigid type.parts := by
  unfold VerificationType.parts
  split <;> simp [number, references, Part.isRigid]

theorem Frame.rigid (frame : Frame) : Rigid frame.parts := by
  have types (list : Counted UInt16 VerificationType) : Rigid (list.parts VerificationType.parts) :=
    rigid_counted VerificationType.rigid list
  refine rigid_cons.mpr ⟨rfl, ?_⟩
  cases frame.body with
  | oneItem stack => exact stack.rigid
  | oneItemExtended delta stack => exact rigid_cons.mpr ⟨rfl, stack.rigid⟩
  | append delta locals =>
    exact rigid_cons.mpr ⟨rfl, rigid_flatMap VerificationType.rigid locals⟩
  | full delta locals stack =>
    exact rigid_cons.mpr ⟨rfl, rigid_append.mpr ⟨types locals, types stack⟩⟩
  | _ => simp [FrameBody.parts, number, Part.isRigid]

/-- Whether there are flag words, attribute tables or bytes without a meaning in the payload. -/
def Payload.mayHide : Payload → Bool
  | code _ | innerClasses _ | methodParameters _ | moduleInfo _ | recordInfo _ | unknown => true
  | _ => false

theorem Payload.rigid (length : U4) {payload : Payload} (plain : payload.mayHide = false) :
    Rigid (payload.parts length) := by
  have index (target : Target) (list : Counted UInt16 U2) :
      Rigid (list.parts fun index => [.index index target]) :=
    rigid_counted (fun _ => rigid_cons.mpr ⟨rfl, rigid_nil⟩) list
  have locals (list : Counted UInt16 LocalVariable) : Rigid (list.parts LocalVariable.parts) :=
    rigid_counted (fun _ => by simp [LocalVariable.parts, number, references, Part.isRigid]) list
  have annotations (list : Counted UInt16 Annotation) : Rigid (list.parts Annotation.parts) :=
    rigid_counted Annotation.rigid list
  cases payload with
  | code | innerClasses | methodParameters | moduleInfo | recordInfo | unknown => cases plain
  | stackMapTable frames => exact rigid_counted Frame.rigid frames
  | exceptions | nestMembers | permittedSubclasses | modulePackages => exact index _ _
  | lineNumberTable lines =>
    exact rigid_counted (fun _ => by simp [LineNumber.parts, number, Part.isRigid]) lines
  | localVariableTable list | localVariableTypeTable list => exact locals list
  | annotations visibility items => exact annotations items
  | parameterAnnotations visibility parameters => exact rigid_counted annotations parameters
  | typeAnnotations visibility items => exact rigid_counted TypeAnnotation.rigid items
  | annotationDefault value => exact value.rigid
  | bootstrapMethods methods =>
    have method (self : BootstrapMethod) : Rigid self.parts :=
      rigid_cons.mpr ⟨rfl, index _ self.arguments⟩
    exact rigid_counted method methods
  | _ => simp [Payload.parts, references, Part.mayReference, Part.isRigid]

end Rigid

section Keeps

variable {pool : Pool} {element : Layout Element} {attributes : Layout Table}

theorem Handler.keeps : Handler.layout.Keeps pool Handler.parts :=
  .as (.seq .word (.seq .word (.seq .word (.index _)))) fun _ => rfl

theorem InnerClass.keeps : InnerClass.layout.Keeps pool InnerClass.parts :=
  .as (.seq (.index _) (.seq (.index _) (.seq (.index _) (.flags _)))) fun _ => rfl

theorem Parameter.keeps : Parameter.layout.Keeps pool Parameter.parts :=
  .as (.seq (.index _) (.flags _)) fun _ => rfl

theorem Requirement.keeps : Requirement.layout.Keeps pool Requirement.parts :=
  .as (.seq (.index _) (.seq (.flags _) (.index _))) fun _ => rfl

theorem PackageDirective.keeps : PackageDirective.layout.Keeps pool PackageDirective.parts :=
  .as (.seq (.index _) (.seq (.flags _) (.counted (.index _)))) fun _ => rfl

theorem Provision.keeps : Provision.layout.Keeps pool Provision.parts :=
  .as (.seq (.index _) (.counted (.index _))) fun _ => rfl

theorem ModuleInfo.keeps : ModuleInfo.layout.Keeps pool ModuleInfo.parts :=
  .as (.seq (.index _) (.seq (.flags _) (.seq (.index _) (.seq (.counted Requirement.keeps)
    (.seq (.counted PackageDirective.keeps) (.seq (.counted PackageDirective.keeps)
      (.seq (.counted (.index _)) (.counted Provision.keeps)))))))) fun _ => rfl

theorem Code.keeps (nested : attributes.Keeps pool fun held => [.table held]) :
    (Code.layout attributes).Keeps pool Code.parts := by
  have code : Layout.code.Keeps pool fun pair => [number pair.1, .code pair.1 pair.2] :=
    .rigid .code fun _ => by simp [number, Part.isRigid]
  exact .as (.seq .word (.seq .word (.seq code (.seq (.counted Handler.keeps) nested)))) fun _ => rfl

theorem Component.keeps (nested : attributes.Keeps pool fun held => [.table held]) :
    (Component.layout attributes).Keeps pool Component.parts :=
  .as (.seq (.index _) (.seq (.index _) nested)) fun _ => rfl

theorem Payload.keeps (nested : attributes.Keeps pool fun held => [.table held])
    (kind : AttributeKind) (length : U4) {value : Payload} {bytes others : Bytes}
    (written :
      (Payload.layout element attributes kind length.toNat).Writes pool length.stop value bytes)
    (varies : Varies (value.parts length) length.stop bytes others) :
    (Payload.layout element attributes kind length.toNat).Writes pool length.stop value others := by
  cases kind with
  | code => exact (Keeps.as (Code.keeps nested) fun _ => rfl).keeps _ _ _ _ written varies
  | innerClasses =>
    exact (Keeps.as (.counted InnerClass.keeps) fun _ => rfl).keeps _ _ _ _ written varies
  | methodParameters =>
    exact (Keeps.as (.counted Parameter.keeps) fun _ => rfl).keeps _ _ _ _ written varies
  | moduleInfo => exact (Keeps.as ModuleInfo.keeps fun _ => rfl).keeps _ _ _ _ written varies
  | recordInfo =>
    exact (Keeps.as (.counted (Component.keeps nested)) fun _ => rfl).keeps _ _ _ _ written varies
  | _ =>
    have plain : value.mayHide = false := by
      obtain ⟨_, rfl, _⟩ := written
      rfl
    rw [varies.eq (Payload.rigid length plain).not_hidden]
    exact written

/-- Of an attribute without a meaning only the length of its bytes is asked. -/
theorem Attribute.keeps (valued : element.Describes pool Element.parts)
    (nested : attributes.Keeps pool fun held => [.table held]) :
    (Layout.entry (Payload.layout element attributes)).Keeps pool Attribute.parts where
  described := Attribute.described valued nested.described
  keeps := by
    intro offset self _ others written varies
    obtain ⟨content, rfl, place, rfl, named, size, written⟩ := written
    have behind : self.nameIndex.offset + 6 = self.length.stop := by
      rw [Scalar.stop, place]
      rfl
    rw [behind] at written
    have parts : (Part.grammar pool).each self.length.stop (self.payload.parts self.length) content := by
      split at written
      next kind known => exact Payload.described valued nested.described kind self.length _ _ written
      next unknown =>
        rw [written]
        exact Grammar.each_singleton.mpr ⟨rfl, size⟩
    have payload := encloses_of_each parts
    have start : self.nameIndex.offset + (Word.toBytes self.nameIndex.value).length +
        (Word.toBytes self.length.value).length = self.length.stop := by
      rw [Word.length_toBytes, Word.length_toBytes, ← behind]
      rfl
    rw [← start] at payload
    have both := payload.behind (rigid_number self.length)
    rw [← List.length_append] at both
    have name : Rigid [.name self.nameIndex self.name] := rigid_cons.mpr ⟨rfl, rigid_nil⟩
    obtain ⟨more, rfl, rest⟩ := Varies.behind name varies both
    obtain ⟨other, rfl, inner⟩ := Varies.behind (rigid_number self.length) rest payload
    rw [start] at inner
    refine ⟨other, rfl, place, rfl, named, inner.length.trans size, ?_⟩
    rw [behind]
    split at written
    next kind known => exact Payload.keeps nested kind self.length written inner
    next unknown => exact written

open Classical in
/-- The parts of an attribute that was written, as far as the table has kept it. -/
noncomputable def Table.shown (held : Table) (self : Attribute) : List Part :=
  if self ∈ held.entries then self.parts else []

theorem Table.mem_shown {held : Table} {all : List Attribute} (kept : held.entries = collect [] all)
    {part : Part} (member : part ∈ held.entries.flatMap Attribute.parts) :
    part ∈ all.flatMap held.shown := by
  obtain ⟨self, listed, inner⟩ := List.mem_flatMap.mp member
  have among : self ∈ all := by
    rw [kept] at listed
    exact (mem_of_mem_collect listed).resolve_left List.not_mem_nil
  exact List.mem_flatMap.mpr ⟨self, among, by rwa [shown, if_pos listed]⟩

theorem Table.encloses_shown (held : Table) {self : Attribute} {offset length : Nat}
    (whole : Encloses offset length self.parts) : Encloses offset length (held.shown self) := by
  intro position one other hidden
  unfold shown at hidden
  split at hidden
  next => exact whole position one other hidden
  next => exact absurd hidden (rigid_nil.not_hidden _ _ _)

/-- The bytes of an attribute that a later one has replaced are not hidden. -/
theorem Table.keeps_shown (held : Table) {entry : Layout Attribute}
    (keeps : entry.Keeps pool Attribute.parts) (offset : Nat) (self : Attribute) (bytes others : Bytes)
    (written : entry.Writes pool offset self bytes)
    (varies : Varies (held.shown self) offset bytes others) : entry.Writes pool offset self others := by
  unfold shown at varies
  split at varies
  next => exact keeps.keeps _ _ _ _ written varies
  next =>
    rw [varies.eq rigid_nil.not_hidden]
    exact written

/-- Every attribute that was written for a table varies on its own, whether it was kept or not. -/
theorem Table.keeps_entries (valued : element.Describes pool Element.parts)
    (nested : attributes.Keeps pool fun held => [.table held]) {offset : Nat} {held : Table}
    {bytes others : Bytes}
    (written : (Layout.table (.entry (Payload.layout element attributes))).Writes pool offset held bytes)
    (varies : Varies held.parts offset bytes others) :
    (Layout.table (.entry (Payload.layout element attributes))).Writes pool offset held others := by
  obtain ⟨all, content, rfl, rfl, size, kept, each⟩ := written
  have entry := Attribute.keeps valued nested
  have inside := fun place self bytes written =>
    held.encloses_shown (entry.encloses place self bytes written)
  have items : Encloses (held.count.offset + (Word.toBytes held.count.value).length) content.length
      (held.entries.flatMap Attribute.parts) := by
    intro position one other hidden
    rw [Word.length_toBytes]
    exact Grammar.each_encloses inside each position one other (hidden.mono fun _ => mem_shown kept)
  obtain ⟨back, rfl, rest⟩ := Varies.behind (rigid_number held.count) varies items
  rw [Word.length_toBytes] at rest
  have varied := rest.mono fun _ _ _ _ hidden => hidden.mono fun _ => mem_shown kept
  exact ⟨all, back, rfl, rfl, size, kept,
    Grammar.each_keeps inside (held.keeps_shown entry) each varied⟩

theorem Table.keeps (limit levels : Nat) :
    (Table.layout limit levels).Keeps pool fun held => [.table held] where
  described := Table.described limit levels
  keeps := by
    induction levels with
    | zero =>
      intro offset held bytes others written varies
      have inner : (Layout.tooDeep limit).Keeps pool fun held => [.table held] :=
        ⟨.tooDeep limit _, fun _ _ _ _ none => none.elim⟩
      exact Table.keeps_entries (Element.described limit 0) inner written
        (varies.mono fun _ _ _ _ hidden => hidden.table)
    | succ levels ih =>
      intro offset held bytes others written varies
      have inner : (Layout.nested (Table.layout limit levels)).Keeps pool fun held => [.table held] :=
        ⟨Table.described limit levels, ih⟩
      exact Table.keeps_entries (Element.described limit (levels + 1)) inner written
        (varies.mono fun _ _ _ _ hidden => hidden.table)

theorem Member.keeps (set : FlagSet) (nested : attributes.Keeps pool fun held => [.table held]) :
    (Member.layout set attributes).Keeps pool Member.parts :=
  .as (.seq (.flags _) (.seq (.indexPair _ _) nested)) fun _ => rfl

theorem Body.keeps (nested : attributes.Keeps pool fun held => [.table held]) :
    (Body.layout attributes).Keeps pool Body.parts :=
  .as (.seq (.flags _) (.seq (.index _) (.seq (.index _) (.seq (.counted (.index _))
    (.seq (.counted (Member.keeps _ nested)) (.seq (.counted (Member.keeps _ nested))
      nested)))))) fun _ => rfl

end Keeps
namespace ClassFile

theorem grammar_keeps {limit : Nat} {file : ClassFile} {bytes others : Bytes}
    (written : grammar limit 0 file bytes) (varies : Varies file.parts 0 bytes others) :
    grammar limit 0 file others := by
  obtain ⟨entries, rest, magic, minor, major, poolCount, right, rfl, pooled, body⟩ := written
  have keeps : (Body.layout (Table.layout limit limit)).Keeps file.pool Body.parts :=
    Body.keeps (Table.keeps limit limit)
  have heading : Rigid file.heading := by simp [ClassFile.heading, number, Part.isRigid]
  have pool : Rigid (file.pool.entries.flatMap Entry.parts) := rigid_flatMap Entry.rigid _
  have behind := keeps.encloses _ _ _ body
  rw [← length_headingBytes file] at behind
  have both := behind.behind pool
  rw [← List.length_append] at both
  obtain ⟨more, rfl, later⟩ := varies.behind heading both
  obtain ⟨last, rfl, inner⟩ := later.behind pool behind
  refine ⟨entries, last, magic, minor, major, poolCount, right, rfl, pooled, ?_⟩
  rw [length_headingBytes] at inner
  exact keeps.keeps _ _ _ _ body inner

/-- A file that differs only in what is not kept decodes to the same values. -/
theorem decode_of_varies {bytes others : Bytes} {file : ClassFile} (decoded : decode bytes = .ok file)
    (varies : Varies file.parts 0 bytes others) : decode others = .ok file :=
  decode_eq_ok.mpr (grammar_keeps (decode_eq_ok.mp decoded) varies)

/-- A class of which two bytes of flags and the two bytes of an attribute called `X` are left open. -/
def openSample (upper lower first second : UInt8) : Bytes :=
  [0xca, 0xfe, 0xba, 0xbe, 0, 0, 0, 52, 0, 4, 1, 0, 1, 0x43, 7, 0, 1, 1, 0, 1, 0x58, upper, lower] ++
  [0, 2, 0, 0, 0, 0, 0, 0, 0, 0, 0, 1, 0, 3, 0, 0, 0, 2, first, second]

/-- Where the flags and the bytes without a meaning of the class lie. -/
theorem openSample_places {file : ClassFile} (decoded : decode (openSample 0 0x21 1 2) = .ok file) :
    file.flags.offset = 21 ∧ Part.passed 41 2 ∈ file.attributes.parts := by
  have places : (decode (openSample 0 0x21 1 2)).toOption.map (fun file =>
      (file.flags.offset, file.attributes.entries.map fun self =>
        (self.length.stop, self.length.toNat, self.payload.kind?))) = some (21, [(41, 2, none)]) := by
    decide +kernel
  rw [decoded] at places
  obtain ⟨flags, listed⟩ := Prod.mk.inj (Option.some.inj places)
  obtain ⟨self, entries, same⟩ := List.map_eq_singleton_iff.mp listed
  obtain ⟨stop, length, kind⟩ := by simpa only [Prod.mk.injEq] using same
  have unknown : self.payload = .unknown := by
    cases found : self.payload with
    | unknown => rfl
    | _ =>
      rw [found] at kind
      cases kind
  refine ⟨flags, List.mem_cons_of_mem _ (List.mem_flatMap.mpr ⟨self, ?_, ?_⟩)⟩
  · rw [entries]
    exact List.mem_singleton_self self
  · rw [Attribute.parts, unknown, Payload.parts, stop, length]
    simp

theorem decode_openSample : ∃ file, decode (openSample 0 0x21 1 2) = .ok file ∧
    decode (openSample 1 0x29 0xff 0) = .ok file := by
  obtain ⟨file, decoded⟩ : ∃ file, decode (openSample 0 0x21 1 2) = .ok file :=
    exists_of_isOk (by decide +kernel)
  obtain ⟨place, unread⟩ := openSample_places decoded
  have flags : Part.flags .ofClass file.flags ∈ file.parts := by simp [ClassFile.parts, Body.parts]
  have table : Part.table file.attributes ∈ file.parts := by simp [ClassFile.parts, Body.parts]
  have apart : ∀ i < 43, (openSample 0 0x21 1 2)[i]? = (openSample 1 0x29 0xff 0)[i]? ∨
      i = 21 ∨ i = 22 ∨ i = 41 ∨ i = 42 := by decide
  refine ⟨file, decoded, decode_of_varies decoded ⟨rfl, fun i one other here there => ?_⟩⟩
  obtain ⟨inside, -⟩ := List.getElem?_eq_some_iff.mp here
  rcases apart i inside with same | rfl | rfl | rfl | rfl
  · rw [here, there] at same
    exact .inl (Option.some.inj same)
  · cases here
    cases there
    exact .inr ⟨_, .listed flags, 8, .inl ⟨rfl, place.symm⟩, by decide⟩
  · cases here
    cases there
    exact .inr ⟨_, .listed flags, 0, .inr ⟨rfl, by rw [place]⟩, by decide⟩
  · exact .inr ⟨_, .within table (.listed unread), by decide, by decide⟩
  · exact .inr ⟨_, .within table (.listed unread), by decide, by decide⟩

end ClassFile
end ClassFormat
