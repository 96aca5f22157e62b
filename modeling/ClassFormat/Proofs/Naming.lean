import ClassFormat.Proofs.Lookups
import ClassFormat.Proofs.Slots
import ClassFormat.Proofs.Tiling

/-! The names of a class. Those that were checked while a class file was decoded are found later as
well, although by other questions than those that checked them. Only in an empty pool was nothing
asked of the name of the class itself, and then there is nothing else that could have one. -/
namespace ClassFormat

/-- Whether a question gets an answer. -/
def Answered (outcome : Except Error α) : Prop := ∃ answer, outcome = .ok answer

/-- What is known of the names of a class file of so many bytes. -/
structure ClassFile.Named (file : ClassFile) (size : Nat) : Prop where
  super : Answered file.superName
  interfaces : Answered file.interfaceNames
  sourceFile : Answered file.sourceFile?
  fields : ∀ field ∈ file.fields.items,
    Answered (field.nameIn file.pool) ∧ Answered (field.descriptorIn file.pool)
  methods : ∀ method ∈ file.methods.items,
    Answered (method.nameIn file.pool) ∧ Answered (method.descriptorIn file.pool)
  own : Answered file.className ↔ 1 < file.pool.count
  /-- Without a pool there is nothing but the words that every class file has. -/
  bare : file.pool.count = 1 → file.superClass.toNat = 0 ∧ file.interfaces.items = [] ∧
    file.fields.items = [] ∧ file.methods.items = [] ∧ file.attributes.entries = [] ∧ size = 24

theorem Error.mapM_eq_ok {f : α → Except Error β} {items : List α} {found : List β} :
    items.mapM f = .ok found ↔ List.Forall₂ (fun item answer => f item = .ok answer) items found := by
  induction items generalizing found with
  | nil => cases found <;> simp [pure, Except.pure]
  | cons item rest ih =>
    rw [List.mapM_cons]
    cases here : f item with
    | error cause => cases found <;> simp [bind, Except.bind, here]
    | ok answer =>
      cases others : rest.mapM f with
      | error cause => cases found <;> simp [bind, Except.bind, ← ih, others, here]
      | ok answers =>
        cases found <;> simp [bind, Except.bind, pure, Except.pure, ← ih, others, here]

theorem exists_forall₂ {related : α → β → Prop} {items : List α}
    (each : ∀ item ∈ items, ∃ answer, related item answer) :
    ∃ answers, List.Forall₂ related items answers := by
  induction items with
  | nil => exact ⟨[], .nil⟩
  | cons item rest ih =>
    rw [List.forall_mem_cons] at each
    obtain ⟨answer, here⟩ := each.1
    obtain ⟨answers, others⟩ := ih each.2
    exact ⟨answer :: answers, .cons here others⟩

theorem answered_mapM {f : α → Except Error β} {items : List α}
    (each : ∀ item ∈ items, Answered (f item)) : Answered (items.mapM f) := by
  obtain ⟨answers, all⟩ := exists_forall₂ each
  exact ⟨answers, Error.mapM_eq_ok.mpr all⟩

/-! ### A pool without slots -/

namespace Pool

variable {pool : Pool}

theorem get_of_single (single : pool.count = 1) (i : Nat) :
    pool.get i = .error (.indexOutOfRange i 1) := by
  have none : pool.slot? i = none := by
    cases i with
    | zero => rfl
    | succ k => exact Array.getElem?_eq_none (by rw [count] at single; omega)
  rw [get, none, single]

theorem className_of_single (single : pool.count = 1) (i : Nat) :
    pool.className i = .error (.indexOutOfRange i 1) := by
  rw [className, get_of_single single]
  rfl

theorem not_designates_of_single (single : pool.count = 1) {i : Nat} {kinds : List Tag} :
    ¬ pool.Designates i kinds := by
  rintro ⟨entry, found, -⟩
  have got := get_of_single single i
  rw [get_eq_ok.mpr found] at got
  cases got

theorem entries_of_single (single : pool.count = 1) : pool.entries = [] := by
  refine List.eq_nil_iff_forall_not_mem.mpr fun entry member => ?_
  obtain ⟨i, found⟩ := mem_entries.mp member
  have got := get_of_single single i
  rw [get_eq_ok.mpr found] at got
  cases got

end Pool

/-! ### Names in a decoded class file -/

namespace ClassFile

variable {bytes : Bytes} {file : ClassFile}

section Parts

theorem mem_parts_of_body {part : Part} (member : part ∈ file.toBody.parts) : part ∈ file.parts :=
  List.mem_append_right _ (List.mem_append_right _ member)

theorem mem_parts_of_interface {index : U2} (member : index ∈ file.interfaces.items) :
    .references .classRef index ∈ file.parts := by
  apply mem_parts_of_body
  have among : .references .classRef index ∈ partsOfClasses file.interfaces :=
    List.mem_cons_of_mem _ (List.mem_flatMap.mpr ⟨index, member, List.mem_singleton_self _⟩)
  simp [Body.parts, among]

theorem mem_parts_of_field {field : Member .ofField} (member : field ∈ file.fields.items) :
    ∀ part ∈ field.parts, part ∈ file.parts := by
  intro part within
  apply mem_parts_of_body
  have among : part ∈ file.fields.parts Member.parts :=
    List.mem_cons_of_mem _ (List.mem_flatMap.mpr ⟨field, member, within⟩)
  simp [Body.parts, among]

theorem mem_parts_of_method {method : Member .ofMethod} (member : method ∈ file.methods.items) :
    ∀ part ∈ method.parts, part ∈ file.parts := by
  intro part within
  apply mem_parts_of_body
  have among : part ∈ file.methods.parts Member.parts :=
    List.mem_cons_of_mem _ (List.mem_flatMap.mpr ⟨method, member, within⟩)
  simp [Body.parts, among]

theorem hasPart_of_attribute {item : Attribute} {part : Part}
    (member : item ∈ file.attributes.entries) (within : part ∈ item.parts) : file.HasPart part := by
  have table : Part.table file.attributes ∈ file.parts := mem_parts_of_body (by simp [Body.parts])
  have listed : part ∈ file.attributes.parts :=
    List.mem_cons_of_mem _ (List.mem_flatMap.mpr ⟨item, member, within⟩)
  exact Reaches.within table (Reaches.listed listed)

end Parts

section Decoded

variable (decoded : decode bytes = .ok file)
include decoded

/-- Every index in a class file leads where it must. -/
theorem met_of_part {index : U2} {target : Target} (has : file.HasPart (.index index target)) :
    target.Met file.pool index.toNat := by
  obtain ⟨_, _, _, _, _, _, met⟩ := has.within decoded
  exact met

theorem super_met :
    file.superClass.toNat = 0 ∨ file.pool.Designates file.superClass.toNat [.classRef] := by
  have has : file.HasPart (.mayReference .classRef file.superClass) :=
    .listed (mem_parts_of_body (by simp [Body.parts]))
  exact met_of_part decoded has

theorem thisClass_met : Target.ownClass.Met file.pool file.thisClass.toNat := by
  have has : file.HasPart (.index file.thisClass .ownClass) :=
    .listed (mem_parts_of_body (by simp [Body.parts]))
  exact met_of_part decoded has

theorem interface_designates {index : U2} (member : index ∈ file.interfaces.items) :
    file.pool.Designates index.toNat [.classRef] :=
  met_of_part decoded (.listed (mem_parts_of_interface member))

theorem member_designates {set : FlagSet} {member : Member set}
    (listed : ∀ part ∈ member.parts, part ∈ file.parts) :
    file.pool.Designates member.name.toNat [.utf8] ∧
      file.pool.Designates member.descriptor.toNat [.utf8] := by
  have name := listed (.references .utf8 member.name) (by simp [Member.parts])
  have descriptor := listed (.references .utf8 member.descriptor) (by simp [Member.parts])
  exact ⟨met_of_part decoded (.listed name), met_of_part decoded (.listed descriptor)⟩

theorem member_answered {set : FlagSet} {member : Member set}
    (listed : ∀ part ∈ member.parts, part ∈ file.parts) :
    Answered (member.nameIn file.pool) ∧ Answered (member.descriptorIn file.pool) := by
  obtain ⟨name, descriptor⟩ := member_designates decoded listed
  exact ⟨Pool.text_of_designates name, Pool.text_of_designates descriptor⟩

theorem super_answered : Answered file.superName := by
  have valid := validate_of_decode decoded
  unfold superName
  rcases super_met decoded with none | led
  · rw [none]
    exact ⟨_, rfl⟩
  · obtain ⟨name, found⟩ := Pool.className_of_designates valid led
    cases index : file.superClass.toNat with
    | zero => exact ⟨_, rfl⟩
    | succ n =>
      rw [index] at found
      exact ⟨name, found⟩

theorem interfaces_answered : Answered file.interfaceNames :=
  answered_mapM fun _ member =>
    Pool.className_of_designates (validate_of_decode decoded) (interface_designates decoded member)

/-- Whichever attribute has stayed, its index was checked. -/
theorem sourceFile_answered : Answered file.sourceFile? := by
  unfold sourceFile? Table.sourceFile?
  cases found : file.attributes.get? "SourceFile" with
  | none => exact ⟨none, rfl⟩
  | some item =>
    have member : item ∈ file.attributes.entries := List.mem_of_find?_eq_some found
    cases payload : item.payload with
    | sourceFile index =>
      have has : file.HasPart (.references .utf8 index) :=
        hasPart_of_attribute member (by simp [Attribute.parts, payload, Payload.parts])
      obtain ⟨text, named⟩ := Pool.text_of_designates (met_of_part decoded has)
      simp only [Option.map_some, payload, named]
      exact ⟨_, rfl⟩
    | _ =>
      simp only [Option.map_some, payload]
      exact ⟨none, rfl⟩

/-- The name of the class itself is known unless there are no names at all. -/
theorem own_answered_iff : Answered file.className ↔ 1 < file.pool.count := by
  constructor
  · rintro ⟨name, named⟩
    by_contra small
    have single : file.pool.count = 1 := Nat.le_antisymm (Nat.le_of_not_lt small) (Nat.le_add_left 1 _)
    rw [className, Pool.className_of_single single] at named
    cases named
  · intro large
    rcases thisClass_met decoded with led | ⟨empty, -⟩
    · exact Pool.className_of_designates (validate_of_decode decoded) led
    · rw [Pool.count, empty] at large
      omega

end Decoded

section Single

variable (decoded : decode bytes = .ok file) (single : file.pool.count = 1)
include decoded single

theorem super_of_single : file.superClass.toNat = 0 :=
  (super_met decoded).resolve_right (Pool.not_designates_of_single single)

theorem interfaces_of_single : file.interfaces.items = [] :=
  List.eq_nil_iff_forall_not_mem.mpr fun _ member =>
    Pool.not_designates_of_single single (interface_designates decoded member)

theorem fields_of_single : file.fields.items = [] :=
  List.eq_nil_iff_forall_not_mem.mpr fun _ member =>
    Pool.not_designates_of_single single (member_designates decoded (mem_parts_of_field member)).1

theorem methods_of_single : file.methods.items = [] :=
  List.eq_nil_iff_forall_not_mem.mpr fun _ member =>
    Pool.not_designates_of_single single (member_designates decoded (mem_parts_of_method member)).1

/-- An attribute has a name, even if nothing is known of that name. -/
theorem attributes_of_single : file.attributes.entries = [] := by
  refine List.eq_nil_iff_forall_not_mem.mpr fun item member => ?_
  have has : file.HasPart (.name item.nameIndex item.name) :=
    hasPart_of_attribute member (by simp [Attribute.parts])
  obtain ⟨_, _, _, _, _, _, named⟩ := has.within decoded
  rw [Pool.text, Pool.get_of_single single] at named
  cases named

/-- What is left are three numbers, five counts and the words in between. -/
theorem size_of_single : bytes.length = 24 := by
  have tiled := Part.tiles_of_each (parts_of_decode decoded)
  have last : file.attributes.stop = file.attributes.count.offset + 2 := by
    rw [Table.stop, attributes_of_single decoded single]
    rfl
  simp only [ClassFile.parts, heading, Body.parts, partsOfClasses, Counted.parts,
    Pool.entries_of_single single, interfaces_of_single decoded single, fields_of_single decoded single,
    methods_of_single decoded single, List.flatMap_nil, List.nil_append, List.cons_append, List.map_cons,
    List.map_nil, Nat.zero_add, Span.Tiles, Part.span, Part.number, Part.mayReference, Part.offset,
    Part.stop, Scalar.width, Word.width_u2, Word.width_u4, last] at tiled
  omega

end Single

theorem named_of_decode (decoded : decode bytes = .ok file) : file.Named bytes.length where
  super := super_answered decoded
  interfaces := interfaces_answered decoded
  sourceFile := sourceFile_answered decoded
  fields _ member := member_answered decoded (mem_parts_of_field member)
  methods _ member := member_answered decoded (mem_parts_of_method member)
  own := own_answered_iff decoded
  bare single := ⟨super_of_single decoded single, interfaces_of_single decoded single,
    fields_of_single decoded single, methods_of_single decoded single,
    attributes_of_single decoded single, size_of_single decoded single⟩

end ClassFile
end ClassFormat
