import ClassFormat.Proofs.Placing

/-! Indices lead where they must. Whatever a decoded class file refers to by index is in its
pool and is of a kind that belongs there, and every attribute is what its name announces. -/
namespace ClassFormat

/-- Whether what a constant refers to is there. -/
def Constant.Linked (pool : Pool) : Constant → Prop
  | utf8 .. | integer _ | float _ | long _ | double _ => True
  | classRef text | string text | methodType text | moduleRef text | packageRef text =>
    pool.Designates text.toNat [.utf8]
  | fieldRef owner member | methodRef owner member | interfaceMethodRef owner member =>
    pool.Designates owner.toNat [.classRef] ∧ pool.Designates member.toNat [.nameAndType]
  | nameAndType name descriptor =>
    pool.Designates name.toNat [.utf8] ∧ pool.Designates descriptor.toNat [.utf8]
  | methodHandle kind target =>
    ∃ known : ReferenceKind, known.byte = kind.value ∧ pool.Designates target.toNat known.targets
  | dynamic _ member | invokeDynamic _ member => pool.Designates member.toNat [.nameAndType]

/-- Whether a payload is of the kind that has the name, or of none if no kind has it. -/
def Attribute.Announced (item : Attribute) : Prop :=
  match item.payload.kind? with
  | some kind => kind.name = item.name
  | none => ∀ kind : AttributeKind, kind.name ≠ item.name

/-- Whether the questions asked of a table by name are answered if the name is there. -/
structure Table.Answers (held : Table) : Prop where
  code : held.code?.isSome ↔ ∃ item ∈ held.entries, item.name = "Code"
  stackMap : held.stackMap?.isSome ↔ ∃ item ∈ held.entries, item.name = "StackMapTable"
  sourceFile : held.sourceFile?.isSome ↔ ∃ item ∈ held.entries, item.name = "SourceFile"

structure ClassFile.Linked (file : ClassFile) : Prop where
  met : ∀ index target, file.HasPart (.index index target) → target.Met file.pool index.toNat
  named : ∀ index name, file.HasPart (.name index name) → ∃ entry length,
    file.pool.slot? index.toNat = some (some entry) ∧ entry.constant = .utf8 length name
  announced : ∀ held, file.HasPart (.table held) → ∀ item ∈ held.entries, item.Announced
  answers : ∀ held, file.HasPart (.table held) → held.Answers
  constants : ∀ entry ∈ file.pool.entries, entry.constant.Linked file.pool

theorem firstError_eq_ok {check : α → Except Error Unit} {items : List α} :
    firstError check items = .ok () ↔ ∀ item ∈ items, check item = .ok () := by
  induction items with
  | nil => simp [firstError]
  | cons item rest ih =>
    rw [firstError, List.forall_mem_cons]
    cases check item with
    | ok => simp [ih]
    | error cause => simp

section Pool

variable {pool : Pool}

theorem Pool.checkReference_eq_ok {reference : Nat × List Tag} :
    pool.checkReference reference = .ok () ↔ pool.Designates reference.1 reference.2 :=
  Pool.getOf_map_eq_ok

theorem Pool.checkEntry_eq_ok {entry : Entry} :
    pool.checkEntry entry = .ok () ↔ entry.constant.Linked pool := by
  unfold Pool.checkEntry Constant.Linked
  cases entry.constant with
  | methodHandle kind target =>
    cases known : ReferenceKind.ofByte? kind.value with
    | none =>
      have unknown (found : ReferenceKind) : found.byte ≠ kind.value := fun same => by
        rw [ReferenceKind.ofByte?_eq_some_iff.mpr same] at known
        cases known
      simp [known, unknown]
    | some found =>
      have same : found.byte = kind.value := ReferenceKind.ofByte?_eq_some_iff.mp known
      simp only [known, Option.isNone_some, Bool.false_eq_true, ↓reduceIte, firstError_eq_ok,
        Constant.references, List.forall_mem_singleton, Pool.checkReference_eq_ok]
      constructor
      · exact fun met => ⟨found, same, met⟩
      · rintro ⟨other, also, met⟩
        obtain rfl : other = found := by
          rw [ReferenceKind.ofByte?_eq_some_iff.mpr also] at known
          exact Option.some.inj known
        exact met
  | _ => simp [Constant.references, firstError_eq_ok, Pool.checkReference_eq_ok]

theorem Pool.validate_eq_ok :
    pool.validate = .ok () ↔ ∀ entry ∈ pool.entries, entry.constant.Linked pool := by
  rw [Pool.validate, firstError_eq_ok]
  simp only [Pool.checkEntry_eq_ok]

theorem Pool.mem_entries {entry : Entry} :
    entry ∈ pool.entries ↔ ∃ i, pool.slot? i = some (some entry) := by
  rw [Pool.entries, List.mem_filterMap]
  constructor
  · rintro ⟨_, member, rfl⟩
    obtain ⟨k, found⟩ := List.mem_iff_getElem?.mp member
    exact ⟨k + 1, by rw [Pool.slot?, ← Array.getElem?_toList, found]⟩
  · rintro ⟨i, found⟩
    cases i with
    | zero => cases found
    | succ k =>
      rw [Pool.slot?, ← Array.getElem?_toList] at found
      exact ⟨_, List.mem_of_getElem? found, rfl⟩

theorem Pool.text_eq_ok {index : Nat} {text : String} : pool.text index = .ok text ↔
    ∃ entry length, pool.slot? index = some (some entry) ∧ entry.constant = .utf8 length text := by
  unfold Pool.text
  rw [Error.bind_eq_ok]
  simp only [Pool.get_eq_ok]
  constructor
  · rintro ⟨entry, found, run⟩
    split at run
    next length content same =>
      cases run
      exact ⟨entry, length, found, same⟩
    next => cases run
  · rintro ⟨entry, length, found, same⟩
    exact ⟨entry, found, by rw [same]; rfl⟩

end Pool

section Tables

theorem AttributeKind.ofName?_name (kind : AttributeKind) : ofName? kind.name = some kind := by
  cases kind with
  | annotations visibility | parameterAnnotations visibility | typeAnnotations visibility =>
    cases visibility <;> decide
  | _ => decide

theorem AttributeKind.ofName?_eq_none {name : String} :
    ofName? name = none ↔ ∀ kind : AttributeKind, kind.name ≠ name := by
  simp [ofName?]

theorem Attribute.announced_of_kind {item : Attribute}
    (kind : item.payload.kind? = AttributeKind.ofName? item.name) : item.Announced := by
  unfold Attribute.Announced
  cases known : AttributeKind.ofName? item.name with
  | some found =>
    rw [kind, known]
    exact AttributeKind.name_of_ofName? known
  | none =>
    rw [kind, known]
    exact AttributeKind.ofName?_eq_none.mp known

variable {pool : Pool} {held : Table}

/-- A question about one kind of attribute is answered by the attribute of that name. -/
theorem Table.isSome_of_kind (kind : AttributeKind) {answer? : Payload → Option α}
    (answered : ∀ payload, payload.kind? = some kind → (answer? payload).isSome)
    (kinds : ∀ item ∈ held.entries, item.payload.kind? = AttributeKind.ofName? item.name) :
    (((held.get? kind.name).map Attribute.payload).bind answer?).isSome ↔
      ∃ item ∈ held.entries, item.name = kind.name := by
  cases found : held.get? kind.name with
  | none =>
    have missing := List.find?_eq_none.mp found
    simpa using missing
  | some item =>
    have member := List.mem_of_find?_eq_some found
    have same : item.name = kind.name := by simpa using List.find?_some found
    have answer := answered item.payload (by rw [kinds item member, same, AttributeKind.ofName?_name])
    simpa using ⟨fun _ => ⟨item, member, same⟩, fun _ => answer⟩

theorem Table.code?_eq : held.code? = ((held.get? "Code").map Attribute.payload).bind
    fun | .code body => some body | _ => none := by
  unfold Table.code?
  cases (held.get? "Code").map Attribute.payload with
  | none => rfl
  | some payload => cases payload <;> rfl

theorem Table.stackMap?_eq : held.stackMap? = ((held.get? "StackMapTable").map Attribute.payload).bind
    fun | .stackMapTable frames => some frames | _ => none := by
  unfold Table.stackMap?
  cases (held.get? "StackMapTable").map Attribute.payload with
  | none => rfl
  | some payload => cases payload <;> rfl

theorem Table.sourceFile?_eq : held.sourceFile? = ((held.get? "SourceFile").map Attribute.payload).bind
    fun | .sourceFile index => some index | _ => none := by
  unfold Table.sourceFile?
  cases (held.get? "SourceFile").map Attribute.payload with
  | none => rfl
  | some payload => cases payload <;> rfl

theorem Table.answers_of_kinds
    (kinds : ∀ item ∈ held.entries, item.payload.kind? = AttributeKind.ofName? item.name) :
    held.Answers where
  code := by
    rw [Table.code?_eq]
    refine Table.isSome_of_kind .code (fun payload same => ?_) kinds
    cases payload <;> first | rfl | cases same
  stackMap := by
    rw [Table.stackMap?_eq]
    refine Table.isSome_of_kind .stackMapTable (fun payload same => ?_) kinds
    cases payload <;> first | rfl | cases same
  sourceFile := by
    rw [Table.sourceFile?_eq]
    refine Table.isSome_of_kind .sourceFile (fun payload same => ?_) kinds
    cases payload <;> first | rfl | cases same

/-- What is written for a table has payloads of the kinds that their names announce. -/
theorem Table.kinds_of_writes {limit levels offset : Nat} {bytes : Bytes}
    (written : (Table.layout limit levels).Writes pool offset held bytes) :
    ∀ item ∈ held.entries, item.payload.kind? = AttributeKind.ofName? item.name := by
  obtain ⟨all, content, _, _, _, kept, each⟩ := Table.exists_written written
  intro item member
  rw [kept] at member
  have among := (Table.mem_of_mem_collect member).resolve_left List.not_mem_nil
  obtain ⟨_, _, _, _, stands⟩ := Grammar.within_of_mem each among
  exact stands.kind

end Tables

theorem ClassFile.kinds_of_decode {bytes : Bytes} {file : ClassFile} (decoded : decode bytes = .ok file)
    {held : Table} (has : file.HasPart (.table held)) :
    ∀ item ∈ held.entries, item.payload.kind? = AttributeKind.ofName? item.name := by
  obtain ⟨_, _, _, _, _, limit, levels, written⟩ := has.within decoded
  exact Table.kinds_of_writes written

theorem ClassFile.decode_linked {bytes : Bytes} {file : ClassFile} (decoded : decode bytes = .ok file) :
    file.Linked where
  met index target has := by
    obtain ⟨_, _, _, _, _, _, met⟩ := has.within decoded
    exact met
  named index name has := by
    obtain ⟨_, _, _, _, _, _, named⟩ := has.within decoded
    exact Pool.text_eq_ok.mp named
  announced held has item member := Attribute.announced_of_kind (kinds_of_decode decoded has item member)
  answers held has := Table.answers_of_kinds (kinds_of_decode decoded has)
  constants := by
    obtain ⟨_, _, _, _, _, _, _, _, pooled, _⟩ := decode_eq_ok.mp decoded
    exact Pool.validate_eq_ok.mp pooled.2.2.2

/-- A class with a field whose value is a constant, and a method that catches its own class. -/
def ClassFile.constantSample : Bytes :=
  [0xca, 0xfe, 0xba, 0xbe, 0, 0, 0, 52, 0, 7, 1, 0, 1, 0x49, 7, 0, 1, 1, 0, 4, 0x43, 0x6f, 0x64, 0x65] ++
  [1, 0, 3, 0x28, 0x29, 0x56, 3, 0, 0, 0, 7, 1, 0, 13, 0x43, 0x6f, 0x6e, 0x73, 0x74, 0x61, 0x6e, 0x74] ++
  [0x56, 0x61, 0x6c, 0x75, 0x65] ++
  [0, 0x21, 0, 2, 0, 0, 0, 1, 0, 2, 0, 1, 0, 8, 0, 1, 0, 1, 0, 1, 0, 6, 0, 0, 0, 2, 0, 5] ++
  [0, 1, 0, 1, 0, 1, 0, 4, 0, 1, 0, 3, 0, 0, 0, 22, 0, 1, 0, 1, 0, 0, 0, 2, 0, 0xb1] ++
  [0, 1, 0, 0, 0, 1, 0, 1, 0, 2, 0, 0, 0, 0]

theorem ClassFile.decode_constantSample :
    ∃ file, decode constantSample = .ok file ∧ file.Linked := by
  obtain ⟨file, decoded⟩ : ∃ file, decode constantSample = .ok file := exists_of_isOk (by decide +kernel)
  exact ⟨file, decoded, decode_linked decoded⟩

end ClassFormat
