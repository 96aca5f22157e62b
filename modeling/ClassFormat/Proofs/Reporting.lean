import ClassFormat.ClassFile.Dump
import ClassFormat.Proofs.Naming

/-! Reports on class files. Whatever has been decoded can be reported in full: every name that a
report asks for is found, so nothing is left out of it, and only the name of a class without any
constants is replaced by another text. -/
namespace ClassFormat

open Text.Columns

/-- What a report says in words of a class, its constants and its members. -/
structure ClassFile.Names where
  own : String
  super : String
  interfaces : List String
  constants : List String
  /-- The names of the fields and their descriptors. -/
  fields : List (String × String)
  methods : List (String × String)

/-- Whether these are the name of a member and its descriptor. -/
def Member.Called (pool : Pool) {set : FlagSet} (member : Member set) : String × String → Prop
  | (name, descriptor) =>
    pool.text member.name.toNat = .ok name ∧ pool.text member.descriptor.toNat = .ok descriptor

namespace ClassFile.Names

/-- Whether these are the names that the pool of a class file has for what the file names, one for each index. -/
structure Found (names : Names) (file : ClassFile) : Prop where
  own : file.pool.className file.thisClass.toNat = .ok names.own ∨ file.pool.count = 1 ∧ names.own = "<invalid>"
  super : file.pool.superName file.superClass.toNat = .ok names.super
  interfaces : List.Forall₂ (fun index text => file.pool.className index.toNat = .ok text)
    file.interfaces.items names.interfaces
  constants : List.Forall₂ (fun entry text => file.pool.resolve entry.index = .ok text)
    file.pool.entries names.constants
  fields : List.Forall₂ (Member.Called file.pool) file.fields.items names.fields
  methods : List.Forall₂ (Member.Called file.pool) file.methods.items names.methods

def constantLine (entry : Entry) (text : String) : String :=
  "  #" ++ left 4 (toString entry.index) ++ " " ++ left 18 entry.constant.tag.name ++ " " ++ text

def fieldLine (field : Member .ofField) : String × String → String
  | (name, descriptor) => "Field: " ++ field.flags.value.text ++ " " ++ descriptor ++ " " ++ name

def methodLines (pool : Pool) (method : Member .ofMethod) : String × String → List String
  | (name, descriptor) => ("Method: " ++ method.flags.value.text ++ " " ++ name ++ descriptor) ::
    ((method.attributes.code?.map fun code => code.lines pool).getD [])

/-- A full report in these words: one line for each interface, constant and field, and at least one
for each method. -/
def lines (names : Names) (file : ClassFile) : List String :=
  ["Class: " ++ names.own,
    "  version: " ++ file.version.text ++ " (Java " ++ file.version.release?.getD "" ++ ")",
    "  flags: " ++ file.flags.value.text,
    "  super: " ++ names.super]
  ++ names.interfaces.map ("  implements: " ++ ·)
  ++ "" :: "Constant pool:" :: List.zipWith constantLine file.pool.entries names.constants
  ++ "" :: List.zipWith fieldLine file.fields.items names.fields
  ++ (List.zipWith (methodLines file.pool) file.methods.items names.methods).flatten
  ++ "" :: file.attributes.entries.map Attribute.line

end ClassFile.Names

/-- What it takes that nothing is missing in the report on a class file. -/
structure ClassFile.Reportable (file : ClassFile) (bytes : Bytes) : Prop where
  named : file.Named bytes.length
  /-- The constants that a report lists are all that there are. -/
  listed : ∀ i entry, file.pool.get i = .ok entry ↔ entry ∈ file.pool.entries ∧ entry.index = i
  ordered : file.pool.entries.Pairwise (·.index < ·.index)
  reported : ∃ names : Names, names.Found file ∧ ∀ path, report path bytes =
    ⟨0, String.join ((names.lines file).map (· ++ "\n")), ""⟩

/-- Nothing is left out of a list if there is a line for each item. -/
theorem filterMap_eq_zipWith {line? : α → Option γ} {line : α → β → γ} {items : List α}
    {answers : List β}
    (each : List.Forall₂ (fun item answer => line? item = some (line item answer)) items answers) :
    items.filterMap line? = List.zipWith line items answers := by
  induction each with
  | nil => rfl
  | cons here _ ih => rw [List.filterMap_cons_some here, ih, List.zipWith_cons_cons]

theorem map_eq_zipWith {shown : α → γ} {line : α → β → γ} {items : List α} {answers : List β}
    (each : List.Forall₂ (fun item answer => shown item = line item answer) items answers) :
    items.map shown = List.zipWith line items answers := by
  rw [← List.filterMap_eq_map]
  exact filterMap_eq_zipWith (each.imp fun _ _ same => congrArg some same)

namespace ClassFile

variable {bytes : Bytes} {file : ClassFile} {names : Names}

namespace Names

theorem Found.poolLines (found : names.Found file) :
    file.poolLines = List.zipWith constantLine file.pool.entries names.constants := by
  refine filterMap_eq_zipWith (found.constants.imp fun entry text resolved => ?_)
  rw [Entry.line?, resolved]
  rfl

theorem Found.fieldLines (found : names.Found file) :
    file.fields.items.map file.fieldLine = List.zipWith fieldLine file.fields.items names.fields := by
  refine map_eq_zipWith (found.fields.imp fun field both here => ?_)
  rw [ClassFile.fieldLine, Member.nameIn, Member.descriptorIn, here.1, here.2]
  rfl

theorem Found.methodLines (found : names.Found file) : file.methods.items.map file.methodLines =
    List.zipWith (methodLines file.pool) file.methods.items names.methods := by
  refine map_eq_zipWith (found.methods.imp fun method both here => ?_)
  rw [ClassFile.methodLines, Member.nameIn, Member.descriptorIn, here.1, here.2, Names.methodLines]
  cases method.attributes.code? <;> rfl

theorem Found.shown_own (found : names.Found file) : shown "<invalid>" file.className = names.own := by
  rcases found.own with named | ⟨single, none⟩
  · rw [ClassFile.className, named]
    rfl
  · rw [ClassFile.className, Pool.className_of_single single, none]
    rfl

/-- All interfaces are named, since each of them is. -/
theorem Found.interfaceNames (found : names.Found file) : file.interfaceNames = .ok names.interfaces :=
  Error.mapM_eq_ok.mpr found.interfaces

/-- A report is put together from the names that are found alone. -/
theorem Found.dumpLines (found : names.Found file) : file.dumpLines = names.lines file := by
  have super : shown "<invalid>" file.superName = names.super := by
    rw [superName, found.super]
    rfl
  rw [ClassFile.dumpLines, headerLines, found.shown_own, super, found.interfaceNames, found.poolLines,
    found.fieldLines, List.flatMap_def, found.methodLines]
  rfl

end Names

section Decoded

variable (decoded : decode bytes = .ok file)
include decoded

theorem consistent_of_decode : ∃ width, file.pool.Consistent file.poolCount.toNat width := by
  obtain ⟨_, _, _, _, _, _, _, _, pooled, _⟩ := decode_eq_ok.mp decoded
  exact ⟨_, Pool.consistent_of_grammar pooled⟩

/-- Every entry is found under its index, and so is its text. -/
theorem resolved {entry : Entry} (member : entry ∈ file.pool.entries) :
    Answered (file.pool.resolve entry.index) := by
  obtain ⟨_, consistent⟩ := consistent_of_decode decoded
  exact (Pool.resolve_agree (validate_of_decode decoded) entry.index).exists_ok
    ⟨entry, consistent.get_iff.mpr ⟨member, rfl⟩⟩

theorem exists_own : ∃ own, file.pool.className file.thisClass.toNat = .ok own ∨
    file.pool.count = 1 ∧ own = "<invalid>" := by
  rcases Nat.eq_or_lt_of_le (Nat.le_add_left 1 file.pool.slots.size) with single | more
  · exact ⟨_, .inr ⟨single.symm, rfl⟩⟩
  · obtain ⟨own, found⟩ := (own_answered_iff decoded).mpr more
    exact ⟨own, .inl found⟩

omit decoded in
theorem exists_called {set : FlagSet} {members : List (Member set)} (each : ∀ member ∈ members,
    Answered (member.nameIn file.pool) ∧ Answered (member.descriptorIn file.pool)) :
    ∃ found, List.Forall₂ (Member.Called file.pool) members found := by
  refine exists_forall₂ fun member listed => ?_
  obtain ⟨⟨name, named⟩, descriptor, described⟩ := each member listed
  exact ⟨(name, descriptor), named, described⟩

/-- Every word that a report needs is found. -/
theorem exists_names : ∃ names : Names, names.Found file := by
  have named := named_of_decode decoded
  obtain ⟨own, owned⟩ := exists_own decoded
  obtain ⟨super, above⟩ := named.super
  obtain ⟨interfaces, implemented⟩ := named.interfaces
  obtain ⟨constants, resolved⟩ := exists_forall₂ fun _ => resolved decoded
  obtain ⟨fields, stored⟩ := exists_called named.fields
  obtain ⟨methods, called⟩ := exists_called named.methods
  exact ⟨⟨own, super, interfaces, constants, fields, methods⟩,
    owned, above, Error.mapM_eq_ok.mp implemented, resolved, stored, called⟩

end Decoded

/-- A class file that decodes can always be reported in full. -/
theorem decode_reportable (decoded : decode bytes = .ok file) : file.Reportable bytes where
  named := named_of_decode decoded
  listed _ _ := by
    obtain ⟨_, consistent⟩ := consistent_of_decode decoded
    exact consistent.get_iff
  ordered := by
    obtain ⟨_, consistent⟩ := consistent_of_decode decoded
    exact consistent.ordered
  reported := by
    obtain ⟨names, found⟩ := exists_names decoded
    refine ⟨names, found, fun path => ?_⟩
    rw [report, decoded, ← found.dumpLines]
    rfl

/-- A class with a superclass, an interface, a field and a method, which names its source twice. -/
def sourceSample : Bytes :=
  [0xca, 0xfe, 0xba, 0xbe, 0, 0, 0, 52, 0, 4, 1, 0, 1, 0x41, 7, 0, 1, 1, 0, 10] ++
  [0x53, 0x6f, 0x75, 0x72, 0x63, 0x65, 0x46, 0x69, 0x6c, 0x65, 0, 0x21, 0, 2, 0, 2, 0, 1, 0, 2] ++
  [0, 1, 0, 2, 0, 1, 0, 1, 0, 0, 0, 1, 0, 1, 0, 1, 0, 1, 0, 0] ++
  [0, 2, 0, 3, 0, 0, 0, 2, 0, 1, 0, 3, 0, 0, 0, 2, 0, 1]

theorem decode_sourceSample :
    ∃ file, decode sourceSample = .ok file ∧ file.Reportable sourceSample := by
  obtain ⟨file, decoded⟩ : ∃ file, decode sourceSample = .ok file := exists_of_isOk (by decide +kernel)
  exact ⟨file, decoded, decode_reportable decoded⟩

end ClassFile
end ClassFormat
