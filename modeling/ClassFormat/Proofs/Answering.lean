import ClassFormat.Proofs.Computing
import ClassFormat.Proofs.Placing

/-! What a decoded file can be asked for on a machine. Everything that it holds lies within the bytes it was
decoded from, so the place behind it is exact wherever their number is, and the shape of a frame says enough
about its type for what is taken off from it. -/
namespace ClassFormat

open Machine

variable {pool : Pool} {offset : Nat} {bytes : Bytes}

/-! ### Frames -/

/-- A frame that is not extended has an item on the stack only from type 64 on. -/
theorem FrameKind.le_of_oneItem {type : UInt8} (known : ofByte? type = some oneItem) : 64 ≤ type.toNat := by
  unfold ofByte? at known
  split at known
  next => cases known
  next above => exact UInt8.le_iff_toNat_le.mp (UInt8.not_lt.mp above)

theorem FrameKind.oneItem_of_writes {kind : FrameKind} {stack : VerificationType}
    (written : kind.layout.Writes pool offset (.oneItem stack) bytes) : kind = .oneItem := by
  cases kind with
  | oneItem => rfl
  | _ =>
    obtain ⟨_, made, _⟩ := written
    cases made

theorem Frame.delta?_of_writes {frame : Frame} (written : Frame.layout.Writes pool offset frame bytes) :
    delta? frame = some frame.delta := by
  obtain ⟨⟨type, body⟩, rfl, kind, rest, known, -, -, content⟩ := written
  have told (word : U2) : fit? UInt16.size word.toNat = some word.toNat :=
    fit?_of_lt word.value.toNat_lt
  cases body with
  | same => exact fit?_of_lt (Nat.lt_trans type.value.toNat_lt (by decide))
  | oneItem stack =>
    obtain rfl := FrameKind.oneItem_of_writes content
    exact minus?_of_le (FrameKind.le_of_oneItem known)
  | oneItemExtended delta _ | chop delta | sameExtended delta | append delta _ | full delta _ _ =>
    exact told delta

section Tables

variable {held : Table} {limit levels : Nat}

/-- The attributes that a table keeps are among those that were written for it. -/
theorem Table.within_entries (written : (Table.layout limit levels).Writes pool offset held bytes)
    {item : Attribute} (member : item ∈ held.entries) :
    ∃ attributes : Layout Table, ((Layout.entry
      (Payload.layout (Element.layout limit levels) attributes)).Writes pool).Within offset bytes item := by
  obtain ⟨attributes, layout, -⟩ := Table.exists_layout pool limit levels
  rw [layout] at written
  obtain ⟨all, content, rfl, rfl, size, kept, each⟩ := written
  rw [kept] at member
  have among := (Table.mem_of_mem_collect member).resolve_left List.not_mem_nil
  obtain ⟨front, inner, back, rfl, here⟩ := Grammar.within_of_mem each among
  refine ⟨attributes, Word.toBytes held.count.value ++ front, inner, back, by simp, ?_⟩
  rw [List.length_append, Word.length_toBytes, ← Nat.add_assoc]
  exact here

theorem Table.delta?_of_writes (written : (Table.layout limit levels).Writes pool offset held bytes)
    {item : Attribute} {frames : Counted UInt16 Frame} {frame : Frame} (member : item ∈ held.entries)
    (mapped : item.payload = .stackMapTable frames) (listed : frame ∈ frames.items) :
    delta? frame = some frame.delta := by
  obtain ⟨attributes, _, _, _, _, content, -, -, -, -, -, payload⟩ := Table.within_entries written member
  rw [mapped] at payload
  split at payload
  next kind known =>
    have same := Payload.kind_of_writes payload
    cases same
    obtain ⟨whole, made, _, _, rfl, -, -, each⟩ := payload
    cases made
    obtain ⟨_, _, _, _, here⟩ := Grammar.within_of_mem each listed
    exact Frame.delta?_of_writes here
  next => cases payload

theorem Attribute.stop_le_of_mem {item : Attribute} (member : item ∈ held.entries) :
    item.stop ≤ held.stop :=
  List.le_max?_getD_of_mem (List.mem_map_of_mem member)

end Tables

namespace Machine

theorem attributeStop?_eq {item : Attribute} (exact : item.stop < UInt64.size) :
    attributeStop? item = some item.stop := by
  have start : stop? item.length = some item.length.stop := by
    apply fit?_of_lt
    exact Nat.lt_of_le_of_lt (Nat.le_add_right _ _) exact
  rw [attributeStop?, start]
  exact fit?_of_lt exact

theorem mapM_of_each {f : α → Option β} {g : α → β} {items : List α}
    (each : ∀ item ∈ items, f item = some (g item)) : items.mapM f = some (items.map g) := by
  induction items with
  | nil => rfl
  | cons item rest ih =>
    have others := ih fun other member => each other (List.mem_cons_of_mem _ member)
    rw [List.mapM_cons, each item List.mem_cons_self, others]
    rfl

theorem tableStop?_eq {held : Table} (exact : held.stop < UInt64.size) :
    tableStop? held = some held.stop := by
  have stops : held.entries.mapM attributeStop? = some (held.entries.map Attribute.stop) := by
    apply mapM_of_each
    intro item member
    exact attributeStop?_eq (Nat.lt_of_le_of_lt (Attribute.stop_le_of_mem member) exact)
  rw [tableStop?, stops, Option.bind_eq_bind, Option.bind_some]
  unfold Table.stop at exact ⊢
  cases furthest : (held.entries.map Attribute.stop).max? with
  | some stop => rfl
  | none =>
    rw [furthest] at exact
    exact fit?_of_lt exact

theorem entryWidth?_eq (entry : Entry) : entryWidth? entry = some entry.width := by
  have small : entry.constant.width ≤ 2 + 0xffff := by
    cases entry.constant with
    | utf8 length text => exact Nat.add_le_add_left (Nat.le_of_lt_succ length.value.toNat_lt) 2
    | _ => simp [Constant.width]
  have payload : fit? UInt64.size entry.constant.width = some entry.constant.width :=
    fit?_of_small (by omega)
  rw [entryWidth?, payload]
  exact fit?_of_small (by omega)

theorem release?_eq (version : Version) : release? version = some version.release? := by
  by_cases early : version.major < 45
  · simp [release?, Version.release?, early]
  · have least : 44 ≤ version.major.toNat := by
      have bound := UInt16.le_iff_toNat_le.mp (UInt16.not_lt.mp early)
      exact Nat.le_of_succ_le bound
    simp only [release?, Version.release?, early, minus?_of_le least, ↓reduceIte]
    split <;> rfl

end Machine

namespace ClassFile

/-- Whether all that a file can be asked for is exact, for a file that was decoded from these bytes. -/
structure Answers (bytes : Bytes) (file : ClassFile) : Prop where
  /-- The place behind any part can be told, whatever it is a part of. -/
  parts : ∀ part, file.HasPart part → part.stop ≤ bytes.length
  count : count? file.pool = some file.pool.count
  release : release? file.version = some file.version.release?
  entries : ∀ entry ∈ file.pool.entries, entryWidth? entry = some entry.width
  stop : tableStop? file.attributes = some file.stop
  attributes : ∀ held item, file.HasPart (.table held) → item ∈ held.entries →
    attributeStop? item = some item.stop ∧ item.stop ≤ bytes.length
  instructions : ∀ length instructions, file.HasPart (.code length instructions) →
    ∀ instruction ∈ instructions, instructionWidth? instruction = some instruction.width
  deltas : ∀ held item frames frame, file.HasPart (.table held) → item ∈ held.entries →
    item.payload = .stackMapTable frames → frame ∈ frames.items → delta? frame = some frame.delta

section Decoded

variable {file : ClassFile} (decoded : decode bytes = .ok file)
include decoded

theorem HasPart.stop_le {part : Part} (has : file.HasPart part) : part.stop ≤ bytes.length := by
  obtain ⟨front, content, back, rfl, written⟩ := has.within decoded
  rw [Part.stop_of_grammar written]
  simp only [List.length_append]
  omega

/-- No instruction is wider than the file that it was read from. -/
theorem HasPart.width_le {length : U4} {instructions : Array Instruction}
    (has : file.HasPart (.code length instructions)) {instruction : Instruction}
    (member : instruction ∈ instructions) : instruction.width ≤ bytes.length := by
  obtain ⟨_, _, _, rfl, -, -, each⟩ := has.within decoded
  obtain ⟨_, _, _, rfl, form, -, rfl, rfl⟩ := Grammar.within_of_mem each (Array.mem_toList_iff.mpr member)
  simp only [List.length_append, List.length_cons, Instruction.width, Instruction.Form.placed]
  omega

theorem decode_answers (short : bytes.length < UInt64.size) : file.Answers bytes where
  parts part has := has.stop_le decoded
  count := by
    obtain ⟨_, _, _, _, _, _, _, _, pooled, _⟩ := decode_eq_ok.mp decoded
    apply fit?_of_lt
    rw [pooled.2.1]
    exact file.poolCount.value.toNat_lt
  release := release?_eq file.version
  entries entry _ := entryWidth?_eq entry
  stop := by
    have has : file.HasPart (.table file.attributes) := .listed (by simp [ClassFile.parts, Body.parts])
    exact tableStop?_eq (Nat.lt_of_le_of_lt (has.stop_le decoded) short)
  attributes held item has member := by
    have inside := Nat.le_trans (Attribute.stop_le_of_mem member) (has.stop_le decoded)
    exact ⟨attributeStop?_eq (Nat.lt_of_le_of_lt inside short), inside⟩
  instructions _ _ has _ member := fit?_of_lt (Nat.lt_of_le_of_lt (has.width_le decoded member) short)
  deltas held item frames frame has member mapped listed := by
    obtain ⟨_, _, _, _, _, _, _, written⟩ := has.within decoded
    exact Table.delta?_of_writes written member mapped listed

end Decoded

/-- No number is out of reach for the words of a machine, neither while a file is decoded, whatever comes of
that, nor afterwards. -/
theorem decode_exact (short : bytes.length < UInt64.size) :
    Guarded.Agrees Guarded.classFile (decodeWithin maxNesting) (.start bytes) ∧
      ∀ file, decode bytes = .ok file → file.Answers bytes :=
  ⟨Guarded.classFile_agrees short, fun _ decoded => decode_answers decoded short⟩

/-- A class with code, a switch of one jump, and a map of it, a frame of type 64. -/
def mappedSample : Bytes :=
  [0xca, 0xfe, 0xba, 0xbe, 0, 0, 0, 52, 0, 5, 1, 0, 1, 0x43, 7, 0, 1, 1, 0, 4, 0x43, 0x6f, 0x64, 0x65] ++
  [1, 0, 13, 0x53, 0x74, 0x61, 0x63, 0x6b, 0x4d, 0x61, 0x70, 0x54, 0x61, 0x62, 0x6c, 0x65] ++
  [0, 0x21, 0, 2, 0, 0, 0, 0, 0, 0, 0, 0, 0, 1, 0, 3, 0, 0, 0, 42, 0, 0, 0, 0, 0, 0, 0, 20] ++
  [0xaa, 0, 0, 0, 0, 0, 0, 0, 0x7f, 0xff, 0xff, 0xff, 0x7f, 0xff, 0xff, 0xff, 0, 0, 0, 0] ++
  [0, 0, 0, 1, 0, 4, 0, 0, 0, 4, 0, 1, 64, 1]

theorem decode_mappedSample : mappedSample.length < UInt64.size ∧
    Guarded.Agrees Guarded.classFile (decodeWithin maxNesting) (.start mappedSample) ∧
    ∃ file, decode mappedSample = .ok file ∧ file.Answers mappedSample := by
  have short : mappedSample.length < UInt64.size := by decide
  obtain ⟨file, decoded⟩ : ∃ file, decode mappedSample = .ok file := exists_of_isOk (by decide +kernel)
  obtain ⟨runs, answers⟩ := decode_exact short
  exact ⟨short, runs, file, decoded, answers file decoded⟩

end ClassFile
end ClassFormat
