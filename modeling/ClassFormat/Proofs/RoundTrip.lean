import ClassFormat.Proofs.Laying

/-! Decoding undoes writing. The bytes written from a description decode to the very class
file that is described, with every part in its place. -/
namespace ClassFormat

namespace Put.Lays

variable {pool : Pool}

/-- In the pool itself references are read before they are checked. -/
theorem unchecked (target : Target) (value : UInt16) : Lays pool .u2 id (Put.index target value) :=
  fun offset _ => ⟨⟨value, offset⟩, rfl, rfl, rfl⟩

theorem text {slot : Nat} {make : U2 × String → α} {chars : List Char}
    (short : (Text.Modified.encode chars).length < 0x10000) :
    Lays pool (Layout.text slot) make (do
      let length ← Put.word (UInt16.ofNat (Text.Modified.encode chars).length)
      let content ← Put.text chars
      return make (length, content)) := by
  intro offset met
  refine ⟨(⟨_, offset⟩, .ofList chars), rfl, Text.Modified.encode chars, chars, rfl, ?_,
    (UInt16.toNat_ofNat_of_lt' short).symm, Text.Modified.decode?_encode chars, rfl⟩
  exact congrArg (Word.toBytes _ ++ ·) (List.append_nil _)

end Put.Lays

namespace Draft

open Put (Lays)

variable {pool : Pool}

theorem Constant.lays (slot : Nat) (constant : Constant) :
    Lays pool (ClassFormat.Constant.layout slot constant.tag) id constant.put := by
  cases constant with
  | utf8 text => exact .as (.text text.short)
  | integer | float | long | double => exact .as (.last (.word _))
  | classRef | string | methodType | moduleRef | packageRef => exact .as (.last (.unchecked _ _))
  | fieldRef | methodRef | interfaceMethodRef | nameAndType =>
    exact .as (.bind (.unchecked _ _) fun _ => .last (.unchecked _ _))
  | methodHandle | dynamic | invokeDynamic =>
    exact .as (.bind (.word _) fun _ => .last (.unchecked _ _))

theorem Constant.tag_put (constant : Constant) (offset : Nat) :
    (constant.put offset).value.tag = constant.tag := by
  cases constant <;> rfl

/-- What a constant demands is what validation asks of it. -/
theorem Constant.linked_put (constant : Constant) (offset : Nat)
    (met : ∀ demand ∈ (constant.put offset).demands, demand.Met pool) :
    (constant.put offset).value.Linked pool := by
  cases constant with
  | utf8 | integer | float | long | double => trivial
  | classRef | string | methodType | moduleRef | packageRef => exact met _ List.mem_cons_self
  | fieldRef | methodRef | interfaceMethodRef | nameAndType =>
    exact ⟨met _ List.mem_cons_self, met _ (List.mem_cons_of_mem _ List.mem_cons_self)⟩
  | methodHandle kind => exact ⟨kind, rfl, met _ List.mem_cons_self⟩
  | dynamic | invokeDynamic => exact met _ List.mem_cons_self

theorem Constant.entry_lays (slot : Nat) (constant : Constant) :
    Lays pool (Entry.layout slot) id (constant.entry slot) :=
  .as (.tagged _ (Tag.ofByte?_byte constant.tag) fun _ => .last (constant.lays slot))

/-- Entries are written as the grammar of a pool asks, and their references lead somewhere. -/
theorem entries_written (slot : Nat) (constants : List Constant) (offset : Nat)
    (met : ∀ demand ∈ (entries slot constants offset).demands, demand.Met pool) :
    Pool.entriesFrom slot offset (entries slot constants offset).value
        (entries slot constants offset).bytes ∧
      (Pool.slotsOf (entries slot constants offset).value).length = slots constants ∧
      ∀ entry ∈ (entries slot constants offset).value, entry.constant.Linked pool := by
  induction constants generalizing slot offset with
  | nil => exact ⟨rfl, rfl, nofun⟩
  | cons constant rest ih =>
    have first := fun demand member => met demand (List.mem_append_left _ member)
    obtain ⟨written, filled, linked⟩ := ih (slot + constant.tag.slots)
      (offset + (constant.entry slot offset).bytes.length)
      fun _ member => met _ (List.mem_append_right _ (List.mem_append_left _ member))
    obtain ⟨entry, same, here⟩ := constant.entry_lays slot offset first
    obtain rfl : (constant.entry slot offset).value = entry := same
    have tag : (constant.entry slot offset).value.constant.tag = constant.tag := constant.tag_put _
    rw [Entry.writes_eq] at here
    refine ⟨⟨(constant.entry slot offset).bytes, _, rfl, here, ?_⟩, ?_, ?_⟩
    · rw [tag]
      change Pool.entriesFrom _ _ _ ((entries _ rest _).bytes ++ [])
      rw [List.append_nil]
      exact written
    · refine (Pool.length_slotsOf_cons _ _).trans ?_
      rw [tag]
      exact congrArg (constant.tag.slots + ·) filled
    · refine List.forall_mem_cons.mpr ⟨?_, linked⟩
      exact constant.linked_put _ fun _ member => first _
        (List.mem_append_right [] (List.mem_append_left [] member))

theorem pool_written {constants : List Constant} (offset : Nat)
    (met : ∀ demand ∈ (Draft.pool constants offset).demands,
      demand.Met (Draft.pool constants offset).value) :
    Pool.grammar (slots constants + 1) offset (Draft.pool constants offset).value
      (Draft.pool constants offset).bytes := by
  obtain ⟨written, filled, linked⟩ := entries_written 1 constants offset
    fun _ member => met _ (List.mem_append_left _ member)
  have known : (Draft.pool constants offset).value.entries = (entries 1 constants offset).value :=
    Pool.entries_slotsOf _
  have slots : (Draft.pool constants offset).value.slots.toList =
      Pool.slotsOf (entries 1 constants offset).value := rfl
  have bytes : (Draft.pool constants offset).bytes = (entries 1 constants offset).bytes :=
    List.append_nil _
  refine ⟨by rw [slots, known], ?_, by rw [known, bytes]; exact written, ?_⟩
  · rw [Pool.count, ← Array.length_toList, slots, filled]
  · rw [Pool.validate_eq_ok, known]
    exact linked

namespace ClassFile

theorem grammar_put {limit : Nat} (self : ClassFile limit) (sound : self.Sound) :
    ClassFormat.ClassFile.grammar limit 0 self.file self.bytes := by
  let entries := Draft.pool self.constants 10
  let body := self.body.put (10 + entries.bytes.length)
  have demands : (self.put 0).demands = entries.demands ++ (body.demands ++ []) := rfl
  have kept : self.file.pool = entries.value := rfl
  rw [Sound, demands, kept] at sound
  have number : (UInt16.ofNat (slots self.constants + 1)).toNat = slots self.constants + 1 :=
    UInt16.toNat_ofNat_of_lt' (Nat.add_lt_add_right (Nat.lt_succ_of_le self.room) 1)
  have pooled := pool_written 10 fun _ member => sound _ (List.mem_append_left _ member)
  rw [← number] at pooled
  obtain ⟨value, same, written⟩ := self.body.lays (10 + entries.bytes.length) fun _ member =>
    sound _ (List.mem_append_right _ (List.mem_append_left _ member))
  obtain rfl : body.value = value := same
  refine ⟨entries.bytes, body.bytes, rfl, rfl, rfl, rfl, rfl, ?_, pooled, written⟩
  have bytes : self.bytes = self.file.headingBytes ++ (entries.bytes ++ (body.bytes ++ [])) := rfl
  rw [bytes, List.append_nil]

/-- Decoding gives back what was written, offsets and all. -/
theorem decode_bytes (self : ClassFile ClassFormat.ClassFile.maxNesting) (sound : self.Sound) :
    ClassFormat.ClassFile.decode self.bytes = .ok self.file :=
  ClassFormat.ClassFile.decode_eq_ok.mpr (grammar_put self sound)

end ClassFile

section Sample

def Listed.none : Listed UInt16 α := ⟨[], Nat.le_of_ble_eq_true rfl⟩

def Listed.one (item : α) : Listed UInt16 α := ⟨[item], Nat.le_of_ble_eq_true rfl⟩

def Table.empty : {levels : Nat} → Table levels
  | 0 | _ + 1 => (⟨.none, .nil⟩ : TableOf ..)

def Table.one {levels : Nat} (item : AttributeOf (Element (levels + 1)) (Table levels)) :
    Table (levels + 1) :=
  (⟨.one item, .cons nofun .nil⟩ : TableOf ..)

/-- A class with a constant in two slots, a method whose code is one return, and an attribute
whose name means nothing. -/
def sampleWithin (levels : Nat) : ClassFile (levels + 1) where
  minor := 0
  major := 52
  constants := [.utf8 ⟨['C'], by decide⟩, .classRef 1, .utf8 ⟨['C', 'o', 'd', 'e'], by decide⟩,
    .utf8 ⟨['m'], by decide⟩, .utf8 ⟨['(', ')', 'V'], by decide⟩, .long (-2)]
  room := by decide
  body.flags := .truncate _ 0x21
  body.thisClass := 2
  body.superClass := 0
  body.interfaces := .none
  body.fields := .none
  body.methods := .one {
    flags := .truncate _ 1
    name := 4
    descriptor := 5
    attributes := .one ⟨3, .known (.code
      ⟨0, 1, [.plain 0xb1 []], ⟨⟨_, rfl⟩, trivial⟩, .none, .empty⟩)⟩ }
  body.attributes :=
    .one ⟨1, .unknown "C" (AttributeKind.ofName?_eq_none.mp (by decide)) [0xff]⟩

def sample : ClassFile ClassFormat.ClassFile.maxNesting := sampleWithin 63

def samplePool : Bytes := [1, 0, 1, 0x43, 7, 0, 1, 1, 0, 4, 0x43, 0x6f, 0x64, 0x65, 1, 0, 1, 0x6d,
  1, 0, 3, 0x28, 0x29, 0x56, 5, 0xff, 0xff, 0xff, 0xff, 0xff, 0xff, 0xff, 0xfe]

def sampleBody : Bytes := [0, 0x21, 0, 2, 0, 0, 0, 0, 0, 0, 0, 1, 0, 1, 0, 4, 0, 5, 0, 1, 0, 3,
  0, 0, 0, 13, 0, 0, 0, 1, 0, 0, 0, 1, 0xb1, 0, 0, 0, 0, 0, 1, 0, 1, 0, 0, 0, 1, 0xff]

end Sample

theorem decode_sample : sample.Sound ∧ ClassFormat.ClassFile.decode
    ([0xca, 0xfe, 0xba, 0xbe, 0, 0, 0, 52, 0, 8] ++ samplePool ++ sampleBody) = .ok sample.file := by
  have sound : sample.Sound := by decide +kernel
  have bytes : sample.bytes =
    [0xca, 0xfe, 0xba, 0xbe, 0, 0, 0, 52, 0, 8] ++ samplePool ++ sampleBody := by decide +kernel
  exact ⟨sound, bytes ▸ ClassFile.decode_bytes sample sound⟩

end Draft
end ClassFormat
