import ClassFormat.Proofs.Described
import ClassFormat.Proofs.FileGrammar

/-! Where the parts of a file lie. Listed parts lie one behind the other; the parts of an
attribute table lie within it, wherever earlier attributes have been replaced by later ones. -/
namespace ClassFormat

namespace Grammar

variable {item other : Grammar α}

/-- Somewhere within the bytes the value is written. -/
def Within (item : Grammar α) (offset : Nat) (bytes : Bytes) (value : α) : Prop :=
  ∃ front content back, bytes = front ++ (content ++ back) ∧
    item (offset + front.length) value content

theorem Within.deepen {offset : Nat} {front content back : Bytes} {value : α}
    (within : item.Within (offset + front.length) content value) :
    item.Within offset (front ++ (content ++ back)) value := by
  obtain ⟨before, inner, after, rfl, written⟩ := within
  exact ⟨front ++ before, inner, after ++ back, by simp,
    by simpa [Nat.add_assoc] using written⟩

theorem each_mono (weaker : ∀ offset value bytes, item offset value bytes → other offset value bytes)
    {offset : Nat} {values : List α} {bytes : Bytes} (written : item.each offset values bytes) :
    other.each offset values bytes := by
  induction values generalizing offset bytes with
  | nil => exact written
  | cons value rest ih =>
    obtain ⟨xs, ys, rfl, head, tail⟩ := written
    exact ⟨xs, ys, rfl, weaker _ _ _ head, ih tail⟩

theorem within_of_mem {offset : Nat} {values : List α} {bytes : Bytes} {value : α}
    (written : item.each offset values bytes) (member : value ∈ values) :
    item.Within offset bytes value := by
  obtain ⟨front, back, rfl⟩ := List.append_of_mem member
  obtain ⟨xs, _, rfl, _, content, ys, rfl, here, _⟩ := each_append.mp written
  exact ⟨xs, content, ys, rfl, here⟩

end Grammar

/-- How an attribute stands among the others of its table. -/
structure Attribute.Stands (pool : Pool) (offset : Nat) (item : Attribute) (bytes : Bytes) : Prop where
  start : item.nameIndex.offset = offset
  stop : item.stop = offset + bytes.length
  kind : item.payload.kind? = AttributeKind.ofName? item.name
  parts : (Part.grammar pool).each offset item.parts bytes

section Tables

variable {pool : Pool} {element : Layout Element} {attributes : Layout Table} {offset : Nat}
  {bytes : Bytes}

theorem Payload.kind_of_writes {kind : AttributeKind} {length : Nat} {payload : Payload}
    (written : (Payload.layout element attributes kind length).Writes pool offset payload bytes) :
    payload.kind? = some kind := by
  cases kind <;> obtain ⟨_, rfl, _⟩ := written <;> rfl

/-- An attribute stops where the bytes that are written for it do, whatever its payload is. -/
theorem Attribute.stop_of_entry {self : Attribute} {payload : AttributeKind → Nat → Grammar Payload}
    (written : Grammar.entry pool payload offset self bytes) : self.stop = offset + bytes.length := by
  obtain ⟨content, rfl, place, rfl, _, size, _⟩ := written
  rw [Attribute.stop, Scalar.stop, place]
  simp only [List.length_append, Word.length_toBytes, Word.width_u2, size, Scalar.width]
  omega

theorem Attribute.stands_of_writes {self : Attribute} (valued : element.Describes pool Element.parts)
    (nested : attributes.Describes pool fun held => [.table held])
    (written : (Layout.entry (Payload.layout element attributes)).Writes pool offset self bytes) :
    self.Stands pool offset bytes := by
  have parts := Attribute.described valued nested _ _ _ written
  have stop := Attribute.stop_of_entry written
  obtain ⟨content, rfl, _, rfl, _, _, payload⟩ := written
  refine ⟨rfl, stop, ?_, parts⟩
  split at payload
  next kind known => rw [Payload.kind_of_writes payload, known]
  next unknown => rw [payload, unknown]; rfl

/-- All attributes that were written for a table, of which it keeps the last of each name. -/
theorem Table.exists_written {held : Table} {limit levels : Nat}
    (written : (Table.layout limit levels).Writes pool offset held bytes) :
    ∃ all content, held.count.offset = offset ∧ bytes = Word.toBytes held.count.value ++ content ∧
      all.length = held.count.toNat ∧ held.entries = collect [] all ∧
      Grammar.each (fun place self => self.Stands pool place) (offset + 2) all content := by
  obtain ⟨attributes, layout, nested⟩ := Table.exists_layout pool limit levels
  rw [layout] at written
  obtain ⟨all, content, place, same, size, kept, each⟩ := written
  exact ⟨all, content, place, same, size, kept, Grammar.each_mono
    (fun _ _ _ => Attribute.stands_of_writes (Element.described limit levels) nested) each⟩

theorem Attribute.stop_le {self : Attribute}
    (within : Grammar.Within (fun place self => self.Stands pool place) offset bytes self) :
    offset ≤ self.nameIndex.offset ∧ self.stop ≤ offset + bytes.length := by
  obtain ⟨front, content, back, rfl, stands⟩ := within
  rw [stands.start, stands.stop]
  simp only [List.length_append]
  omega

/-- The last attribute that was written is kept, and no other stops behind it. -/
theorem Table.stop_of_each {held : Table} {all : List Attribute} {content : Bytes}
    (kept : held.entries = collect [] all)
    (each : Grammar.each (fun place self inner => self.stop = place + inner.length) held.count.stop
      all content) : held.stop = held.count.stop + content.length := by
  rcases List.eq_nil_or_concat all with rfl | ⟨front, last, rfl⟩
  · rw [Table.stop, kept, each]
    rfl
  · rw [List.concat_eq_append] at kept each
    obtain ⟨xs, ys, rfl, _, final⟩ := Grammar.each_append.mp each
    have lastStop := Grammar.each_singleton.mp final
    have furthest : (held.entries.map Attribute.stop).max? = some last.stop := by
      rw [List.max?_eq_some_iff]
      refine ⟨List.mem_map.mpr ⟨last, ?_, rfl⟩, ?_⟩
      · rw [kept]
        exact Table.last_mem_collect [] front last
      · intro stop listed
        obtain ⟨self, member, rfl⟩ := List.mem_map.mp listed
        rw [kept] at member
        have among := (Table.mem_of_mem_collect member).resolve_left List.not_mem_nil
        obtain ⟨before, inner, behind, whole, here⟩ := Grammar.within_of_mem each among
        have size := congrArg List.length whole
        simp only [List.length_append] at size
        omega
    rw [Table.stop, furthest, List.length_append, Option.getD_some, lastStop, Nat.add_assoc]

theorem Table.stop_of_writes {held : Table} {limit levels : Nat}
    (written : (Table.layout limit levels).Writes pool offset held bytes) :
    held.stop = offset + bytes.length := by
  obtain ⟨all, content, rfl, rfl, size, kept, each⟩ := Table.exists_written written
  rw [Table.stop_of_each kept (Grammar.each_mono (fun _ _ _ stands => stands.stop) each),
    List.length_append, Word.length_toBytes, ← Nat.add_assoc]
  rfl

theorem Part.start_of_grammar {part : Part} (written : Part.grammar pool offset part bytes) :
    part.offset = offset := written.1

theorem Part.stop_of_grammar {part : Part} (written : Part.grammar pool offset part bytes) :
    part.stop = offset + bytes.length := by
  obtain ⟨place, rest⟩ := written
  subst place
  cases part with
  | unsigned | signed => rw [rest.1]; rfl
  | selector => rw [rest.1]; rfl
  | flags =>
    obtain ⟨bits, rfl, _⟩ := rest
    rw [Word.length_toBytes]
    rfl
  | index | name => rw [rest.1, Word.length_toBytes]; rfl
  | text | looseText | code => rw [rest.1]; rfl
  | passed => rw [rest]; rfl
  | table =>
    obtain ⟨limit, levels, written⟩ := rest
    exact Table.stop_of_writes written

/-- The parts of a table lie within it. -/
theorem Table.within_of_mem {held : Table} {limit levels : Nat} {part : Part}
    (written : (Table.layout limit levels).Writes pool offset held bytes) (member : part ∈ held.parts) :
    (Part.grammar pool).Within offset bytes part := by
  obtain ⟨all, content, rfl, rfl, size, kept, each⟩ := Table.exists_written written
  rcases List.mem_cons.mp member with rfl | member
  · exact ⟨[], _, content, rfl, rfl, Word.length_toBytes _, Word.toNat_toBytes _⟩
  · obtain ⟨self, listed, member⟩ := List.mem_flatMap.mp member
    rw [kept] at listed
    have among := (Table.mem_of_mem_collect listed).resolve_left List.not_mem_nil
    obtain ⟨front, inner, back, rfl, stands⟩ := Grammar.within_of_mem each among
    have deeper := Grammar.within_of_mem stands.parts member
    rw [← Word.width_u2, ← Word.length_toBytes held.count.value] at deeper
    have placed : (Part.grammar pool).Within (held.count.offset + (Word.toBytes held.count.value).length)
        (front ++ (inner ++ back)) part := deeper.deepen
    rw [← List.append_nil (_ ++ (inner ++ back))]
    exact placed.deepen

/-- What can be reached from parts that lie within some bytes lies within them too. -/
theorem Reaches.written {parts : List Part} {part : Part} (reaches : Reaches parts part)
    (listed : ∀ part ∈ parts, (Part.grammar pool).Within offset bytes part) :
    (Part.grammar pool).Within offset bytes part := by
  induction reaches with
  | listed member => exact listed _ member
  | within member _ ih =>
    refine ih fun inner deeper => ?_
    obtain ⟨front, content, back, rfl, _, limit, levels, written⟩ := listed _ member
    exact (Table.within_of_mem written deeper).deepen

end Tables

/-- The entries of a pool are written as their parts. -/
theorem Pool.parts_of_entriesFrom {pool : Pool} {index offset : Nat} {entries : List Entry}
    {bytes : Bytes}
    (written : entriesFrom index offset entries bytes) :
    (Part.grammar pool).each offset (entries.flatMap Entry.parts) bytes := by
  induction entries generalizing index offset bytes with
  | nil => exact written
  | cons entry rest ih =>
    obtain ⟨xs, ys, rfl, head, tail⟩ := written
    rw [← Entry.writes_eq pool] at head
    exact Grammar.each_append.mpr ⟨xs, ys, rfl, Entry.described index _ _ _ head, ih tail⟩

namespace ClassFile

/-- A class file that decodes is written as its parts. -/
theorem parts_of_decode {bytes : Bytes} {file : ClassFile} (decoded : decode bytes = .ok file) :
    (Part.grammar file.pool).each 0 file.parts bytes := by
  obtain ⟨entries, rest, magic, minor, major, poolCount, _, rfl, pooled, written⟩ :=
    decode_eq_ok.mp decoded
  refine Grammar.each_append.mpr ⟨file.headingBytes, entries ++ rest, rfl, ?_,
    Grammar.each_append.mpr ⟨entries, rest, rfl, ?_, ?_⟩⟩
  · refine ⟨_, _, rfl, ⟨magic, Word.length_toBytes _, Word.toNat_toBytes _⟩,
      _, _, rfl, ⟨?_, Word.length_toBytes _, Word.toNat_toBytes _⟩,
      _, _, rfl, ⟨?_, Word.length_toBytes _, Word.toNat_toBytes _⟩,
      _, [], (List.append_nil _).symm, ⟨?_, Word.length_toBytes _, Word.toNat_toBytes _⟩, rfl⟩
    all_goals simpa [Part.offset, Part.number]
  · rw [length_headingBytes]
    exact Pool.parts_of_entriesFrom pooled.2.2.1
  · rw [length_headingBytes]
    exact Body.described (Table.described _ _) _ _ _ written

/-- Every part of a class file lies within its bytes. -/
theorem HasPart.within {bytes : Bytes} {file : ClassFile} {part : Part} (has : file.HasPart part)
    (decoded : decode bytes = .ok file) : (Part.grammar file.pool).Within 0 bytes part :=
  Reaches.written has fun _ member => Grammar.within_of_mem (parts_of_decode decoded) member

end ClassFile
end ClassFormat
