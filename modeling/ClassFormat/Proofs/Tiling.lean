import ClassFormat.Proofs.Placing

/-! A class file is tiled by what was decoded from it. Every part starts where the one before
it stops, from the first byte to the last, and so do attributes in their tables, except where
some have been replaced: there the others remain apart. -/
namespace ClassFormat

/-- What lies between two offsets. -/
structure Span where
  start : Nat
  stop : Nat
  deriving DecidableEq, Repr

namespace Span

/-- Spans one behind the other that leave nothing free between two offsets. -/
def Tiles : Nat → List Span → Nat → Prop
  | start, [], stop => start = stop
  | start, span :: rest, stop => span.start = start ∧ start ≤ span.stop ∧ Tiles span.stop rest stop

def Apart (first second : Span) : Prop := first.stop ≤ second.start ∨ second.stop ≤ first.start

def Inside (start stop : Nat) (span : Span) : Prop :=
  start ≤ span.start ∧ span.start ≤ span.stop ∧ span.stop ≤ stop

theorem tiles_append {start stop : Nat} {first second : List Span} :
    Tiles start (first ++ second) stop ↔
      ∃ middle, Tiles start first middle ∧ Tiles middle second stop := by
  induction first generalizing start with
  | nil => simp [Tiles]
  | cons span rest ih => simp [Tiles, ih, and_assoc]

theorem tiles_le {start stop : Nat} {spans : List Span} (tiled : Tiles start spans stop) :
    start ≤ stop := by
  induction spans generalizing start with
  | nil => exact Nat.le_of_eq tiled
  | cons span rest ih => exact Nat.le_trans tiled.2.1 (ih tiled.2.2)

/-- The spans of groups tile what those of their members tile. -/
theorem tiles_groups {parts : α → List Span} {whole : α → Span} {items : List α}
    (spans : ∀ item ∈ items, ∀ start stop, Tiles start (parts item) stop → whole item = ⟨start, stop⟩)
    {start stop : Nat} (tiled : Tiles start (items.flatMap parts) stop) :
    Tiles start (items.map whole) stop := by
  induction items generalizing start with
  | nil => exact tiled
  | cons item rest ih =>
    obtain ⟨middle, first, others⟩ := tiles_append.mp tiled
    have here := spans item List.mem_cons_self _ _ first
    rw [List.map_cons, here]
    have others := ih (fun item member => spans item (List.mem_cons_of_mem _ member)) others
    exact ⟨rfl, tiles_le first, others⟩

end Span

open ClassFormat.Span (Tiles Apart Inside)

def Scalar.span [Word κ] (scalar : Scalar κ) : Span := ⟨scalar.offset, scalar.stop⟩

def Part.span (part : Part) : Span := ⟨part.offset, part.stop⟩

/-- A flag word has two bytes, whatever bits it keeps. -/
def flagSpan {set : FlagSet} (word : Scalar (Flags set)) : Span := ⟨word.offset, word.offset + 2⟩

def Entry.span (entry : Entry) : Span := ⟨entry.tag.offset, entry.tag.offset + entry.width⟩

def Attribute.span (item : Attribute) : Span := ⟨item.nameIndex.offset, item.stop⟩

def Member.span {set : FlagSet} (member : Member set) : Span :=
  ⟨member.flags.offset, member.attributes.stop⟩

/-- The scalars of a member lie right behind each other, the count of its attributes last. -/
def Member.Tiled {set : FlagSet} (member : Member set) : Prop :=
  Tiles member.flags.offset [flagSpan member.flags, member.name.span, member.descriptor.span,
    member.attributes.count.span] member.attributes.count.stop

structure Table.Tiled (held : Table) : Prop where
  /-- Attributes of which none has been replaced. -/
  whole : held.entries.length = held.count.toNat →
    Tiles held.count.stop (held.entries.map Attribute.span) held.stop
  apart : (held.entries.map Attribute.span).Pairwise Apart
  inside : ∀ item ∈ held.entries, Inside held.count.stop held.stop item.span
  parts : ∀ item ∈ held.entries, Tiles item.nameIndex.offset (item.parts.map Part.span) item.stop

/-- A class file of so many bytes without a gap, an overlap or a rest. -/
structure ClassFile.Tiled (size : Nat) (file : ClassFile) : Prop where
  heading : Tiles 0 [file.magic.span, file.minor.span, file.major.span, file.poolCount.span]
    file.poolCount.stop
  pool : Tiles file.poolCount.stop (file.pool.entries.map Entry.span) file.flags.offset
  entries : ∀ entry ∈ file.pool.entries,
    Tiles entry.tag.offset (entry.parts.map Part.span) (entry.tag.offset + entry.width)
  opening : Tiles file.flags.offset (flagSpan file.flags :: file.thisClass.span ::
    file.superClass.span :: file.interfaces.count.span ::
      (file.interfaces.items.map Scalar.span ++ [file.fields.count.span])) file.fields.count.stop
  fields : Tiles file.fields.count.stop (file.fields.items.map Member.span) file.methods.count.offset
  methods : Tiles file.methods.count.stop (file.methods.items.map Member.span)
    file.attributes.count.offset
  field : ∀ member ∈ file.fields.items, member.Tiled
  method : ∀ member ∈ file.methods.items, member.Tiled
  tables : ∀ held, file.HasPart (.table held) → held.Tiled
  stop : file.stop = size

section Parts

variable {pool : Pool} {offset : Nat} {bytes : Bytes}

/-- Parts that are written one behind the other tile what is written. -/
theorem Part.tiles_of_each {parts : List Part} (written : (Part.grammar pool).each offset parts bytes) :
    Tiles offset (parts.map Part.span) (offset + bytes.length) := by
  induction parts generalizing offset bytes with
  | nil => rw [written]; rfl
  | cons part rest ih =>
    obtain ⟨xs, ys, rfl, head, tail⟩ := written
    refine ⟨Part.start_of_grammar head, ?_, ?_⟩
    · change offset ≤ part.stop
      rw [Part.stop_of_grammar head]
      omega
    · change Tiles part.stop _ _
      rw [Part.stop_of_grammar head, List.length_append, ← Nat.add_assoc]
      exact ih tail

theorem Attribute.tiles_of_each {items : List Attribute}
    (written : Grammar.each (fun place item => item.Stands pool place) offset items bytes) :
    Tiles offset (items.map Attribute.span) (offset + bytes.length) := by
  induction items generalizing offset bytes with
  | nil => rw [written]; rfl
  | cons item rest ih =>
    obtain ⟨xs, ys, rfl, head, tail⟩ := written
    refine ⟨head.start, ?_, ?_⟩
    · change offset ≤ item.stop
      rw [head.stop]
      omega
    · change Tiles item.stop _ _
      rw [head.stop, List.length_append, ← Nat.add_assoc]
      exact ih tail

/-- Two attributes of one table are the same one or lie apart. -/
theorem Attribute.apart_of_mem {items : List Attribute} {first second : Attribute}
    (written : Grammar.each (fun place item => item.Stands pool place) offset items bytes)
    (one : first ∈ items) (two : second ∈ items) :
    first = second ∨ Apart first.span second.span := by
  induction items generalizing offset bytes with
  | nil => cases one
  | cons item rest ih =>
    obtain ⟨xs, ys, rfl, head, tail⟩ := written
    have behind {other : Attribute} (member : other ∈ rest) : item.stop ≤ other.nameIndex.offset := by
      rw [head.stop]
      exact (Attribute.stop_le (Grammar.within_of_mem tail member)).1
    rcases List.mem_cons.mp one with same | later <;> rcases List.mem_cons.mp two with also | last
    · exact .inl (same.trans also.symm)
    · exact .inr (.inl (same ▸ behind last))
    · exact .inr (.inr (also ▸ behind later))
    · exact ih tail later last

theorem Table.tiled_of_writes {held : Table} {limit levels : Nat}
    (written : (Table.layout limit levels).Writes pool offset held bytes) : held.Tiled := by
  have stop := Table.stop_of_writes written
  obtain ⟨all, content, rfl, rfl, size, kept, each⟩ := Table.exists_written written
  have among {item : Attribute} (member : item ∈ held.entries) : item ∈ all := by
    rw [kept] at member
    exact (Table.mem_of_mem_collect member).resolve_left List.not_mem_nil
  have total : held.stop = held.count.offset + 2 + content.length := by
    rw [stop, List.length_append, Word.length_toBytes, Nat.add_assoc]
    rfl
  constructor
  case whole =>
    intro none
    have same : held.entries = all := by
      rw [kept] at none ⊢
      exact Table.collect_of_length (by simpa [size] using none)
    rw [same, total]
    exact Attribute.tiles_of_each each
  case apart =>
    have distinct : (held.entries.map Attribute.name).Nodup := by
      rw [kept]
      exact Table.names_collect_nodup all List.nodup_nil
    rw [List.pairwise_map]
    refine (List.pairwise_map.mp distinct).imp_of_mem fun one two different => ?_
    refine (Attribute.apart_of_mem each (among one) (among two)).resolve_left ?_
    rintro rfl
    exact different rfl
  case inside =>
    intro item member
    obtain ⟨front, inner, back, rfl, stands⟩ := Grammar.within_of_mem each (among member)
    have start : item.span.start = item.nameIndex.offset := rfl
    have last : item.span.stop = item.stop := rfl
    have first : held.count.stop = held.count.offset + 2 := rfl
    rw [Inside, start, last, stands.start, stands.stop, total, first]
    simp only [List.length_append]
    omega
  case parts =>
    intro item member
    obtain ⟨front, inner, back, rfl, stands⟩ := Grammar.within_of_mem each (among member)
    rw [stands.start, stands.stop]
    exact Part.tiles_of_each stands.parts

end Parts

/-- The parts of an entry fill as many bytes as its constant is said to have. -/
theorem Entry.span_of_tiles {entry : Entry} {start stop : Nat}
    (tiled : Tiles start (entry.parts.map Part.span) stop) : entry.span = ⟨start, stop⟩ := by
  obtain ⟨index, tag, constant⟩ := entry
  obtain ⟨begins, _, rest⟩ := tiled
  have last : stop = tag.offset + 1 + constant.width := by
    change Tiles (tag.offset + 1) (constant.parts.map Part.span) stop at rest
    cases constant with
    | utf8 length text =>
      obtain ⟨place, _, _, _, rfl⟩ := rest
      change length.offset = _ at place
      change length.offset + 2 + length.toNat = _ + (2 + length.toNat)
      omega
    | integer number | float number | long number | double number | classRef number | string number
    | methodType number | moduleRef number | packageRef number =>
      obtain ⟨place, _, rfl⟩ := rest
      exact congrArg (· + _) place
    | fieldRef first second | methodRef first second | interfaceMethodRef first second
    | nameAndType first second | dynamic first second | invokeDynamic first second
    | methodHandle first second =>
      obtain ⟨place, _, follows, _, rfl⟩ := rest
      change first.offset = _ at place
      change second.offset = first.offset + _ at follows
      change second.offset + 2 = _ + _
      rw [follows, place]
      rfl
  have same : tag.offset = start := begins
  rw [Entry.span, last, ← same, Entry.width, Nat.add_assoc]

theorem Member.span_of_tiles {set : FlagSet} {member : Member set} {start stop : Nat}
    (tiled : Tiles start (member.parts.map Part.span) stop) : member.span = ⟨start, stop⟩ := by
  obtain ⟨rfl, _, _, _, _, _, _, _, rfl⟩ := tiled
  rfl

theorem Member.tiled_of_tiles {set : FlagSet} {member : Member set} {start stop : Nat}
    (tiled : Tiles start (member.parts.map Part.span) stop) : member.Tiled := by
  obtain ⟨rfl, flags, name, named, descriptor, described, count, _⟩ := tiled
  refine ⟨rfl, flags, name, named, descriptor, described, count, ?_, rfl⟩
  exact Nat.le_trans (Nat.le_of_eq count.symm) (Nat.le_add_right _ 2)

/-- Every item of a list is tiled by its parts. -/
theorem Span.tiles_item {parts : α → List Span} {items : List α} {start stop : Nat}
    (tiled : Tiles start (items.flatMap parts) stop) {item : α} (member : item ∈ items) :
    ∃ first last, Tiles first (parts item) last := by
  obtain ⟨front, back, rfl⟩ := List.append_of_mem member
  rw [List.flatMap_append, List.flatMap_cons] at tiled
  obtain ⟨_, _, rest⟩ := tiles_append.mp tiled
  obtain ⟨_, here, _⟩ := tiles_append.mp rest
  exact ⟨_, _, here⟩

theorem ClassFile.decode_tiled {bytes : Bytes} {file : ClassFile}
    (decoded : decode bytes = .ok file) : file.Tiled bytes.length := by
  have tiled := Part.tiles_of_each (parts_of_decode decoded)
  simp only [ClassFile.parts, heading, Body.parts, partsOfClasses, Counted.parts, List.map_append,
    List.map_cons, List.map_nil, List.map_flatMap, List.cons_append, List.nil_append,
    Nat.zero_add] at tiled
  obtain ⟨magic, magicEnds, minor, minorEnds, major, majorEnds, counted, countEnds, rest⟩ := tiled
  obtain ⟨_, entries, rest⟩ := Span.tiles_append.mp rest
  obtain ⟨rfl, flags, this, thisEnds, super, superEnds, listed, listEnds, rest⟩ := rest
  obtain ⟨_, interfaces, rfl, fieldsCounted, rest⟩ := Span.tiles_append.mp rest
  obtain ⟨_, fields, rfl, methodsCounted, rest⟩ := Span.tiles_append.mp rest
  obtain ⟨_, methods, rfl, _, stop⟩ := Span.tiles_append.mp rest
  constructor
  case heading => exact ⟨magic, magicEnds, minor, minorEnds, major, majorEnds, counted, countEnds, rfl⟩
  case pool => exact Span.tiles_groups (fun _ _ _ _ => Entry.span_of_tiles) entries
  case entries =>
    intro entry member
    obtain ⟨first, last, here⟩ := Span.tiles_item entries member
    have span := Entry.span_of_tiles here
    cases span
    exact here
  case opening =>
    refine ⟨rfl, flags, this, thisEnds, super, superEnds, listed, listEnds,
      Span.tiles_append.mpr ⟨_, ?_, rfl, fieldsCounted, rfl⟩⟩
    refine Span.tiles_groups (fun _ _ _ _ alone => ?_) interfaces
    obtain ⟨rfl, _, rfl⟩ := alone
    rfl
  case fields => exact Span.tiles_groups (fun _ _ _ _ => Member.span_of_tiles) fields
  case methods => exact Span.tiles_groups (fun _ _ _ _ => Member.span_of_tiles) methods
  case field =>
    intro member listed
    obtain ⟨_, _, here⟩ := Span.tiles_item fields listed
    exact Member.tiled_of_tiles here
  case method =>
    intro member listed
    obtain ⟨_, _, here⟩ := Span.tiles_item methods listed
    exact Member.tiled_of_tiles here
  case tables =>
    intro held has
    obtain ⟨_, _, _, _, _, limit, levels, written⟩ := has.within decoded
    exact Table.tiled_of_writes written
  case stop => exact stop

/-- A class whose first attribute is replaced by one of the same name behind the second. -/
def ClassFile.replacedSample : Bytes :=
  [0xca, 0xfe, 0xba, 0xbe, 0, 0, 0, 52, 0, 4, 1, 0, 1, 0x43, 7, 0, 1, 1, 0, 1, 0x44] ++
  [0, 0x21, 0, 2, 0, 0, 0, 0, 0, 0, 0, 0, 0, 3] ++
  [0, 1, 0, 0, 0, 1, 0xff, 0, 3, 0, 0, 0, 0, 0, 1, 0, 0, 0, 2, 0xff, 0xff]

theorem ClassFile.decode_replacedSample :
    ∃ file, decode replacedSample = .ok file ∧ file.Tiled replacedSample.length := by
  obtain ⟨file, decoded⟩ : ∃ file, decode replacedSample = .ok file := exists_of_isOk (by decide +kernel)
  exact ⟨file, decoded, decode_tiled decoded⟩

end ClassFormat
