import ClassFormat.Proofs.Keeping
import ClassFormat.Proofs.Recording
import ClassFormat.Proofs.Relocating

/-! Decoding an attribute table warns of each attribute that is overwritten, and of nothing else. What
is recorded further down belongs to the tables there. -/
namespace ClassFormat

namespace Event

/-- Whether the event is shown as a warning. -/
def isWarning (event : Event) : Bool := event.line?.any (·.1 = .warn)

theorem lines_warn (events : List Event) :
    (lines events).filter (·.1 = .warn) = lines (events.filter isWarning) := by
  rw [lines, lines, List.filter_filterMap, List.filterMap_filter]
  congr 1
  funext event
  rw [isWarning]
  cases event.line? with
  | none => rfl
  | some line => by_cases warns : line.1 = .warn <;> simp [warns, Option.filter]

/-- The events that lie in no level of nesting, where `depth` levels are open at first. -/
def outside : Nat → List Event → List Event
  | _, [] => []
  | depth, opened _ :: rest => outside (depth + 1) rest
  | depth, closed :: rest => outside (depth - 1) rest
  | 0, event :: rest => event :: outside 0 rest
  | depth + 1, _ :: rest => outside (depth + 1) rest

/-- The warnings that are given in no level of nesting opened among the events. -/
def warnings (events : List Event) : List Event := (outside 0 events).filter isWarning

/-- Whether all levels that are opened are closed again. -/
def Balanced (events : List Event) : Prop :=
  ∀ depth more, outside (depth + 1) (events ++ more) = outside (depth + 1) more

/-- Whether no warning is given but in levels that are opened and closed. -/
def Hushed (events : List Event) : Prop :=
  ∀ more, warnings (events ++ more) = warnings more

theorem outside_cons {event : Event} (flat : event.isLevel = false) (rest : List Event) :
    outside 0 (event :: rest) = event :: outside 0 rest := by
  cases event <;> first | rfl | cases flat

theorem balanced_single {event : Event} (flat : event.isLevel = false) : Balanced [event] := by
  intro depth more
  cases event <;> first | rfl | cases flat

theorem warnings_cons {event : Event} (flat : event.isLevel = false) (rest : List Event) :
    warnings (event :: rest) = if event.isWarning then event :: warnings rest else warnings rest := by
  rw [warnings, outside_cons flat, List.filter_cons]
  rfl

theorem hushed_single {event : Event} (flat : event.isLevel = false) (calm : event.isWarning = false) :
    Hushed [event] := by
  intro more
  rw [List.singleton_append, warnings_cons flat, calm]
  rfl

/-- Nothing that is said in a level further down counts here. -/
theorem Balanced.nested {events : List Event} (balanced : Balanced events) (offset : Nat) :
    Hushed (opened offset :: (events ++ [closed])) := by
  intro more
  have inner := balanced 0 (closed :: more)
  rw [warnings, List.cons_append, List.append_assoc, List.singleton_append, outside, inner]
  rfl

theorem Balanced.deeper {events : List Event} (balanced : Balanced events) (offset : Nat) :
    Balanced (opened offset :: (events ++ [closed])) := by
  intro depth more
  rw [List.cons_append, List.append_assoc, List.singleton_append, outside, balanced (depth + 1)]
  rfl

end Event

namespace Decoder

theorem additive_balanced : Additive Event.Balanced where
  nil _ _ := rfl
  append first second depth more := by rw [List.append_assoc, first, second]

theorem additive_hushed : Additive Event.Hushed where
  nil _ := rfl
  append first second more := by rw [List.append_assoc, first, second]

/-- Whatever lies in an attribute table, all levels are closed that are opened. -/
theorem records_balanced (pool : Pool) {layout : Layout α} (plain : layout.Plain True) :
    (layout.decode pool).Records Event.Balanced := by
  have steps := additive_balanced.steps fun _ => Event.balanced_single
  refine steps.layout plain (fun _ _ _ _ inner => ?_) fun _ _ limit => ?_
  · exact inner.nested fun _ offset balanced => balanced.deeper offset
  · exact additive_balanced.bind additive_balanced.offset fun _ => records_throw _

end Decoder

open Decoder

section Tables

variable {pool : Pool}

theorem records_nested {inner : Layout α} (plain : inner.Plain True) :
    ((Layout.nested inner).decode pool).Records Event.Hushed :=
  (records_balanced pool plain).nested fun _ offset balanced => balanced.nested offset

theorem records_tooDeep (α : Type) (limit : Nat) :
    ((Layout.tooDeep limit : Layout α).decode pool).Records Event.Hushed :=
  additive_hushed.bind additive_hushed.offset fun _ => records_throw _

theorem records_code : (Layout.code.decode pool).Records Event.Hushed := by
  have steps := additive_hushed.sequential
  exact steps.bind steps.read fun _ => steps.bind additive_hushed.offset fun _ =>
    steps.bind (steps.take _) fun _ => steps.bind (steps.demand _) fun _ =>
      steps.bind (records_record (Event.hushed_single rfl rfl)) fun _ => steps.pure _

theorem records_entry {element : Layout Element} {attributes : Layout Table}
    (values : (element.decode pool).Records Event.Hushed)
    (tables : (attributes.decode pool).Records Event.Hushed) :
    ((Layout.entry (Payload.layout element attributes)).decode pool).Records Event.Hushed := by
  have steps := additive_hushed.sequential
  have closed := steps.closed pool True
  have payload (kind : AttributeKind) (length : Nat) :
      ((Payload.layout element attributes kind length).decode pool).Records Event.Hushed :=
    closed.payloadOf records_code values tables kind length
  refine steps.bind steps.read fun nameIndex => steps.bind (steps.demand _) fun name =>
    steps.bind steps.read fun length => ?_
  split
  next kind known =>
    refine steps.bind (records_record (Event.hushed_single rfl rfl)) fun _ =>
      steps.bind additive_hushed.offset fun start => steps.bind (payload kind _) fun payload =>
        steps.bind additive_hushed.offset fun stop => ?_
    simp only
    split
    next => exact steps.pure _
    next => exact steps.throw _ _
  next unknown =>
    exact steps.bind (records_record (Event.hushed_single rfl rfl)) fun _ =>
      steps.bind (additive_hushed.onCursor _) fun _ => steps.pure _

/-- An attribute alone gives no warning but in the tables inside it. -/
theorem Attribute.records_hushed (limit levels : Nat) :
    ((Attribute.layout limit levels).decode pool).Records Event.Hushed := by
  have closed := additive_hushed.sequential.closed pool True
  cases levels with
  | zero =>
    have values := closed.elementWith (records_tooDeep Annotation limit) (records_tooDeep Element limit)
    exact records_entry values (records_tooDeep Table limit)
  | succ levels =>
    have plain := Element.layout_plain limit levels
    have values := closed.elementWith (records_nested ( Annotation.layoutWith_plain plain))
      (records_nested plain)
    exact records_entry values (records_nested (Table.layout_plain limit levels))

end Tables

namespace Table

/-- The warning that an attribute was overwritten. -/
def warning (earlier : Attribute) : Event := .replaced earlier.name earlier.nameIndex.offset

/-- One more entry. A warning, if there is one, moves no cursor. -/
theorem decodeEntries_succ {entry : Decoder Attribute} {n : Nat} {before entries : List Attribute}
    {s after : State}
    (run : Layout.decodeEntries entry (n + 1) (collect [] before) s = .ok entries after) :
    ∃ next middle, entry s = .ok next middle ∧ ∃ reached : State, reached.cursor = middle.cursor ∧
      reached.trace.toList =
        middle.trace.toList ++ ((before.findRev? (·.name = next.name)).map warning).toList ∧
      Layout.decodeEntries entry n (collect [] (before ++ [next])) reached = .ok entries after := by
  obtain ⟨next, middle, head, rest⟩ := bind_eq_ok.mp run
  have grown : insert next (collect [] before) = collect [] (before ++ [next]) :=
    (collect_append [] before [next]).symm
  rw [find?_collect_nil, grown] at rest
  refine ⟨next, middle, head, ?_⟩
  cases found : before.findRev? (·.name = next.name) with
  | some earlier =>
    rw [found] at rest
    exact ⟨{ middle with trace := middle.trace.push (warning earlier) }, rfl, Array.toList_push, rest⟩
  | none =>
    rw [found] at rest
    exact ⟨middle, rfl, (List.append_nil _).symm, rest⟩

/-- Attributes that are decoded into a table of those before them. The warning about the next attribute
comes behind whatever the attribute itself records. -/
theorem decodeEntries_warnings {entry : Decoder Attribute} {writes : Grammar Attribute}
    (reads : entry.Reads writes) (hushed : entry.Records Event.Hushed) {n : Nat} {before : List Attribute}
    {s after : State} {entries : List Attribute}
    (run : Layout.decodeEntries entry n (collect [] before) s = .ok entries after) :
    ∃ more bytes later, more.length = n ∧ s.cursor.Passes bytes after.cursor ∧
      writes.each s.cursor.offset more bytes ∧ entries = collect [] (before ++ more) ∧
      after.trace.toList = s.trace.toList ++ later ∧
      Event.warnings later =
        ((List.range' before.length n).filterMap (previous? (before ++ more))).map warning := by
  induction n generalizing before s with
  | zero =>
    cases run
    exact ⟨[], [], [], rfl, .refl _, rfl, by rw [List.append_nil], by rw [List.append_nil], rfl⟩
  | succ n ih =>
    obtain ⟨next, middle, head, reached, still, told, tail⟩ := decodeEntries_succ run
    obtain ⟨content, passed, written⟩ := reads.sound head
    obtain ⟨early, recorded, quiet⟩ := hushed s next middle head
    have asked := previous?_at before next
    obtain ⟨more, bytes, late, size, further, others, kept, added, warned⟩ := ih tail
    rw [still] at further others
    rw [passed.offset] at others
    refine ⟨next :: more, content ++ bytes,
      early ++ (((before.findRev? (·.name = next.name)).map warning).toList ++ late),
      by rw [List.length_cons, size], passed.trans further, ⟨content, bytes, rfl, written, others⟩,
      ?_, ?_, ?_⟩
    · rw [kept, List.append_assoc, List.singleton_append]
    · rw [added, told, recorded, List.append_assoc, List.append_assoc]
    · rw [List.length_append, List.length_singleton, List.append_assoc, List.singleton_append] at warned
      rw [quiet, List.range'_succ, List.filterMap_cons, asked]
      cases before.findRev? (·.name = next.name) with
      | some earlier =>
        rw [Option.map_some, Option.toList_some, List.singleton_append, Event.warnings_cons rfl, warned]
        rfl
      | none => exact warned

/-- A warning is shown with the name and the place of what was overwritten. -/
theorem lines_warning (overwritten : List Attribute) :
    Event.lines (overwritten.map warning) = overwritten.map fun earlier => (.warn, "Duplicate " ++ earlier.name ++
      s!" attribute, the one at offset {earlier.nameIndex.offset} was overwritten") := by
  have shown (earlier : Attribute) := Event.line?_eq_warn.mpr ⟨earlier.name, earlier.nameIndex.offset, rfl, rfl⟩
  rw [Event.lines, List.filterMap_map, ← List.filterMap_eq_map]
  exact List.filterMap_congr fun earlier _ => shown earlier

/-- How an attribute table is decoded between two states. -/
structure DecodedAs (pool : Pool) (limit levels : Nat) (s after : State) (held : Table)
    (written : List Attribute) : Prop where
  /-- These attributes are what is decoded one after the other where the table stands. -/
  alone : ∃ final, (do
      let count : U2 ← Decoder.read
      Decoder.times count.toNat ((Attribute.layout limit levels).decode pool)) s = .ok written final ∧
    final.cursor = after.cursor
  keeps : held.Keeps written
  /-- One warning for each attribute that is overwritten, and no other outside of tables further down. -/
  warned : ∃ later, after.trace.toList = s.trace.toList ++ later ∧
    Event.warnings later = (overwritten written).map warning ∧
    (Event.lines (Event.outside 0 later)).filter (·.1 = .warn) = (overwritten written).map fun earlier =>
      (.warn, "Duplicate " ++ earlier.name ++
        s!" attribute, the one at offset {earlier.nameIndex.offset} was overwritten")

theorem decode_keeps {pool : Pool} {limit levels : Nat} {s after : State} {held : Table}
    (decoded : (Table.layout limit levels).decode pool s = .ok held after) :
    ∃ written, DecodedAs pool limit levels s after held written := by
  have reads := Layout.decode_reads pool (Attribute.layout limit levels)
  rw [Table.layout_eq, Layout.decode] at decoded
  obtain ⟨count, middle, head, rest⟩ := bind_eq_ok.mp decoded
  obtain ⟨entries, _, run, ended⟩ := bind_eq_ok.mp rest
  cases ended
  obtain ⟨written, bytes, later, size, passed, each, kept, recorded, warned⟩ :=
    decodeEntries_warnings reads (Attribute.records_hushed limit levels)
      (show Layout.decodeEntries _ _ (collect [] []) middle = _ from run)
  have still := trace_onCursor head
  obtain ⟨final, alone⟩ := (Decoder.Reads.times reads count.toNat).complete ⟨size, each⟩ passed middle.trace
  have told : Event.warnings later = (overwritten written).map warning := by
    rw [warned, ← size, overwritten, List.range_eq_range']
    rfl
  refine ⟨written, ⟨⟨_, final⟩, bind_eq_ok.mpr ⟨count, middle, head, alone⟩, rfl⟩,
    keeps_collect size kept, later, ?_, told, ?_⟩
  · rw [recorded, still]
  · rw [Event.lines_warn, ← lines_warning, ← told]
    rfl

section Sample

/-- A pool that holds the names of two attributes without contents. -/
def markerPool : Pool := ⟨#[some ⟨1, ⟨Tag.utf8.byte, 10⟩, .utf8 ⟨10, 11⟩ "Deprecated"⟩,
  some ⟨2, ⟨Tag.utf8.byte, 23⟩, .utf8 ⟨9, 24⟩ "Synthetic"⟩]⟩

/-- A table of four attributes; the first, the third and the last have the same name. -/
def repeatedSample : Bytes := [0, 4,
  0, 1, 0, 0, 0, 0, 0, 2, 0, 0, 0, 0, 0, 1, 0, 0, 0, 0, 0, 1, 0, 0, 0, 0]

/-- Two attributes are left, and two are overwritten. -/
theorem decode_repeatedSample :
    let s : State := ⟨.startingAt 0 repeatedSample, #[]⟩
    ∃ held after written, (layout 0 0).decode markerPool s = .ok held after ∧
      DecodedAs markerPool 0 0 s after held written ∧ held.size = 2 := by
  have accepted : (match (layout 0 0).decode markerPool ⟨.startingAt 0 repeatedSample, #[]⟩ with
    | .ok held _ => held.size == 2
    | .error .. => false) = true := by decide +kernel
  cases run : (layout 0 0).decode markerPool ⟨.startingAt 0 repeatedSample, #[]⟩ with
  | error cause after =>
    rw [run] at accepted
    cases accepted
  | ok held after =>
    rw [run] at accepted
    obtain ⟨written, as⟩ := decode_keeps run
    exact ⟨held, after, written, run, as, by simpa using accepted⟩

end Sample

end Table
end ClassFormat
