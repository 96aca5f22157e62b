import ClassFormat.Proofs.Beginning
import ClassFormat.Proofs.Spacing

/-! The log of a whole run. Whatever a file holds, and wherever its decoding ends, the lines come in the order
of the bytes that they are about, and each says what it is about and where that lies. -/
namespace ClassFormat

open Decoder

namespace Event

section Lists

variable {events : List Event} {event : Event} {place : Nat}

/-- Only warnings and the last line name no place of their own. -/
theorem shown_of_place? (named : event.place? = some place) : event.line?.isSome = true := by
  rw [Option.isSome_iff_ne_none]
  intro hidden
  rcases line?_eq_none.mp hidden with ⟨offset, rfl⟩ | rfl <;> cases named

theorem filterMap_place?_shown (events : List Event) :
    (events.filter (·.line?.isSome)).filterMap place? = events.filterMap place? := by
  rw [List.filterMap_filter]
  congr 1
  funext event
  cases named : event.place? with
  | none => simp
  | some place => simp [shown_of_place? named]

theorem filter_place?_eq_nil (absent : place ∉ events.filterMap place?) :
    events.filter (·.place? = some place) = [] := by
  apply List.filter_eq_nil_iff.mpr
  intro event listed also
  exact absent (List.mem_filterMap.mpr ⟨event, listed, of_decide_eq_true also⟩)

/-- A line about a place ends with that place, and it is no warning. -/
theorem line?_of_place? (named : event.place? = some place) :
    ∃ level text, event.line? = some (level, text ++ s!" offset {place}") ∧ level ≠ .warn := by
  cases event with
  | poolDecoded entries offset =>
    cases named
    refine ⟨.debug, s!"Decoded {entries} constant pool entries, class body starts at", ?_, by decide⟩
    simp only [line?, String.append_assoc]
    rfl
  | decoding name length offset =>
    cases named
    refine ⟨.trace, "Decoding " ++ name ++ s!" attribute of {length} bytes at", ?_, by decide⟩
    simp only [line?, String.append_assoc]
    rfl
  | skipping name length offset =>
    cases named
    refine ⟨.trace, "Skipping unknown " ++ name ++ s!" attribute of {length} bytes at", ?_, by decide⟩
    simp only [line?, String.append_assoc]
    rfl
  | codeDecoded instructions bytes offset =>
    cases named
    refine ⟨.trace, s!"Decoded {instructions} instructions from {bytes} bytes of code at", ?_, by decide⟩
    simp only [line?, String.append_assoc]
    rfl
  | replaced | opened | closed | classDecoded => cases named

/-- Names that are known are said to be decoded and others to be skipped. -/
theorem line?_headline (name : String) (length offset : Nat) : (headline name length offset).line? = some (.trace,
    (if (AttributeKind.ofName? name).isSome then "Decoding " else "Skipping unknown ") ++ name ++
      s!" attribute of {length} bytes at offset {offset}") := by
  rw [headline]
  cases AttributeKind.ofName? name with
  | some kind => exact line?_eq_trace.mpr (.inl ⟨name, length, offset, rfl, rfl⟩)
  | none => exact line?_eq_trace.mpr (.inr (.inl ⟨name, length, offset, rfl, rfl⟩))

/-- Where places rise, no two events name the same. -/
theorem filter_place? (ordered : (events.filterMap place?).Pairwise (· < ·)) (member : event ∈ events)
    (named : event.place? = some place) : events.filter (·.place? = some place) = [event] := by
  obtain ⟨front, back, rfl⟩ := List.append_of_mem member
  rw [List.filterMap_append, List.filterMap_cons, named, List.pairwise_append, List.pairwise_cons] at ordered
  obtain ⟨-, ⟨behind, -⟩, before⟩ := ordered
  have noneBefore : front.filter (·.place? = some place) = [] :=
    filter_place?_eq_nil fun there => Nat.lt_irrefl _ (before place there place List.mem_cons_self)
  have noneBehind : back.filter (·.place? = some place) = [] :=
    filter_place?_eq_nil fun there => Nat.lt_irrefl _ (behind place there)
  rw [List.filter_append, List.filter_cons_of_pos (by simpa using named), noneBefore, noneBehind]
  rfl

end Lists
end Event

namespace ClassFile

/-- All that is recorded while a file is decoded, whether it is accepted or not. -/
def events (bytes : Bytes) : List Event := (decodeWithin maxNesting).told (start bytes)

/-- The log of a file: what is recorded that is shown as a line. -/
def log (bytes : Bytes) : List Event := (events bytes).filter (·.line?.isSome)

/-- The lines of the log, as they are read. -/
def lines (bytes : Bytes) : List (Level × String) := Event.lines (log bytes)

/-- How the log of a file follows the file. -/
structure Logged (bytes : Bytes) : Prop where
  rejected : ∀ cause after, preamble (start bytes) = .error cause after → log bytes = []
  /-- The first line names the place where the access flags are begun. -/
  opening : ∀ head s, preamble (start bytes) = .ok head s → ∃ within later,
    let entries := head.pool.entries.length
    let offset := within.cursor.offset
    Begins maxNesting bytes head.pool (.flags .ofClass) within ∧
      log bytes = .poolDecoded entries offset :: later ∧
      lines bytes = (.debug, s!"Decoded {entries} constant pool entries, class body starts at offset {offset}") ::
        Event.lines later
  flags : ∀ file, decode bytes = .ok file → ∃ later,
    log bytes = .poolDecoded file.pool.entries.length file.flags.offset :: later
  /-- Of an attribute with a name and a length one line is told, before all else that is told of it. -/
  headline : ∀ pool element attributes within nameIndex name length middle,
    Begins maxNesting bytes pool (Attribute.layoutWith element attributes) within →
    Layout.decodeHead pool within = .ok (nameIndex, name, length) middle →
      let size := length.toNat
      let offset := nameIndex.offset
      within.trace.toList ++ [.headline name size offset] <+: events bytes ∧
      (log bytes).filter (·.place? = some offset) = [.headline name size offset] ∧
      Event.lines within.trace.toList ++
        [(.trace, (if (AttributeKind.ofName? name).isSome then "Decoding " else "Skipping unknown ") ++ name ++
          s!" attribute of {size} bytes at offset {offset}")] <+: lines bytes
  /-- Of a code array that could be decoded one more is told, directly behind the one of its attribute. -/
  instructions : ∀ pool element attributes within nameIndex name length middle front after,
    Begins maxNesting bytes pool (Attribute.layoutWith element attributes) within →
    Layout.decodeHead pool within = .ok (nameIndex, name, length) middle →
    AttributeKind.ofName? name = some .code →
    Layout.codeFront.decode pool (middle.recording (.decoding name length.toNat nameIndex.offset)) =
      .ok front after →
      let count := front.2.2.2.size
      let size := front.2.2.1.toNat
      let offset := front.2.2.1.offset + 4
      let before := within.trace.toList ++ [.headline name length.toNat nameIndex.offset]
      before ++ [.codeDecoded count size offset] <+: events bytes ∧
      (log bytes).filter (·.place? = some offset) = [.codeDecoded count size offset] ∧
      Event.lines before ++ [(.trace, s!"Decoded {count} instructions from {size} bytes of code at offset {offset}")] <+:
        lines bytes
  /-- Nothing else is told as a line of that level. -/
  traced : ∀ before event, before ++ [event] <+: events bytes → event.line?.any (·.1 = .trace) →
    ∃ pool element attributes within nameIndex name length middle,
      Begins maxNesting bytes pool (Attribute.layoutWith element attributes) within ∧
      Layout.decodeHead pool within = .ok (nameIndex, name, length) middle ∧
      ((before = within.trace.toList ∧ event = .headline name length.toNat nameIndex.offset) ∨
      ∃ front after, AttributeKind.ofName? name = some .code ∧
        Layout.codeFront.decode pool (middle.recording (.decoding name length.toNat nameIndex.offset)) =
          .ok front after ∧
        before = within.trace.toList ++ [.headline name length.toNat nameIndex.offset] ∧
        event = .codeDecoded front.2.2.2.size front.2.2.1.toNat (front.2.2.1.offset + 4))
  rising : ((log bytes).filterMap Event.place?).Pairwise (· < ·)
  /-- The place of an event is what its line ends with. -/
  shown : ∀ event ∈ log bytes, ∀ place, event.place? = some place →
    ∃ level text, event.line? = some (level, text ++ s!" offset {place}") ∧ level ≠ .warn
  /-- All lines but warnings and the last one name a place. -/
  placed : ∀ event ∈ log bytes, event.place? = none → (∃ name offset, event = .replaced name offset) ∨
    ∃ version fields methods attributes, event = .classDecoded version fields methods attributes
  /-- A warning is told directly behind an attribute that begins behind the place that it names. -/
  warned : ∀ before name offset, before ++ [.replaced name offset] <+: events bytes →
    (∃ pool element attributes within item after,
      Begins maxNesting bytes pool (Attribute.layoutWith element attributes) within ∧
      (Attribute.layoutWith element attributes).decode pool within = .ok item after ∧
      after.trace.toList = before ∧ item.name = name ∧ offset < item.nameIndex.offset) ∧
    Event.lines before ++ [(.warn, "Duplicate " ++ name ++
      s!" attribute, the one at offset {offset} was overwritten")] <+: lines bytes
  /-- Nothing else is told as a warning. -/
  warnings : ∀ event ∈ log bytes, event.line?.any (·.1 = .warn) → ∃ name offset, event = .replaced name offset
  /-- Only what is told first or last is for debugging. -/
  debugged : ∀ before event, before ++ [event] <+: events bytes → event.line?.any (·.1 = .debug) →
    before = [] ∨ events bytes = before ++ [event] ∧ ∃ file, decode bytes = .ok file
  closing : ∀ before version fields methods attributes,
    before ++ [.classDecoded version fields methods attributes] <+: events bytes →
      events bytes = before ++ [.classDecoded version fields methods attributes] ∧
        ∃ file, decode bytes = .ok file
  accepted : ∀ file, decode bytes = .ok file → ∃ before,
    let fields := file.fields.items.length
    let methods := file.methods.items.length
    let attributes := file.attributes.size
    log bytes = before ++ [.classDecoded file.version fields methods attributes] ∧
      lines bytes = Event.lines before ++ [(.debug, "Decoded class file version " ++ file.version.text ++
        s!": {fields} fields, {methods} methods, {attributes} attributes")]

section Run

variable {bytes : Bytes} {head : Preamble} {s : State}

theorem decode_eq_ok_iff {file : ClassFile} :
    decode bytes = .ok file ↔ ∃ final, decodeWithin maxNesting (start bytes) = .ok file final := by
  have same : run bytes = decodeWithin maxNesting (start bytes) := rfl
  rw [decode, same]
  cases decodeWithin maxNesting (start bytes) <;> simp

theorem bodyLayout_spaced (pool : Pool) : ((bodyLayout maxNesting).decode pool).Spaced 2 := by
  have closed := spaced_sequential.closed pool True
  have rest := closed.behindFlags ((spaced_graded pool maxNesting).tables maxNesting)
  have flags : ((Layout.flags .ofClass).decode pool).Spaced 2 := spaced_read.bind fun _ => spaced_sequential.pure _
  exact (flags.bind fun _ => spaced_sequential.bind rest fun _ => spaced_sequential.pure _).bind fun _ =>
    spaced_sequential.pure _

/-- Behind the line about the pool, the body tells of places further on. -/
theorem told_body (ran : preamble (start bytes) = .ok head s) : ∃ later,
    ((bodyLayout maxNesting).decode head.pool).told (bodyStart head s) =
      .poolDecoded head.pool.entries.length s.cursor.offset :: later ∧
    (later.filterMap Event.place?).Pairwise (· < ·) ∧
    ∀ place ∈ later.filterMap Event.place?, s.cursor.offset < place := by
  obtain ⟨later, last, told, rising⟩ := (bodyLayout_spaced head.pool).told (bodyStart head s)
  rw [bodyStart_trace ran] at told
  refine ⟨later, told, rising.ordered, fun place member => ?_⟩
  have behind : s.cursor.offset + 2 ≤ place := (rising.inside place member).1
  omega

theorem events_rising (bytes : Bytes) : ((events bytes).filterMap Event.place?).Pairwise (· < ·) := by
  cases ran : preamble (start bytes) with
  | error cause after => simp [events, told_of_rejected ran]
  | ok head s =>
    obtain ⟨later, told, ordered, behind⟩ := told_body ran
    have rising : ((Event.poolDecoded head.pool.entries.length s.cursor.offset :: later).filterMap
        Event.place?).Pairwise (· < ·) := List.pairwise_cons.mpr ⟨behind, ordered⟩
    rcases told_cases maxNesting ran with ⟨all, -⟩ | ⟨after, file, final, -, -, -, all⟩
    · rw [events, all, told]
      exact rising
    · rw [events, all, told, List.filterMap_append]
      change List.Pairwise _ (_ ++ [])
      rw [List.append_nil]
      exact rising

theorem log_filter {event : Event} {place : Nat} (told : event ∈ events bytes) (named : event.place? = some place) :
    (log bytes).filter (·.place? = some place) = [event] := by
  apply Event.filter_place? _ _ named
  · rw [log, Event.filterMap_place?_shown]
    exact events_rising bytes
  · exact List.mem_filter.mpr ⟨told, Event.shown_of_place? named⟩

theorem lines_eq (bytes : Bytes) : lines bytes = Event.lines (events bytes) := Event.lines_shown _

/-- What is told is read behind the lines of what was told before. -/
theorem lines_told {before : List Event} {event : Event} {line : Level × String}
    (told : before ++ [event] <+: events bytes) (shown : event.line? = some line) :
    Event.lines before ++ [line] <+: lines bytes := by
  have read : Event.lines (before ++ [event]) <+: lines bytes := by
    rw [lines_eq]
    exact told.filterMap Event.line?
  rwa [Event.lines_append, Event.lines_singleton shown] at read

/-- The access flags are the first of a body. -/
theorem bodyLayout_flags {pool : Pool} {body : Body} {after : State}
    (run : (bodyLayout maxNesting).decode pool s = .ok body after) : body.flags.offset = s.cursor.offset := by
  obtain ⟨parts, _, parsed, ended⟩ := bind_eq_ok.mp run
  cases ended
  obtain ⟨flags, _, first, rest⟩ := bind_eq_ok.mp parsed
  obtain ⟨others, _, -, ended⟩ := bind_eq_ok.mp rest
  cases ended
  obtain ⟨bits, _, read, ended⟩ := bind_eq_ok.mp first
  cases ended
  exact (offset_read read).1

theorem log_eq (ran : preamble (start bytes) = .ok head s) : ∃ later,
    log bytes = .poolDecoded head.pool.entries.length s.cursor.offset :: later := by
  obtain ⟨later, told, -⟩ := told_body ran
  rcases told_cases maxNesting ran with ⟨all, -⟩ | ⟨after, file, final, -, -, -, all⟩
  · exact ⟨_, by rw [log, events, all, told]; rfl⟩
  · exact ⟨_, by rw [log, events, all, told]; rfl⟩

theorem preamble_of_decode {file : ClassFile} (accepted : decode bytes = .ok file) :
    ∃ head s after, preamble (start bytes) = .ok head s ∧
      (bodyLayout maxNesting).decode head.pool (bodyStart head s) = .ok file.toBody after ∧ file.pool = head.pool ∧
      events bytes = ((bodyLayout maxNesting).decode head.pool).told (bodyStart head s) ++
        [.classDecoded file.version file.fields.items.length file.methods.items.length file.attributes.size] := by
  obtain ⟨final, accepted⟩ := decode_eq_ok_iff.mp accepted
  cases ran : preamble (start bytes) with
  | error cause after => cases accepted.symm.trans (decodeWithin_of_rejected ran)
  | ok head s =>
    rcases told_cases maxNesting ran with ⟨-, _, _, rejected⟩ | ⟨after, found, _, body, pool, also, all⟩
    · cases accepted.symm.trans rejected
    · cases accepted.symm.trans also
      exact ⟨head, s, after, rfl, body, pool, all⟩

/-- The log of every file, accepted or not, follows the file. -/
theorem log_follows (bytes : Bytes) : Logged bytes where
  rejected cause after failed := by rw [log, events, told_of_rejected failed, List.filter_nil]
  opening head s ran := by
    obtain ⟨later, all⟩ := log_eq ran
    refine ⟨bodyStart head s, later, ⟨head, s, ran, rfl, .parts _ (.first .here)⟩, all, ?_⟩
    rw [lines, all]
    exact List.filterMap_cons_some (Event.line?_eq_debug.mpr (.inl ⟨_, _, rfl, rfl⟩))
  flags file accepted := by
    obtain ⟨head, s, after, ran, body, pool, -⟩ := preamble_of_decode accepted
    have place := bodyLayout_flags body
    change file.flags.offset = s.cursor.offset at place
    rw [place, pool]
    exact log_eq ran
  headline pool element attributes within nameIndex name length middle begins head := by
    have told := (Layout.told_entry head).trans begins.told
    exact ⟨told, log_filter (told.subset (by simp)) (Event.place?_headline _ _ _),
      lines_told told (Event.line?_headline _ _ _)⟩
  instructions pool element attributes within nameIndex name length middle front after begins head known run := by
    have told := (Layout.told_code head known run).trans begins.told
    rw [List.append_cons] at told
    exact ⟨told, log_filter (told.subset (by simp)) rfl,
      lines_told told (Event.line?_eq_trace.mpr (.inr (.inr ⟨_, _, _, rfl, rfl⟩)))⟩
  traced before event told line := by
    rcases event_cases told with ⟨-, entries, offset, rfl⟩ | ⟨head, s, ran, source⟩ | ⟨file, final, -, -, rfl⟩
    · cases line
    · obtain ⟨element, attributes, within, nameIndex, name, length, middle, enters, rest⟩ := source.of_trace line
      exact ⟨head.pool, element, attributes, within, nameIndex, name, length, middle,
        ⟨head, s, ran, rfl, enters⟩, rest⟩
    · cases line
  rising := by
    rw [log, Event.filterMap_place?_shown]
    exact events_rising bytes
  shown event _ place named := Event.line?_of_place? named
  placed event member none := by
    have shown := (List.mem_filter.mp member).2
    cases event with
    | replaced name offset => exact .inl ⟨_, _, rfl⟩
    | classDecoded version fields methods attributes => exact .inr ⟨_, _, _, _, rfl⟩
    | opened | closed => cases shown
    | _ => cases none
  warned before name offset told := by
    refine ⟨?_, lines_told told (Event.line?_eq_warn.mpr ⟨_, _, rfl, rfl⟩)⟩
    rcases event_cases told with ⟨-, entries, place, same⟩ | ⟨head, s, ran, source⟩ | ⟨file, final, -, -, same⟩
    · cases same
    · obtain ⟨element, attributes, within, item, after, enters, rest⟩ := source.of_replaced
      exact ⟨head.pool, element, attributes, within, item, after, ⟨head, s, ran, rfl, enters⟩, rest⟩
    · cases same
  warnings event _ line := by
    obtain ⟨text, shown⟩ := Event.exists_line? line
    obtain ⟨name, offset, same, -⟩ := Event.line?_eq_warn.mp shown
    exact ⟨name, offset, same⟩
  debugged before event told line := by
    rcases event_cases told with ⟨first, -⟩ | ⟨head, s, ran, source⟩ | ⟨file, final, accepted, last, -⟩
    · exact .inl first
    · exact absurd line source.not_debug
    · exact .inr ⟨last, file, decode_eq_ok_iff.mpr ⟨final, accepted⟩⟩
  closing before version fields methods attributes told := by
    rcases event_cases told with ⟨-, entries, place, same⟩ | ⟨head, s, ran, source⟩ | ⟨file, final, accepted, all, same⟩
    · cases same
    · exact absurd rfl source.not_debug
    · exact ⟨all, file, decode_eq_ok_iff.mpr ⟨final, accepted⟩⟩
  accepted file decoded := by
    obtain ⟨head, s, after, -, -, -, all⟩ := preamble_of_decode decoded
    obtain ⟨before, last⟩ : ∃ before, log bytes = before ++ [.classDecoded file.version
        file.fields.items.length file.methods.items.length file.attributes.size] :=
      ⟨_, by rw [log, all, List.filter_append]; rfl⟩
    refine ⟨before, last, ?_⟩
    rw [lines, last, Event.lines_append]
    exact congrArg _ (Event.lines_singleton (Event.line?_eq_debug.mpr (.inr ⟨_, _, _, _, rfl, rfl⟩)))

end Run

end ClassFile
end ClassFormat
