import ClassFormat.Version

/-! What a decoder does as it goes, in order. Most events can be shown as a line of a
log; opening and closing a level of nesting is recorded but not shown. -/
namespace ClassFormat

inductive Level where
  | trace
  | debug
  | warn
  deriving DecidableEq, Repr

def Level.name : Level → String
  | trace => "TRACE"
  | debug => "DEBUG"
  | warn => "WARN"

/-- Offsets of attributes are those of their names. -/
inductive Event where
  | poolDecoded (entries offset : Nat)
  | decoding (name : String) (length offset : Nat)
  | skipping (name : String) (length offset : Nat)
  | codeDecoded (instructions bytes offset : Nat)
  /-- A later attribute took the place of the one at `offset`. -/
  | replaced (name : String) (offset : Nat)
  | opened (offset : Nat)
  | closed
  | classDecoded (version : Version) (fields methods attributes : Nat)
  deriving DecidableEq, Repr

namespace Event

def line? : Event → Option (Level × String)
  | poolDecoded entries offset =>
    some (.debug, s!"Decoded {entries} constant pool entries, class body starts at offset {offset}")
  | decoding name length offset =>
    some (.trace, "Decoding " ++ name ++ s!" attribute of {length} bytes at offset {offset}")
  | skipping name length offset =>
    some (.trace,
      "Skipping unknown " ++ name ++ s!" attribute of {length} bytes at offset {offset}")
  | codeDecoded instructions bytes offset =>
    some (.trace,
      s!"Decoded {instructions} instructions from {bytes} bytes of code at offset {offset}")
  | replaced name offset =>
    some (.warn,
      "Duplicate " ++ name ++ s!" attribute, the one at offset {offset} was overwritten")
  | opened _ | closed => none
  | classDecoded version fields methods attributes =>
    some (.debug, "Decoded class file version " ++ version.text ++
      s!": {fields} fields, {methods} methods, {attributes} attributes")

/-- The lines that a record is shown as. -/
def lines (events : List Event) : List (Level × String) := events.filterMap line?

@[simp] theorem lines_append (early late : List Event) : lines (early ++ late) = lines early ++ lines late :=
  List.filterMap_append

/-- What is not shown is no part of the log. -/
theorem lines_shown (events : List Event) : lines (events.filter (·.line?.isSome)) = lines events := by
  rw [lines, lines, List.filterMap_filter]
  congr 1
  funext event
  cases event.line? <;> rfl

/-! What each level is for: lines about a class as a whole, lines about what is met in it, and warnings. -/

variable {event : Event} {text : String}

theorem lines_singleton {line : Level × String} (shown : event.line? = some line) : lines [event] = [line] := by
  rw [lines, List.filterMap_cons_some shown, List.filterMap_nil]

theorem exists_line? {level : Level} (shown : event.line?.any (·.1 = level)) :
    ∃ text, event.line? = some (level, text) := by
  obtain ⟨⟨found, text⟩, line, same⟩ := (Option.any_eq_true _ _).mp shown
  obtain rfl : found = level := of_decide_eq_true same
  exact ⟨text, line⟩

theorem line?_eq_debug : event.line? = some (.debug, text) ↔
    (∃ entries offset, event = poolDecoded entries offset ∧
      text = s!"Decoded {entries} constant pool entries, class body starts at offset {offset}") ∨
    ∃ version fields methods attributes, event = classDecoded version fields methods attributes ∧
      text = "Decoded class file version " ++ version.text ++
        s!": {fields} fields, {methods} methods, {attributes} attributes" := by
  cases event <;> simp [line?, and_assoc, eq_comm]

theorem line?_eq_trace : event.line? = some (.trace, text) ↔
    (∃ name length offset, event = decoding name length offset ∧
      text = "Decoding " ++ name ++ s!" attribute of {length} bytes at offset {offset}") ∨
    (∃ name length offset, event = skipping name length offset ∧
      text = "Skipping unknown " ++ name ++ s!" attribute of {length} bytes at offset {offset}") ∨
    ∃ instructions bytes offset, event = codeDecoded instructions bytes offset ∧
      text = s!"Decoded {instructions} instructions from {bytes} bytes of code at offset {offset}" := by
  cases event <;> simp [line?, and_assoc, eq_comm]

theorem line?_eq_warn : event.line? = some (.warn, text) ↔
    ∃ name offset, event = replaced name offset ∧
      text = "Duplicate " ++ name ++ s!" attribute, the one at offset {offset} was overwritten" := by
  cases event <;> simp [line?, and_assoc, eq_comm]

theorem line?_eq_none : event.line? = none ↔ (∃ offset, event = opened offset) ∨ event = closed := by
  cases event <;> simp [line?]

end Event
end ClassFormat
