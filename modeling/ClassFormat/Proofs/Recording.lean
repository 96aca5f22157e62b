import ClassFormat.Proofs.Composition

/-! What successful runs record. Records of a kind that may follow each other are made by any sequence
of steps that each make such records, and most steps make none at all. -/
namespace ClassFormat.Decoder

variable {allowed : List Event → Prop}

/-- Whether what a successful run records is of a certain kind. -/
def Records (allowed : List Event → Prop) (decoder : Decoder α) : Prop :=
  ∀ s value after, decoder s = .ok value after →
    ∃ later, after.trace.toList = s.trace.toList ++ later ∧ allowed later

/-- Whether records of a certain kind may follow each other. -/
structure Additive (allowed : List Event → Prop) : Prop where
  nil : allowed []
  append {early late : List Event} : allowed early → allowed late → allowed (early ++ late)

theorem records_record {event : Event} (here : allowed [event]) : (record event).Records allowed := by
  intro s value after run
  cases run
  exact ⟨[event], Array.toList_push, here⟩

theorem trace_onCursor {step : Cursor → Except Error α × Cursor} {s after : State} {value : α}
    (run : onCursor step s = .ok value after) : after.trace = s.trace := by
  unfold onCursor at run
  split at run
  next => cases run; rfl
  next => cases run

theorem records_throw (cause : Error) : (throw cause : Decoder α).Records allowed := by
  intro s value after run
  cases run

namespace Additive

variable (additive : Additive allowed)
include additive

theorem still {decoder : Decoder α}
    (still : ∀ s value after, decoder s = .ok value after → after.trace = s.trace) :
    decoder.Records allowed := by
  intro s value after run
  exact ⟨[], by rw [still s value after run, List.append_nil], additive.nil⟩

theorem pure (value : α) : (Pure.pure value : Decoder α).Records allowed :=
  additive.still fun s found after run => by
    cases run
    rfl

theorem bind {first : Decoder α} {next : α → Decoder β} (starts : first.Records allowed)
    (goes : ∀ value, (next value).Records allowed) : (first >>= next).Records allowed := by
  intro s value after run
  obtain ⟨part, middle, head, tail⟩ := bind_eq_ok.mp run
  obtain ⟨early, recorded, here⟩ := starts s part middle head
  obtain ⟨late, added, there⟩ := goes part middle value after tail
  refine ⟨early ++ late, ?_, additive.append here there⟩
  rw [added, recorded, List.append_assoc]

theorem onCursor (step : Cursor → Except Error α × Cursor) : (onCursor step).Records allowed :=
  additive.still fun _ _ _ => trace_onCursor

theorem offset : Decoder.offset.Records allowed := additive.still fun s value after run => by
  cases run
  rfl

theorem steps (event : ∀ event : Event, event.isLevel = false → allowed [event]) :
    Stepwise fun _ decoder _ => decoder.Records allowed where
  pure := additive.pure
  throw _ cause _ := records_throw cause
  bind := additive.bind
  read := additive.onCursor Cursor.read
  take n := additive.onCursor (·.take n)
  skip n := additive.onCursor (·.skip n)
  offset := additive.offset
  record found flat := records_record (event found flat)

theorem sequential : Sequential fun _ decoder => decoder.Records allowed where
  pure := additive.pure
  throw _ := records_throw
  bind := additive.bind
  read := additive.onCursor Cursor.read
  take n := additive.onCursor (·.take n)

end Additive

theorem nested_eq_ok {inner : Decoder α} {s after : State} {value : α} :
    Decoder.nested inner s = .ok value after ↔
      ∃ middle, inner s.opened = .ok value middle ∧ middle.closed = after := by
  rw [nested_apply]
  cases inner s.opened with
  | ok found middle => simp [closing, and_assoc]
  | error cause middle => simp [closing]

/-- What is recorded in a level stands between its opening and its closing. -/
theorem trace_of_level {s middle : State} {later : List Event}
    (recorded : middle.trace.toList = s.opened.trace.toList ++ later) :
    middle.closed.trace.toList = s.trace.toList ++ .opened s.cursor.offset :: (later ++ [.closed]) := by
  rw [State.closed, Array.toList_push, recorded, State.opened, Array.toList_push]
  simp

theorem Records.nested {decoder : Decoder α} {outer : List Event → Prop} (inner : decoder.Records allowed)
    (around : ∀ later offset, allowed later → outer (.opened offset :: (later ++ [.closed]))) :
    (Decoder.nested decoder).Records outer := by
  intro s value after run
  obtain ⟨middle, ran, rfl⟩ := nested_eq_ok.mp run
  obtain ⟨later, recorded, here⟩ := inner s.opened value middle ran
  exact ⟨_, trace_of_level recorded, around later s.cursor.offset here⟩

/-- A run that records nothing. -/
theorem additive_none : Additive fun later => later = [] where
  nil := rfl
  append := by
    rintro _ _ rfl rfl
    rfl

theorem trace_of_records {decoder : Decoder α} (silent : decoder.Records fun later => later = [])
    {s after : State} {value : α} (run : decoder s = .ok value after) : after.trace = s.trace := by
  obtain ⟨later, recorded, rfl⟩ := silent s value after run
  rw [List.append_nil] at recorded
  exact Array.toList_inj.mp recorded

end ClassFormat.Decoder
