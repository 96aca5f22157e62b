import ClassFormat.Proofs.FileGrammar
import ClassFormat.Proofs.Stepwise

/-! A class file says itself where it ends. What a decoder has seen decides all that it does: more
bytes behind change nothing, unless there were too few. -/
namespace ClassFormat

/-- Whether there were fewer bytes than needed. -/
def Error.isUnexpectedEnd : Error → Bool
  | endOfInput | tooFewBytes .. => true
  | _ => false

/-- How bytes that are decoded stand to those they are the start of, and to their own starts. -/
structure ClassFile.SelfDelimiting (bytes : Bytes) : Prop where
  /-- No start of a class file short of the whole is enough. -/
  truncated : ∀ file, decode bytes = .ok file → ∀ size, size < bytes.length →
    ∃ cause, decode (bytes.take size) = .error cause ∧ cause.isUnexpectedEnd
  extended : ∀ file, decode bytes = .ok file → ∀ more, more ≠ [] →
    decode (bytes ++ more) = .error (.trailingBytes bytes.length more.length)
  /-- Of two class files neither is the start of the other. -/
  alone : ∀ file more other, decode bytes = .ok file → decode (bytes ++ more) = .ok other → more = []
  /-- A failure for another reason than a lack of bytes is final. -/
  rejected : ∀ cause, decode bytes = .error cause → cause.isUnexpectedEnd = false →
    (∀ offset remaining, cause ≠ .trailingBytes offset remaining) →
      ∀ more, decode (bytes ++ more) = .error cause
  trailing : ∀ offset remaining, decode bytes = .error (.trailingBytes offset remaining) →
    ∀ more, decode (bytes ++ more) = .error (.trailingBytes offset (remaining + more.length))

/-- The same place in a file that goes on. -/
def Cursor.followedBy (more : Bytes) (cursor : Cursor) : Cursor :=
  { cursor with rest := cursor.rest ++ more }

def State.followedBy (more : Bytes) (s : State) : State :=
  { s with cursor := s.cursor.followedBy more }

namespace Cursor

variable {more : Bytes} {cursor : Cursor} {n : Nat} {bytes : Bytes}

theorem peek?_followedBy (seen : cursor.peek? n = some bytes) :
    (cursor.followedBy more).peek? n = some bytes := by
  obtain ⟨size, passed⟩ := passes_of_peek? seen
  have further : (cursor.followedBy more).Passes bytes ((cursor.advance n).followedBy more) := by
    refine ⟨rfl, passed.position, ?_⟩
    simp only [followedBy]
    rw [passed.rest, List.append_assoc]
  have ahead := further.peek?
  rw [size] at ahead
  exact ahead

theorem advance_followedBy (seen : cursor.peek? n = some bytes) :
    (cursor.followedBy more).advance n = (cursor.advance n).followedBy more := by
  obtain ⟨size, passed⟩ := passes_of_peek? seen
  have enough : n ≤ cursor.rest.length := by
    rw [passed.rest, List.length_append]
    omega
  simp [advance, followedBy, List.drop_append_of_le_length enough]

end Cursor

namespace Decoder

/-- How a run that more bytes follow ends, next to how it ends without them. -/
inductive Continues (more : Bytes) : EStateM.Result Error State α → EStateM.Result Error State α → Prop where
  | ok (value : α) (after : State) : Continues more (.ok value after) (.ok value (after.followedBy more))
  | error (cause : Error) (after : State) :
    Continues more (.error cause after) (.error cause (after.followedBy more))
  /-- What is too short may become anything. -/
  | short (cause : Error) (after : State) (result : EStateM.Result Error State α) :
    cause.isUnexpectedEnd = true → Continues more (.error cause after) result

/-- Whether more bytes behind change nothing in what the first decoder does. -/
def Stable (more : Bytes) (first other : Decoder α) : Prop :=
  ∀ s, Continues more (first s) (other (s.followedBy more))

theorem stable_onCursor {more : Bytes} {step : Cursor → Except Error α × Cursor}
    (steady : ∀ cursor, (∃ value after, step cursor = (.ok value, after) ∧
        step (cursor.followedBy more) = (.ok value, after.followedBy more)) ∨
      ∃ cause after, step cursor = (.error cause, after) ∧ cause.isUnexpectedEnd = true) :
    Stable more (onCursor step) (onCursor step) := by
  intro s
  have same : (s.followedBy more).cursor = s.cursor.followedBy more := rfl
  unfold onCursor
  rw [same]
  rcases steady s.cursor with ⟨value, after, run, further⟩ | ⟨cause, after, run, short⟩
  · rw [run, further]
    exact .ok value { s with cursor := after }
  · rw [run]
    exact .short cause _ _ short

theorem steady_take (more : Bytes) (n : Nat) (cursor : Cursor) :
    (∃ bytes after, cursor.take n = (.ok bytes, after) ∧
      (cursor.followedBy more).take n = (.ok bytes, after.followedBy more)) ∨
    ∃ cause after, cursor.take n = (.error cause, after) ∧ cause.isUnexpectedEnd = true := by
  cases seen : cursor.peek? n with
  | some bytes =>
    refine .inl ⟨bytes, cursor.advance n, by simp only [Cursor.take, seen], ?_⟩
    simp only [Cursor.take, Cursor.peek?_followedBy seen, Cursor.advance_followedBy seen]
  | none =>
    exact .inr ⟨.tooFewBytes n cursor.offset cursor.remaining, cursor, by simp only [Cursor.take, seen],
      rfl⟩

theorem stable_steps (more : Bytes) : Stepwise fun _ => Stable more where
  pure value s := .ok value s
  throw _ cause _ s := .error cause s
  bind {_ _ first other next further} starts goes s := by
    have head := starts s
    generalize one : first s = result at head
    generalize two : other (s.followedBy more) = continued at head
    cases head with
    | ok value after =>
      rw [bind_of_ok one, bind_of_ok two]
      exact goes value after
    | error cause after =>
      rw [bind_of_error one, bind_of_error two]
      exact .error cause after
    | short cause after result short =>
      rw [bind_of_error one]
      exact .short cause after _ short
  read {κ _} := stable_onCursor fun cursor => by
    cases seen : cursor.peek? (Word.width κ) with
    | some bytes =>
      refine .inl ⟨⟨Word.ofBytes bytes, cursor.offset⟩, cursor.advance (Word.width κ), ?_, ?_⟩
      · simp only [Cursor.read, seen]
      · simp only [Cursor.read, Cursor.peek?_followedBy seen, Cursor.advance_followedBy seen]
        rfl
    | none =>
      exact .inr ⟨.endOfInput, cursor.advance cursor.remaining, by simp only [Cursor.read, seen], rfl⟩
  take n := stable_onCursor (steady_take more n)
  skip n := stable_onCursor fun cursor => by
    unfold Cursor.skip
    rcases steady_take more n cursor with ⟨bytes, after, run, further⟩ | ⟨cause, after, run, short⟩
    · exact .inl ⟨(), after, by rw [run]; rfl, by rw [further]; rfl⟩
    · exact .inr ⟨cause, after, by rw [run]; rfl, short⟩
  offset s := .ok s.cursor.offset s
  record event _ s := .ok () { s with trace := s.trace.push event }

/-- Whether a failure is never about what comes behind. -/
def Inside (decoder : Decoder α) : Prop :=
  ∀ s cause after, decoder s = .error cause after →
    ∀ offset remaining, cause ≠ .trailingBytes offset remaining

theorem inside_onCursor {step : Cursor → Except Error α × Cursor}
    (inside : ∀ cursor, LocalFailure (step cursor).1) : (onCursor step).Inside := by
  intro s cause after run offset remaining
  have here := inside s.cursor
  unfold onCursor at run
  split at run
  next => cases run
  next found cursor failed =>
    cases run
    rintro rfl
    cases here _ (congrArg Prod.fst failed)

theorem inside_steps : Stepwise fun _ decoder _ => decoder.Inside where
  pure value s cause after run := by cases run
  throw _ cause here s found after run offset remaining := by
    cases run
    rintro rfl
    cases here
  bind {_ _ first _ next _} starts goes s cause after run := by
    cases head : first s with
    | ok value middle =>
      rw [bind_of_ok head] at run
      exact goes value middle cause after run
    | error found middle =>
      rw [bind_of_error head] at run
      cases run
      exact starts s cause after head
  read := inside_onCursor LocalFailure.read
  take n := inside_onCursor (LocalFailure.take n)
  skip n := inside_onCursor (LocalFailure.skip n)
  offset s cause after run := by cases run
  record event _ s cause after run := by cases run

theorem Inside.nested {decoder : Decoder α} (inside : decoder.Inside) :
    (Decoder.nested decoder).Inside := by
  intro s cause after run
  rw [nested_apply] at run
  obtain ⟨middle, failed⟩ := closing_eq_error run
  exact inside s.opened cause middle failed

/-- A level is closed again whatever comes behind. -/
theorem Stable.nested {more : Bytes} {first other : Decoder α} (stable : Stable more first other) :
    Stable more (Decoder.nested first) (Decoder.nested other) := by
  intro s
  have inner : Continues more (first s.opened) (other (s.followedBy more).opened) := stable s.opened
  rw [nested_apply, nested_apply]
  generalize first s.opened = one at inner ⊢
  generalize other (s.followedBy more).opened = two at inner ⊢
  cases inner with
  | ok value after => exact .ok value after.closed
  | error cause after => exact .error cause after.closed
  | short cause after result short => exact .short cause after.closed _ short

end Decoder

namespace ClassFile

open Decoder

theorem contents_stable (more : Bytes) (limit : Nat) :
    Stable more (contents limit) (contents limit) :=
  contents_steps (stable_steps more) limit Stable.nested fun _ _ limit s =>
    .error (.tooDeep limit s.cursor.offset) s

theorem contents_forward (limit : Nat) : (contents limit).Forward :=
  contents_steps forward_steps limit Forward.nested fun _ _ _ => forward_still fun _ => rfl

theorem contents_inside (limit : Nat) : (contents limit).Inside := by
  refine contents_steps inside_steps limit Inside.nested fun _ _ limit s cause after run => ?_
  cases run
  intro offset remaining same
  cases same

/-- What decoding answers once it knows what the contents of the file are. -/
theorem decode_eq (bytes : Bytes) : decode bytes = match contents maxNesting (start bytes) with
    | .ok file after =>
      if after.cursor.rest = [] then .ok file
      else .error (.trailingBytes after.cursor.offset after.cursor.rest.length)
    | .error cause _ => .error cause := by
  unfold decode run EStateM.run
  rw [decodeWithin_eq]
  cases run : contents maxNesting (start bytes) with
  | error cause after => rw [bind_of_error run]
  | ok file after =>
    rw [bind_of_ok run]
    obtain ⟨⟨base, position, rest⟩, trace⟩ := after
    cases rest with
    | nil => rfl
    | cons byte rest => rfl

theorem contents_offset {bytes : Bytes} {file : ClassFile} {after : State}
    (run : contents maxNesting (start bytes) = .ok file after) :
    after.cursor.offset + after.cursor.rest.length = bytes.length := by
  obtain ⟨⟨passed, moved⟩, -⟩ := contents_forward maxNesting (start bytes)
  rw [reached_of_ok run] at moved
  have total : bytes = passed ++ after.cursor.rest := moved.rest
  have place : after.cursor.offset = 0 + passed.length := moved.offset
  rw [total, List.length_append, place]
  omega

section Continued

variable {bytes : Bytes} {file : ClassFile} {cause : Error} {after : State}

theorem contents_followedBy (more : Bytes) (run : contents maxNesting (start bytes) = .ok file after) :
    contents maxNesting (start (bytes ++ more)) = .ok file (after.followedBy more) := by
  have stable := contents_stable more maxNesting (start bytes)
  change Continues more _ (contents maxNesting (start (bytes ++ more))) at stable
  rw [run] at stable
  generalize contents maxNesting (start (bytes ++ more)) = result at stable ⊢
  cases stable
  rfl

theorem contents_failed (more : Bytes) (run : contents maxNesting (start bytes) = .error cause after)
    (enough : cause.isUnexpectedEnd = false) :
    contents maxNesting (start (bytes ++ more)) = .error cause (after.followedBy more) := by
  have stable := contents_stable more maxNesting (start bytes)
  change Continues more _ (contents maxNesting (start (bytes ++ more))) at stable
  rw [run] at stable
  generalize contents maxNesting (start (bytes ++ more)) = result at stable ⊢
  cases stable with
  | error => rfl
  | short _ _ _ short =>
    rw [enough] at short
    cases short

theorem contents_of_decode (decoded : decode bytes = .ok file) :
    ∃ after, contents maxNesting (start bytes) = .ok file after ∧ after.cursor.rest = [] := by
  rw [decode_eq] at decoded
  split at decoded
  next found after run =>
    split at decoded
    next empty =>
      cases decoded
      exact ⟨after, run, empty⟩
    next => cases decoded
  next => cases decoded

/-- What was decoded stays so; only that more follows is complained about. -/
theorem decode_followedBy {more : Bytes} (some : more ≠ [])
    (run : contents maxNesting (start bytes) = .ok file after) :
    decode (bytes ++ more) =
      .error (.trailingBytes after.cursor.offset (after.cursor.rest.length + more.length)) := by
  have rest : (after.followedBy more).cursor.rest = after.cursor.rest ++ more := rfl
  have left : after.cursor.rest ++ more ≠ [] := List.append_ne_nil_of_right_ne_nil _ some
  rw [decode_eq, contents_followedBy more run]
  simp only [rest, if_neg left, List.length_append]
  rfl

theorem decode_extended {more : Bytes} (decoded : decode bytes = .ok file) (some : more ≠ []) :
    decode (bytes ++ more) = .error (.trailingBytes bytes.length more.length) := by
  obtain ⟨after, run, empty⟩ := contents_of_decode decoded
  have place := contents_offset run
  rw [empty, List.length_nil, Nat.add_zero] at place
  rw [decode_followedBy some run, place, empty, List.length_nil, Nat.zero_add]

theorem decode_rejected (decoded : decode bytes = .error cause) (enough : cause.isUnexpectedEnd = false)
    (inside : ∀ offset remaining, cause ≠ .trailingBytes offset remaining) (more : Bytes) :
    decode (bytes ++ more) = .error cause := by
  rw [decode_eq] at decoded
  split at decoded
  next found after run =>
    split at decoded
    next => cases decoded
    next =>
      cases decoded
      exact absurd rfl (inside _ _)
  next found after run =>
    cases decoded
    rw [decode_eq, contents_failed more run enough]

theorem decode_trailing {offset remaining : Nat}
    (decoded : decode bytes = .error (.trailingBytes offset remaining)) (more : Bytes) :
    decode (bytes ++ more) = .error (.trailingBytes offset (remaining + more.length)) := by
  by_cases none : more = []
  · subst none
    simpa using decoded
  rw [decode_eq] at decoded
  split at decoded
  next found after run =>
    split at decoded
    next => cases decoded
    next =>
      cases decoded
      exact decode_followedBy none run
  next found after run =>
    cases decoded
    exact absurd rfl (contents_inside maxNesting _ _ _ run offset remaining)

/-- A start of a class file is too short, since it would otherwise be answered as it is on its own. -/
theorem decode_truncated {size : Nat} (decoded : decode bytes = .ok file) (short : size < bytes.length) :
    ∃ cause, decode (bytes.take size) = .error cause ∧ cause.isUnexpectedEnd := by
  have joined : bytes.take size ++ bytes.drop size = bytes := List.take_append_drop size bytes
  have some : bytes.drop size ≠ [] := by simpa using short
  cases start : decode (bytes.take size) with
  | ok other =>
    have answer := decode_extended start some
    rw [joined, decoded] at answer
    cases answer
  | error cause =>
    refine ⟨cause, rfl, ?_⟩
    by_cases trailing : ∃ offset remaining, cause = .trailingBytes offset remaining
    · obtain ⟨offset, remaining, rfl⟩ := trailing
      have answer := decode_trailing start (bytes.drop size)
      rw [joined, decoded] at answer
      cases answer
    · cases enough : cause.isUnexpectedEnd with
      | true => rfl
      | false =>
        have inside : ∀ offset remaining, cause ≠ .trailingBytes offset remaining :=
          fun offset remaining same => trailing ⟨offset, remaining, same⟩
        have answer := decode_rejected start enough inside (bytes.drop size)
        rw [joined, decoded] at answer
        cases answer

end Continued

theorem decode_selfDelimiting (bytes : Bytes) : SelfDelimiting bytes where
  truncated _ decoded _ short := decode_truncated decoded short
  extended _ decoded _ some := decode_extended decoded some
  alone file more other decoded whole := by
    cases more with
    | nil => rfl
    | cons byte more =>
      rw [decode_extended decoded (List.cons_ne_nil byte more)] at whole
      cases whole
  rejected _ decoded enough inside more := decode_rejected decoded enough inside more
  trailing _ _ decoded more := decode_trailing decoded more

end ClassFile
end ClassFormat
