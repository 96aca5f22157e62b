import ClassFormat.Proofs.Entering

/-! The places that are told, in the order in which they are told. What is told names a place that has just
been passed, so the places rise, and a run that succeeds leaves them all behind it. -/
namespace ClassFormat

open Decoder

namespace Event

/-- Places that rise from `first` on and stay before `last`. -/
structure Rising (first last : Nat) (events : List Event) : Prop where
  ordered : (events.filterMap place?).Pairwise (· < ·)
  inside : ∀ place ∈ events.filterMap place?, first ≤ place ∧ place < last

section Rising

variable {first middle last place : Nat} {event : Event} {early late : List Event}

theorem Rising.append (front : Rising first middle early) (back : Rising middle last late) (start : first ≤ middle)
    (stop : middle ≤ last) : Rising first last (early ++ late) where
  ordered := by
    rw [List.filterMap_append, List.pairwise_append]
    refine ⟨front.ordered, back.ordered, fun one here other there => ?_⟩
    exact Nat.lt_of_lt_of_le (front.inside one here).2 (back.inside other there).1
  inside place member := by
    rw [List.filterMap_append, List.mem_append] at member
    rcases member with here | there
    · have bounds := front.inside place here
      omega
    · have bounds := back.inside place there
      omega

theorem Rising.mono {less more : Nat} (rising : Rising first last late) (start : less ≤ first)
    (stop : last ≤ more) : Rising less more late where
  ordered := rising.ordered
  inside place member := by
    have bounds := rising.inside place member
    omega

theorem rising_single (named : event.place? = some place) (start : first ≤ place) (stop : place < last) :
    Rising first last [event] where
  ordered := by simp [named]
  inside other member := by
    simp only [List.filterMap_cons, named, List.filterMap_nil, List.mem_singleton] at member
    omega

theorem rising_none (none : ∀ event ∈ late, event.place? = none) (first last : Nat) : Rising first last late where
  ordered := by simp [List.filterMap_eq_nil_iff.mpr none]
  inside place member := by
    rw [List.filterMap_eq_nil_iff.mpr none] at member
    cases member

theorem rising_nil (first last : Nat) : Rising first last [] := rising_none (by simp) first last

/-- Events that name no place do not count. -/
theorem Rising.quiet (rising : Rising first last early) (none : ∀ event ∈ late, event.place? = none) :
    Rising first last (early ++ late) := by
  have same : (early ++ late).filterMap place? = early.filterMap place? := by
    rw [List.filterMap_append, List.filterMap_eq_nil_iff.mpr none, List.append_nil]
  exact ⟨same ▸ rising.ordered, same ▸ rising.inside⟩

end Rising
end Event

namespace Decoder

/-- Whether what is told by a result, behind what had been told in `s`, names only places from `first` on. -/
def Rises (first : Nat) (s : State) : EStateM.Result Error State α → Prop
  | .ok _ after => first ≤ after.cursor.offset ∧ ∃ later,
    after.trace.toList = s.trace.toList ++ later ∧ Event.Rising first after.cursor.offset later
  | .error _ after => s.cursor.offset ≤ after.cursor.offset ∧ ∃ later,
    after.trace.toList = s.trace.toList ++ later ∧ Event.Rising first (after.cursor.offset + 1) later

/-- Whether a run names no place but those that it has come to, each behind the one before and all of them
`room` bytes or more behind where it began. -/
def Spaced (room : Nat) (decoder : Decoder α) : Prop := ∀ s, Rises (s.cursor.offset + room) s (decoder s)

section Results

variable {first middle : Nat} {s reached : State} {early : List Event} {result : EStateM.Result Error State α}

/-- What was told before may name places as well, if they are all passed. -/
theorem Rises.behind (rises : Rises middle reached result) (front : Event.Rising first middle early)
    (recorded : reached.trace.toList = s.trace.toList ++ early) (onward : s.cursor.offset ≤ reached.cursor.offset)
    (start : first ≤ middle) (near : middle ≤ reached.cursor.offset + 1) : Rises first s result := by
  cases result with
  | ok value after =>
    obtain ⟨further, later, told, back⟩ := rises
    refine ⟨Nat.le_trans start further, early ++ later, ?_, front.append back start further⟩
    rw [told, recorded, List.append_assoc]
  | error cause after =>
    obtain ⟨further, later, told, back⟩ := rises
    refine ⟨Nat.le_trans onward further, early ++ later, ?_, front.append back start (by omega)⟩
    rw [told, recorded, List.append_assoc]

theorem Rises.failed {value : α} {after : State} (rises : Rises first s (.ok value after))
    (onward : s.cursor.offset ≤ after.cursor.offset) (cause : Error) :
    Rises first s (.error cause after : EStateM.Result Error State β) := by
  obtain ⟨-, later, told, rising⟩ := rises
  exact ⟨onward, later, told, rising.mono (Nat.le_refl _) (Nat.le_succ _)⟩

theorem Rises.mono {less : Nat} (rises : Rises first s result) (fewer : less ≤ first) : Rises less s result := by
  cases result with
  | ok value after =>
    obtain ⟨further, later, told, rising⟩ := rises
    exact ⟨Nat.le_trans fewer further, later, told, rising.mono fewer (Nat.le_refl _)⟩
  | error cause after =>
    obtain ⟨further, later, told, rising⟩ := rises
    exact ⟨further, later, told, rising.mono fewer (Nat.le_refl _)⟩

theorem Rises.closing (rises : Rises first s result) : Rises first s (Decoder.closing result) := by
  have silent : ∀ event ∈ [Event.closed], event.place? = none := by simp [Event.place?]
  cases result with
  | ok value after | error cause after =>
    obtain ⟨further, later, told, rising⟩ := rises
    refine ⟨further, later ++ [.closed], ?_, rising.quiet silent⟩
    rw [State.closed, Array.toList_push, told, List.append_assoc]

/-- A silent step that fails names nothing. -/
theorem rises_of_error {decoder : Decoder α} {cause : Error} {after : State} (forward : decoder.Forward)
    (run : decoder s = .error cause after) (still : after.trace = s.trace) :
    Rises first s (.error cause after : EStateM.Result Error State β) := by
  have onward := forward.offset_le s
  rw [reached_of_error run] at onward
  exact ⟨onward, [], by rw [still, List.append_nil], Event.rising_nil _ _⟩

end Results

section Steps

variable {room : Nat} {first : Decoder α} {next : α → Decoder β}

theorem spaced_of_silent {decoder : Decoder α} (silent : decoder.Silent) (forward : decoder.Forward) :
    decoder.Spaced 0 := by
  intro s
  cases run : decoder s with
  | ok value after =>
    exact ⟨forward.offset_of_ok run, [], by rw [silent.trace run, List.append_nil], Event.rising_nil _ _⟩
  | error cause after => exact rises_of_error forward run (silent.trace_of_error run)

theorem Spaced.bind (starts : first.Spaced room) (goes : ∀ value, (next value).Spaced 0) :
    (first >>= next).Spaced room := by
  intro s
  have head := starts s
  cases run : first s with
  | ok value middle =>
    rw [run] at head
    obtain ⟨further, early, told, rising⟩ := head
    rw [bind_of_ok run]
    exact (goes value middle).behind rising told (by omega) further (Nat.le_succ _)
  | error cause middle =>
    rw [run] at head
    rw [bind_of_error run]
    exact head

theorem spaced_read {κ : Type} [Word κ] : (Decoder.read : Decoder (Scalar κ)).Spaced (Word.width κ) := by
  intro s
  have still := silent_sequential.read (κ := κ)
  cases run : (Decoder.read : Decoder (Scalar κ)) s with
  | ok value after =>
    have none := Event.rising_nil (s.cursor.offset + Word.width κ) after.cursor.offset
    exact ⟨Nat.le_of_eq (offset_read run).2.symm, [], by rw [still.trace run, List.append_nil], none⟩
  | error cause after => exact rises_of_error forward_sequential.read run (still.trace_of_error run)

theorem spaced_record {event : Event} (none : event.place? = none) : (record event).Spaced 0 := fun s =>
  ⟨Nat.le_refl _, [event], Array.toList_push, Event.rising_none (by simpa using none) _ _⟩

theorem spaced_sequential : Sequential fun _ decoder => decoder.Spaced 0 where
  pure value := spaced_of_silent (silent_sequential.pure value) (forward_sequential.pure value)
  throw α cause := spaced_of_silent (silent_sequential.throw α cause) (forward_sequential.throw α cause)
  bind := Spaced.bind
  read := spaced_of_silent silent_sequential.read forward_sequential.read
  take n := spaced_of_silent (silent_sequential.take n) (forward_sequential.take n)

theorem Spaced.mono {decoder : Decoder α} (spaced : decoder.Spaced room) {less : Nat} (fewer : less ≤ room) :
    decoder.Spaced less := fun s => (spaced s).mono (Nat.add_le_add_left fewer _)

end Steps

/-- However a run ends, the places that it names rise. -/
theorem Spaced.told {decoder : Decoder α} (spaced : decoder.Spaced room) (s : State) : ∃ later last,
    decoder.told s = s.trace.toList ++ later ∧ Event.Rising (s.cursor.offset + room) last later := by
  have rises := spaced s
  rw [Decoder.told, reached]
  cases run : decoder s with
  | ok value after | error cause after =>
    rw [run] at rises
    obtain ⟨-, later, recorded, rising⟩ := rises
    exact ⟨later, _, recorded, rising⟩

theorem Spaced.nested {decoder : Decoder α} (inner : decoder.Spaced 0) : (Decoder.nested decoder).Spaced 0 := by
  intro s
  rw [nested_apply]
  have silent : Event.Rising s.cursor.offset s.cursor.offset [.opened s.cursor.offset] :=
    Event.rising_none (by simp [Event.place?]) _ _
  have rises := (inner s.opened).behind silent Array.toList_push (Nat.le_refl _) (Nat.le_refl s.cursor.offset)
    (Nat.le_succ _)
  exact rises.closing

section Layouts

variable {pool : Pool}

/-- A code array may have no bytes, so that only what follows its instructions leaves their place behind. -/
theorem spaced_codeThen {next : U4 × Array Instruction → Decoder α} (goes : ∀ code, (next code).Spaced 1) :
    (Layout.decodeCode >>= next).Spaced 0 := by
  intro s
  cases run : Layout.decodeCode s with
  | error cause middle =>
    rw [bind_of_error run]
    exact rises_of_error (Layout.decode_forward .empty .code) run (Layout.trace_decodeCode_of_error run)
  | ok code middle =>
    obtain ⟨place, inside⟩ := Layout.decodeCode_place run
    have single : Event.Rising s.cursor.offset (middle.cursor.offset + 1)
        [.codeDecoded code.2.size code.1.toNat (code.1.offset + 4)] :=
      Event.rising_single rfl (by omega) (by omega)
    rw [bind_of_ok run]
    refine (goes code middle).behind single ?_ (by omega) (by omega) (Nat.le_refl _)
    rw [Layout.trace_decodeCode run, Array.toList_push]

theorem spaced_payload {element : Layout Element} {attributes : Layout Table}
    (values : (element.decode pool).Spaced 0) (tables : (attributes.decode pool).Spaced 0) (kind : AttributeKind)
    (length : Nat) : ((Payload.layout element attributes kind length).decode pool).Spaced 0 := by
  have closed := spaced_sequential.closed pool True
  by_cases code : kind = .code
  · subst code
    have word := closed.flat (show Layout.u2.Flat True from trivial)
    have handlers : ((Layout.list Handler.layout).decode pool).Spaced 2 :=
      spaced_read.bind fun count => spaced_sequential.bind
        (spaced_sequential.timesFrom (closed.flat Handler.layout_flat) _ _) fun _ => spaced_sequential.pure _
    have rest : ((Layout.seq (.list Handler.layout) attributes).decode pool).Spaced 2 :=
      handlers.bind fun _ => spaced_sequential.bind tables fun _ => spaced_sequential.pure _
    have instructions : ((Layout.seq .code (.seq (.list Handler.layout) attributes)).decode pool).Spaced 0 :=
      spaced_codeThen fun _ => (rest.mono (by decide)).bind fun _ => spaced_sequential.pure _
    exact closed.as _ (closed.as _ (closed.seq word (closed.seq word instructions)))
  · exact closed.payload values tables code length

theorem Rises.settle {first start : Nat} {s : State} {nameIndex : U2} {name : String} {length : U4}
    {result : EStateM.Result Error State Payload} (rises : Rises first s result) (room : s.cursor.offset ≤ first) :
    Rises first s (Layout.settle nameIndex name length start result) := by
  cases result with
  | error cause after => exact rises
  | ok value after =>
    by_cases same : after.cursor.offset - start = length.toNat
    · rw [Layout.settle, if_pos same]
      exact rises
    · rw [Layout.settle, if_neg same]
      exact rises.failed (Nat.le_trans room rises.1) _

theorem spaced_attribute {element : Layout Element} {attributes : Layout Table}
    (values : (element.decode pool).Spaced 0) (tables : (attributes.decode pool).Spaced 0) :
    ((Attribute.layoutWith element attributes).decode pool).Spaced 0 := by
  intro s
  rw [Attribute.layoutWith, Layout.decode, Layout.decodeEntry_eq]
  cases head : Layout.decodeHead pool s with
  | error cause middle =>
    rw [bind_of_error head]
    exact rises_of_error (Layout.decodeHead_forward pool) head ((Layout.decodeHead_quiet pool).trace_of_error head)
  | ok found middle =>
    obtain ⟨nameIndex, name, length⟩ := found
    obtain ⟨passed, moved, written⟩ := (Layout.decodeHead_reads pool).sound head
    have here : nameIndex.offset = s.cursor.offset := written.1
    have far := moved.offset
    rw [written.length] at far
    have told (event : Event) : (middle.recording event).trace.toList = s.trace.toList ++ [event] := by
      rw [State.recording, Array.toList_push, (Layout.decodeHead_quiet pool).trace head]
    have further (event : Event) : s.cursor.offset ≤ (middle.recording event).cursor.offset := by
      change _ ≤ middle.cursor.offset
      omega
    rw [bind_of_ok head]
    cases known : AttributeKind.ofName? name with
    | some kind =>
      have line : Event.Rising s.cursor.offset middle.cursor.offset
          [.decoding name length.toNat nameIndex.offset] := Event.rising_single rfl (by omega) (by omega)
      have rises := spaced_payload values tables kind length.toNat
        (middle.recording (.decoding name length.toNat nameIndex.offset))
      rw [Layout.decodeRest_known known]
      exact (rises.behind line (told _) (further _) (further _) (Nat.le_succ _)).settle (Nat.le_refl _)
    | none =>
      have line : Event.Rising s.cursor.offset middle.cursor.offset
          [.skipping name length.toNat nameIndex.offset] := Event.rising_single rfl (by omega) (by omega)
      have skips : (Decoder.skip length.toNat >>= fun _ =>
          pure (Attribute.mk nameIndex name length .unknown)).Spaced 0 :=
        (spaced_of_silent (silent_onCursor _) (forward_steps.skip _)).bind fun _ => spaced_sequential.pure _
      have rises := skips (middle.recording (.skipping name length.toNat nameIndex.offset))
      rw [Layout.decodeRest_unknown known]
      exact rises.behind line (told _) (further _) (further _) (Nat.le_succ _)

theorem spaced_entries {entry : Decoder Attribute} (each : entry.Spaced 0) (n : Nat) (entries : List Attribute) :
    (Layout.decodeEntries entry n entries).Spaced 0 := by
  induction n generalizing entries with
  | zero => exact spaced_sequential.pure _
  | succ n ih =>
    refine each.bind fun later => ?_
    have rest := ih (Table.insert later entries)
    split
    next => exact (spaced_record rfl).bind fun _ => rest
    next => exact rest

theorem spaced_graded (pool : Pool) (limit : Nat) :
    Layout.Graded limit fun _ _ layout => (layout.decode pool).Spaced 0 where
  closed _ := spaced_sequential.closed pool True
  bottom _ := Spaced.bind (spaced_of_silent silent_offset (forward_still fun _ => rfl)) fun _ =>
    spaced_sequential.throw _ _
  across := Spaced.nested
  table values tables := spaced_sequential.bind spaced_sequential.read fun _ =>
    spaced_sequential.bind (spaced_entries (spaced_attribute values tables) _ _) fun _ => spaced_sequential.pure _

end Layouts
end Decoder
end ClassFormat
