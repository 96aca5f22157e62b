import ClassFormat.Proofs.Collecting
import ClassFormat.Proofs.Entering
import ClassFormat.Proofs.Grammar

/-! Where everything that is told comes from. A line is told of an attribute that is begun just then, of a code
array whose instructions have just been decoded, or of an attribute that the one just decoded overwrites, and a
level of nesting is opened where what it holds is begun. -/
namespace ClassFormat

open Decoder

namespace Layout

/-- Why an event is told behind those `before` while `outer` is decoded from a state. -/
inductive Source (pool : Pool) {α : Type} (outer : Layout α) (s : State) (before : List Event) : Event → Prop where
  /-- A level of nesting is opened where its contents are begun. -/
  | opened {γ : Type} {contents : Layout γ} {within : State} : (Layout.nested contents).Enters pool within outer s →
    within.trace.toList = before → Source pool outer s before (.opened within.cursor.offset)
  | closed : Source pool outer s before .closed
  | headline {element : Layout Element} {attributes : Layout Table} {within middle : State} {nameIndex : U2}
    {name : String} {length : U4} : (Attribute.layoutWith element attributes).Enters pool within outer s →
      within.trace.toList = before → decodeHead pool within = .ok (nameIndex, name, length) middle →
        Source pool outer s before (.headline name length.toNat nameIndex.offset)
  | code {element : Layout Element} {attributes : Layout Table} {within middle after : State} {nameIndex : U2}
    {name : String} {length : U4} {front : U2 × U2 × U4 × Array Instruction} :
      (Attribute.layoutWith element attributes).Enters pool within outer s →
      decodeHead pool within = .ok (nameIndex, name, length) middle → AttributeKind.ofName? name = some .code →
      within.trace.toList ++ [.headline name length.toNat nameIndex.offset] = before →
      codeFront.decode pool (middle.recording (.decoding name length.toNat nameIndex.offset)) = .ok front after →
        Source pool outer s before (.codeDecoded front.2.2.2.size front.2.2.1.toNat (front.2.2.1.offset + 4))
  | replaced {element : Layout Element} {attributes : Layout Table} {within after : State} {item : Attribute}
    {offset : Nat} : (Attribute.layoutWith element attributes).Enters pool within outer s →
      (Attribute.layoutWith element attributes).decode pool within = .ok item after →
      after.trace.toList = before → offset < item.nameIndex.offset →
        Source pool outer s before (.replaced item.name offset)

theorem Source.lift {pool : Pool} {inner : Layout α} {within : State} {before : List Event} {event : Event}
    (source : Source pool inner within before event) {outer : Layout β} {s : State}
    (enters : inner.Enters pool within outer s) : Source pool outer s before event := by
  cases source with
  | opened deeper here => exact .opened (deeper.trans enters) here
  | closed => exact .closed
  | headline deeper here head => exact .headline (deeper.trans enters) here head
  | code deeper head known here front => exact .code (deeper.trans enters) head known here front
  | replaced deeper run here early => exact .replaced (deeper.trans enters) run here early

/-- Lines of the lowest level are told of attributes that are begun and of their instructions. -/
theorem Source.of_trace {pool : Pool} {outer : Layout α} {s : State} {before : List Event} {event : Event}
    (source : Source pool outer s before event) (line : event.line?.any (·.1 = .trace)) :
    ∃ element attributes within nameIndex name length middle,
      (Attribute.layoutWith element attributes).Enters pool within outer s ∧
      decodeHead pool within = .ok (nameIndex, name, length) middle ∧
      ((before = within.trace.toList ∧ event = .headline name length.toNat nameIndex.offset) ∨
      ∃ front after, AttributeKind.ofName? name = some .code ∧
        codeFront.decode pool (middle.recording (.decoding name length.toNat nameIndex.offset)) = .ok front after ∧
        before = within.trace.toList ++ [.headline name length.toNat nameIndex.offset] ∧
        event = .codeDecoded front.2.2.2.size front.2.2.1.toNat (front.2.2.1.offset + 4)) := by
  cases source with
  | opened | closed => cases line
  | headline enters here head => exact ⟨_, _, _, _, _, _, _, enters, head, .inl ⟨here.symm, rfl⟩⟩
  | code enters head known here front =>
    exact ⟨_, _, _, _, _, _, _, enters, head, .inr ⟨_, _, known, front, here.symm, rfl⟩⟩
  | replaced => cases line

/-- A warning comes directly behind the attribute that takes the place of an earlier one. -/
theorem Source.of_replaced {pool : Pool} {outer : Layout α} {s : State} {before : List Event} {name : String}
    {offset : Nat} (source : Source pool outer s before (.replaced name offset)) :
    ∃ element attributes within item after, (Attribute.layoutWith element attributes).Enters pool within outer s ∧
      (Attribute.layoutWith element attributes).decode pool within = .ok item after ∧
      after.trace.toList = before ∧ item.name = name ∧ offset < item.nameIndex.offset := by
  generalize same : Event.replaced name offset = event at source
  cases source with
  | headline => exact absurd same (Event.ne_headline rfl _ _ _)
  | opened | closed | code => cases same
  | replaced enters run here early =>
    cases same
    exact ⟨_, _, _, _, _, enters, run, here, rfl, early⟩

/-- A level is opened for something that is nested and begun just then. -/
theorem Source.of_opened {pool : Pool} {outer : Layout α} {s : State} {before : List Event} {offset : Nat}
    (source : Source pool outer s before (.opened offset)) : ∃ (γ : Type) (contents : Layout γ) (within : State),
      (Layout.nested contents).Enters pool within outer s ∧ within.trace.toList = before ∧
      within.cursor.offset = offset := by
  generalize same : Event.opened offset = event at source
  cases source with
  | opened enters here =>
    cases same
    exact ⟨_, _, _, enters, here, rfl⟩
  | headline => exact absurd same (Event.ne_headline rfl _ _ _)
  | closed | code | replaced => cases same

/-- No line for debugging is told of a part of the body. -/
theorem Source.not_debug {pool : Pool} {outer : Layout α} {s : State} {before : List Event} {event : Event}
    (source : Source pool outer s before event) : ¬ event.line?.any (·.1 = .debug) := by
  intro line
  cases source with
  | headline =>
    rw [Event.headline] at line
    split at line <;> cases line
  | _ => cases line

/-- Whether everything that is told while a layout is decoded has a source there. -/
def Tells (pool : Pool) (layout : Layout α) : Prop :=
  ∀ s before event, s.trace.toList <+: before → before ++ [event] <+: (layout.decode pool).told s →
    Source pool layout s before event

/-! ### The last event of what has been told -/

section Last

variable {before early whole : List Event} {event last : Event}

theorem absurd_of_last (front : whole <+: before) (told : before ++ [event] <+: whole) : False := by
  have short := front.length_le
  have long := told.length_le
  rw [List.length_append, List.length_singleton] at long
  omega

/-- An event is told by some time or after it. -/
theorem last_cases (part : early <+: whole) (told : before ++ [event] <+: whole) :
    before ++ [event] <+: early ∨ early <+: before := by
  rcases List.prefix_or_prefix_of_prefix told part with within | beyond
  · exact .inl within
  · rcases List.prefix_concat_iff.mp beyond with rfl | front
    · exact .inl (List.prefix_refl _)
    · exact .inr front

theorem eq_last (front : early <+: before) (told : before ++ [event] <+: early ++ [last]) :
    before = early ∧ event = last := by
  rcases List.prefix_concat_iff.mp told with same | within
  · exact List.append_inj' same rfl |>.imp id List.singleton_inj.mp
  · exact (absurd_of_last front within).elim

end Last

section Rules

variable {pool : Pool} {s : State} {before : List Event} {event : Event}

theorem tells_of_silent {layout : Layout α} (silent : (layout.decode pool).Silent) : Tells pool layout := by
  intro s before event front told
  rw [silent.told] at told
  exact (absurd_of_last front told).elim

/-- What is told behind a silent step is told by what follows it. -/
theorem told_behind {first : Decoder α} {next : α → Decoder β} (silent : first.Silent)
    (front : s.trace.toList <+: before) (told : before ++ [event] <+: (first >>= next).told s) :
    ∃ value middle, first s = .ok value middle ∧ middle.trace = s.trace ∧
      before ++ [event] <+: (next value).told middle := by
  cases run : first s with
  | error cause middle =>
    rw [told_bind_of_error run, silent.told] at told
    exact (absurd_of_last front told).elim
  | ok value middle =>
    rw [told_bind_of_ok run] at told
    exact ⟨value, middle, rfl, silent.trace run, told⟩

/-- What is told by two steps is told by the first of them or, once it has succeeded, by the second. -/
theorem told_either {first : Decoder α} {next : α → Decoder β} (goes : ∀ value, (next value).Forward)
    (told : before ++ [event] <+: (first >>= next).told s) : before ++ [event] <+: first.told s ∨
      ∃ value middle, first s = .ok value middle ∧ middle.trace.toList <+: before ∧
        before ++ [event] <+: (next value).told middle := by
  cases run : first s with
  | error cause middle =>
    rw [told_bind_of_error run] at told
    exact .inl told
  | ok value middle =>
    rw [told_bind_of_ok run] at told
    rw [told_of_ok run]
    rcases last_cases ((goes value).told middle) told with early | late
    · exact .inl early
    · exact .inr ⟨value, middle, rfl, late, told⟩

theorem Tells.seq {first : Layout α} {second : Layout β} (head : Tells pool first) (tail : Tells pool second) :
    Tells pool (.seq first second) := by
  intro s before event front told
  have forward := second.decode_forward pool
  rcases told_either (fun _ => forward_sequential.bind forward fun _ => forward_sequential.pure _) told with
    early | ⟨value, middle, run, late, told⟩
  · exact (head s before event front early).lift (.first .here)
  · rw [told_map] at told
    exact (tail middle before event late told).lift (.second run .here)

theorem Tells.as (shape : Shape α β) {parts : Layout α} (inner : Tells pool parts) :
    Tells pool (.as shape parts) := by
  intro s before event front told
  rw [decode, told_map] at told
  exact (inner s before event front told).lift (.parts shape .here)

theorem Tells.times (n : Nat) {item : Layout α} (each : Tells pool item) : Tells pool (.times n item) := by
  induction n with
  | zero => exact tells_of_silent (silent_sequential.pure _)
  | succ n ih =>
    intro s before event front told
    rw [decode, times_succ] at told
    have forward := (Layout.times n item).decode_forward pool
    rcases told_either (fun _ => forward_sequential.bind forward fun _ => forward_sequential.pure _) told with
      early | ⟨value, middle, run, late, told⟩
    · exact (each s before event front early).lift (.item .here)
    · rw [told_map] at told
      exact (ih middle before event late told).lift (.later run .here)

theorem Tells.counted {κ : Type} (width : Word κ) {item : Layout α} (each : Tells pool item) :
    Tells pool (.counted width item) := by
  intro s before event front told
  obtain ⟨count, middle, run, still, told⟩ :=
    told_behind (@Sequential.read _ silent_sequential κ width) front told
  rw [told_map] at told
  rw [← still] at front
  exact (each.times (width.toNat count.value) middle before event front told).lift (.counted run .here)

theorem Tells.tagged {κ : Type} {tagging : Tagging κ} {body : κ → Layout α}
    (each : ∀ kind, Tells pool (body kind)) : Tells pool (.tagged tagging body) := by
  intro s before event front told
  rw [decode] at told
  obtain ⟨tag, middle, run, still, told⟩ := told_behind silent_sequential.read front told
  rw [← still] at front
  cases known : tagging.ofByte? tag.value with
  | some kind =>
    rw [known, told_map] at told
    exact (each kind middle before event front told).lift (.tagged run known .here)
  | none =>
    rw [known] at told
    exact (absurd_of_last front told).elim

theorem Tells.nested {inner : Layout α} (within : Tells pool inner) : Tells pool (.nested inner) := by
  intro s before event front told
  have opened : s.opened.trace.toList = s.trace.toList ++ [.opened s.cursor.offset] := Array.toList_push
  rw [decode, Decoder.told, reached_nested, State.closed, Array.toList_push] at told
  rcases List.prefix_concat_iff.mp told with last | told
  · obtain ⟨-, same⟩ := List.append_inj' last rfl
    obtain rfl := List.singleton_inj.mp same
    exact .closed
  · rcases last_cases ((inner.decode_forward pool).told s.opened) told with early | late
    · rw [opened] at early
      obtain ⟨rfl, rfl⟩ := eq_last front early
      exact .opened .here rfl
    · exact (within s.opened before event late told).lift (.nested .here)

theorem tells_closed (pool : Pool) : Closed True fun _ layout => Tells pool layout where
  nothing := tells_of_silent (silent_sequential.pure _)
  word _ := tells_of_silent silent_sequential.read
  flags set := tells_of_silent ((silent_sequential.closed pool True).flags set)
  index target linked := tells_of_silent ((silent_sequential.closed pool True).index target linked)
  indexPair first second linked := tells_of_silent ((silent_sequential.closed pool True).indexPair first second linked)
  seq := Tells.seq
  as := Tells.as
  times := Tells.times
  counted := Tells.counted
  tagged _ := Tells.tagged
  text slot := tells_of_silent ((silent_sequential.closed pool True).text slot)
  looseText length := tells_of_silent ((silent_sequential.closed pool True).looseText length)

/-! ### Attributes and tables of them -/

variable {element : Layout Element} {attributes : Layout Table}

/-- What is told of the contents of a code attribute is told of its instructions or of its table. -/
theorem told_codeWith (tables : Tells pool attributes) (front : s.trace.toList <+: before)
    (told : before ++ [event] <+: ((Code.layout attributes).decode pool).told s) :
    (∃ found after, codeFront.decode pool s = .ok found after ∧ before = s.trace.toList ∧
      event = .codeDecoded found.2.2.2.size found.2.2.1.toNat (found.2.2.1.offset + 4)) ∨
    Source pool (Code.layout attributes) s before event := by
  have word : (Layout.u2.decode pool).Silent := silent_sequential.read
  have flat := silent_sequential.closed pool True
  have rest : Tells pool (.seq (.list Handler.layout) attributes) :=
    (tells_of_silent (flat.counted _ (flat.flat Handler.layout_flat))).seq tables
  rw [Code.layout, decode, told_map] at told
  obtain ⟨maxStack, one, first, still, told⟩ := told_behind word front told
  rw [told_map] at told
  rw [← still] at front ⊢
  obtain ⟨maxLocals, two, second, still, told⟩ := told_behind word front told
  rw [told_map] at told
  rw [← still] at front ⊢
  have forward := decode_forward pool (.seq (.list Handler.layout) attributes)
  rcases told_either (fun _ => forward_sequential.bind forward fun _ => forward_sequential.pure _) told with
    early | ⟨code, three, third, late, told⟩
  · cases third : Layout.code.decode pool two with
    | error cause three =>
      rw [told_of_error third, trace_decodeCode_of_error third] at early
      exact (absurd_of_last front early).elim
    | ok code three =>
      rw [told_of_ok third, trace_decodeCode third, Array.toList_push] at early
      obtain ⟨rfl, rfl⟩ := eq_last front early
      have decoded : codeFront.decode pool s = .ok (maxStack, maxLocals, code) three :=
        codeFront_eq_ok.mpr ⟨one, two, first, second, third⟩
      exact .inl ⟨_, _, decoded, rfl, rfl⟩
  · rw [told_map] at told
    exact .inr ((rest three before event late told).lift
      (.parts _ (.second first (.second second (.second third .here)))))

theorem tells_entry (values : Tells pool element) (tables : Tells pool attributes) :
    Tells pool (Attribute.layoutWith element attributes) := by
  intro s before event front told
  rw [Attribute.layoutWith, decode, decodeEntry_eq] at told
  obtain ⟨⟨nameIndex, name, length⟩, middle, head, still, told⟩ := told_behind (decodeHead_quiet pool) front told
  rw [← still] at front
  cases known : AttributeKind.ofName? name with
  | none =>
    rw [told_decodeRest_unknown known] at told
    obtain ⟨rfl, rfl⟩ := eq_last front told
    rw [← Event.headline_of_unknown known]
    exact .headline .here (congrArg Array.toList still.symm) head
  | some kind =>
    have line := Event.headline_of_known known length.toNat nameIndex.offset
    rw [told_decodeRest_known known] at told
    have recorded : (middle.recording (.decoding name length.toNat nameIndex.offset)).trace.toList =
        middle.trace.toList ++ [.decoding name length.toNat nameIndex.offset] := Array.toList_push
    have forward := (Payload.layout element attributes kind length.toNat).decode_forward pool
    rcases last_cases (forward.told _) told with early | late
    · rw [recorded] at early
      obtain ⟨rfl, rfl⟩ := eq_last front early
      rw [← line]
      exact .headline .here (congrArg Array.toList still.symm) head
    · by_cases code : kind = .code
      · subst code
        rw [Payload.layout, decode, told_map] at told
        rcases told_codeWith tables late told with ⟨found, after, run, rfl, rfl⟩ | source
        · rw [recorded, still, ← line]
          exact .code .here head known rfl run
        · exact source.lift (.payload head known (.parts _ .here))
      · exact ((tells_closed pool).payload values tables code length.toNat _ before event late told).lift
          (.payload head known .here)

/-- An attribute is named where it begins, and it fills at least the bytes of its head. -/
theorem attribute_place {item : Attribute} {after : State}
    (run : (Attribute.layoutWith element attributes).decode pool s = .ok item after) :
    item.nameIndex.offset = s.cursor.offset ∧ s.cursor.offset < after.cursor.offset := by
  obtain ⟨bytes, passed, content, place, -, rfl, -⟩ :=
    (decode_reads pool (Attribute.layoutWith element attributes)).sound run
  refine ⟨place, ?_⟩
  simp only [passed.offset, List.length_append, Word.length_toBytes, Word.width_u2]
  omega

section Rows

variable {payload : AttributeKind → Nat → Layout Payload} {middle reached after : State} {count : U2} {n : Nat}
  {entries : List Attribute} {later : Attribute}

/-- One more attribute that takes the place of none. -/
theorem decodeEntries_new {entry : Decoder Attribute}
    (done : decodeEntries entry n [] middle = .ok entries reached) (ran : entry reached = .ok later after)
    (new : entries.find? (·.name = later.name) = none) :
    decodeEntries entry (n + 1) [] middle = .ok (Table.insert later entries) after := by
  rw [decodeEntries_add]
  refine bind_eq_ok.mpr ⟨_, _, done, bind_eq_ok.mpr ⟨_, _, ran, ?_⟩⟩
  rw [new]
  rfl

/-- One more attribute that takes the place of an earlier one, which is told. -/
theorem decodeEntries_again {entry : Decoder Attribute} {earlier : Attribute}
    (done : decodeEntries entry n [] middle = .ok entries reached) (ran : entry reached = .ok later after)
    (known : entries.find? (·.name = later.name) = some earlier) :
    decodeEntries entry (n + 1) [] middle = .ok (Table.insert later entries)
      (after.recording (.replaced earlier.name earlier.nameIndex.offset)) := by
  rw [decodeEntries_add]
  refine bind_eq_ok.mpr ⟨_, _, done, bind_eq_ok.mpr ⟨_, _, ran, ?_⟩⟩
  rw [known]
  rfl

theorem told_rows (each : Tells pool (Attribute.layoutWith element attributes))
    (run : Decoder.read s = .ok count middle) {more : Nat} (all : n + more = count.toNat)
    (done : decodeEntries ((Attribute.layoutWith element attributes).decode pool) n [] middle = .ok entries reached)
    (behind : ∀ earlier ∈ entries, earlier.nameIndex.offset < reached.cursor.offset)
    (front : reached.trace.toList <+: before) (told : before ++ [event] <+:
      (decodeEntries ((Attribute.layoutWith element attributes).decode pool) more entries).told reached) :
    Source pool (.table (Attribute.layoutWith element attributes)) s before event := by
  -- The attributes that are already in the table all begin before the next one does.
  induction more generalizing n entries reached with
  | zero => exact (absurd_of_last front told).elim
  | succ more ih =>
    have enters := Enters.row run (by omega) done .here
    have forward := (Attribute.layoutWith element attributes).decode_forward pool
    have rest (later : Attribute) := decodeEntries_forward forward more (Table.insert later entries)
    rcases told_either (decodeEntries_succ_forward forward more entries) told with
      early | ⟨later, after, ran, late, told⟩
    · exact (each reached before event front early).lift enters
    · obtain ⟨place, onward⟩ := attribute_place ran
      have grown : ∀ earlier ∈ Table.insert later entries, earlier.nameIndex.offset < after.cursor.offset := by
        intro earlier member
        rcases Table.mem_of_mem_insert member with rfl | old
        · omega
        · exact Nat.lt_trans (behind earlier old) onward
      cases found : entries.find? (·.name = later.name) with
      | none =>
        simp only [found] at told
        exact ih (by omega) (decodeEntries_new done ran found) grown late told
      | some earlier =>
        simp only [found] at told
        have noted : record (.replaced earlier.name earlier.nameIndex.offset) after =
          .ok () (after.recording (.replaced earlier.name earlier.nameIndex.offset)) := rfl
        rw [told_bind_of_ok noted] at told
        rcases last_cases ((rest later).told _) told with warned | later
        · rw [State.recording, Array.toList_push] at warned
          obtain ⟨rfl, rfl⟩ := eq_last late warned
          have same : earlier.name = later.name := by simpa using List.find?_some found
          have before := behind earlier (List.mem_of_find?_eq_some found)
          rw [same]
          exact .replaced enters ran rfl (by omega)
        · exact ih (by omega) (decodeEntries_again done ran found) grown later told

end Rows

theorem Tells.table (each : Tells pool (Attribute.layoutWith element attributes)) :
    Tells pool (.table (Attribute.layoutWith element attributes)) := by
  intro s before event front told
  rw [decode] at told
  obtain ⟨count, middle, run, still, told⟩ := told_behind silent_sequential.read front told
  rw [told_map] at told
  rw [← still] at front
  exact told_rows each run (Nat.zero_add _) rfl (fun _ member => absurd member List.not_mem_nil) front told

/-- Across all levels of nesting, nothing is told without a source. -/
theorem tells_graded (pool : Pool) (limit : Nat) : Graded limit fun _ _ layout => Tells pool layout where
  closed _ := tells_closed pool
  bottom _ := tells_of_silent (silent_sequential.bind silent_offset fun _ => silent_sequential.throw _ _)
  across := Tells.nested
  table values tables := (tells_entry values tables).table

end Rules

end Layout
end ClassFormat
