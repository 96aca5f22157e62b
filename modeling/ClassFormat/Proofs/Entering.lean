import ClassFormat.Proofs.Standing

/-! What a run comes to, whether it succeeds or not. One layout is begun while another is decoded, in a state
that has been reached by then, and whatever was told up to there is told in the end. -/
namespace ClassFormat

namespace Decoder

/-- All that has been told by the end of a run, however it ends. -/
def told (decoder : Decoder α) (s : State) : List Event := (decoder.reached s).trace.toList

section Told

variable {decoder first : Decoder α} {next : α → Decoder β} {s middle : State} {value : α} {cause : Error}

theorem told_of_ok (run : decoder s = .ok value middle) : decoder.told s = middle.trace.toList := by
  rw [told, reached_of_ok run]

theorem told_of_error (run : decoder s = .error cause middle) : decoder.told s = middle.trace.toList := by
  rw [told, reached_of_error run]

theorem told_bind_of_ok (run : first s = .ok value middle) : (first >>= next).told s = (next value).told middle := by
  simp only [told, reached_bind_of_ok run]

theorem told_bind_of_error (run : first s = .error cause middle) : (first >>= next).told s = first.told s := by
  rw [told_of_error run, told_of_error (bind_of_error run)]

/-- Nothing is told when a value is only made into another. -/
theorem told_map (decoder : Decoder α) (make : α → β) (s : State) :
    (decoder >>= fun value => pure (make value)).told s = decoder.told s := by
  cases run : decoder s with
  | ok value middle =>
    rw [told_bind_of_ok run, told_of_ok run]
    rfl
  | error cause middle => exact told_bind_of_error run

theorem Forward.told (forward : decoder.Forward) (s : State) : s.trace.toList <+: decoder.told s := by
  obtain ⟨-, later, recorded⟩ := forward s
  exact ⟨later, recorded.symm⟩

theorem Forward.offset_le (forward : decoder.Forward) (s : State) :
    s.cursor.offset ≤ (decoder.reached s).cursor.offset := by
  obtain ⟨⟨bytes, passed⟩, -⟩ := forward s
  rw [passed.offset]
  exact Nat.le_add_right _ _

theorem Forward.offset_of_ok (forward : decoder.Forward) (run : decoder s = .ok value middle) :
    s.cursor.offset ≤ middle.cursor.offset := by
  have onward := forward.offset_le s
  rwa [reached_of_ok run] at onward

theorem offset_read {κ : Type} [Word κ] {scalar : Scalar κ} (run : Decoder.read s = .ok scalar middle) :
    scalar.offset = s.cursor.offset ∧ middle.cursor.offset = s.cursor.offset + Word.width κ := by
  obtain ⟨bytes, passed, place, rfl⟩ := Reads.read.sound run
  rw [passed.offset, Word.length_toBytes]
  exact ⟨place, rfl⟩

/-- Nothing that has been told is taken back by what is decoded behind it. -/
theorem told_bind (goes : ∀ value, (next value).Forward) (s : State) : first.told s <+: (first >>= next).told s := by
  cases run : first s with
  | ok value middle =>
    rw [told_bind_of_ok run, told_of_ok run]
    exact (goes value).told middle
  | error cause middle => simp only [told_bind_of_error run, List.prefix_refl]

theorem forward_sequential : Sequential fun _ decoder => decoder.Forward where
  pure := forward_steps.pure
  throw _ _ := forward_still fun _ => rfl
  bind {_ _ first next} starts goes := @Stepwise.bind _ forward_steps _ _ first first next next starts goes
  read := forward_steps.read
  take := forward_steps.take

theorem told_nested (inner : Decoder α) (s : State) : inner.told s.opened <+: (Decoder.nested inner).told s := by
  rw [told, told, reached_nested, State.closed, Array.toList_push]
  exact List.prefix_append _ _

/-- Items that are decoded before are only put in front. -/
theorem timesFrom_eq (item : Decoder α) (n : Nat) (decoded : List α) :
    timesFrom item n decoded = times n item >>= fun values => pure (decoded.reverse ++ values) := by
  induction n generalizing decoded with
  | zero => rw [times, timesFrom, timesFrom, pure_bind, List.reverse_nil, List.append_nil]
  | succ n ih =>
    rw [times, timesFrom, timesFrom, bind_assoc]
    congr 1
    funext value
    rw [ih [value], ih (value :: decoded), bind_assoc]
    congr 1
    funext values
    rw [pure_bind, List.reverse_cons, List.append_assoc]
    rfl

theorem times_succ (item : Decoder α) (n : Nat) :
    times (n + 1) item = item >>= fun value => times n item >>= fun values => pure (value :: values) := by
  rw [times, timesFrom]
  congr 1
  funext value
  exact timesFrom_eq item n [value]

theorem told_times_succ {item : Decoder α} {n : Nat} (run : item s = .ok value middle) :
    (times (n + 1) item).told s = (times n item).told middle := by
  rw [times_succ, told_bind_of_ok run, told_map]

end Told

/-- Whether nothing is told, however a run ends. -/
def Silent (decoder : Decoder α) : Prop := ∀ s, (decoder.reached s).trace = s.trace

theorem silent_still {decoder : Decoder α} (still : ∀ s, decoder.reached s = s) : decoder.Silent :=
  fun s => by rw [still s]

theorem silent_onCursor (step : Cursor → Except Error α × Cursor) : (onCursor step).Silent :=
  fun s => by rw [reached_onCursor]

theorem silent_sequential : Sequential fun _ decoder => decoder.Silent where
  pure _ := silent_still fun _ => rfl
  throw _ _ := silent_still fun _ => rfl
  bind {_ _ first _} starts goes s := by
    have early := starts s
    cases run : first s with
    | ok value middle =>
      rw [reached_of_ok run] at early
      rw [reached_bind_of_ok run, goes value middle, early]
    | error cause middle =>
      rw [reached_of_error run] at early
      rw [reached_of_error (bind_of_error run), early]
  read := silent_onCursor _
  take _ := silent_onCursor _

theorem silent_offset : Decoder.offset.Silent := silent_still fun _ => rfl

namespace Silent

variable {decoder : Decoder α} {s after : State} {value : α} {cause : Error} (silent : decoder.Silent)
include silent

theorem trace (run : decoder s = .ok value after) : after.trace = s.trace := by
  rw [← silent s, reached_of_ok run]

theorem trace_of_error (run : decoder s = .error cause after) : after.trace = s.trace := by
  rw [← silent s, reached_of_error run]

theorem told (s : State) : decoder.told s = s.trace.toList := by rw [Decoder.told, silent s]

end Silent
end Decoder

namespace Event

/-- The place that a line about what was decoded or is skipped names. -/
def place? : Event → Option Nat
  | poolDecoded _ offset | decoding _ _ offset | skipping _ _ offset | codeDecoded _ _ offset => some offset
  | replaced .. | opened _ | closed | classDecoded .. => none

/-- What is told of an attribute when its name and its length have been read. -/
def headline (name : String) (length offset : Nat) : Event :=
  match AttributeKind.ofName? name with
  | some _ => .decoding name length offset
  | none => .skipping name length offset

theorem headline_of_known {name : String} {kind : AttributeKind} (known : AttributeKind.ofName? name = some kind)
    (length offset : Nat) : headline name length offset = .decoding name length offset := by
  rw [headline, known]

theorem headline_of_unknown {name : String} (unknown : AttributeKind.ofName? name = none) (length offset : Nat) :
    headline name length offset = .skipping name length offset := by
  rw [headline, unknown]

theorem place?_headline (name : String) (length offset : Nat) : (headline name length offset).place? = some offset := by
  unfold headline
  split <;> rfl

/-- What names no place is not such a line. -/
theorem ne_headline {event : Event} (none : event.place? = none) (name : String) (length offset : Nat) :
    event ≠ headline name length offset := by
  rintro rfl
  rw [place?_headline] at none
  cases none

end Event

/-- An attribute in which element values and the tables further down are laid out in given ways. -/
def Attribute.layoutWith (element : Layout Element) (attributes : Layout Table) : Layout Attribute :=
  .entry (Payload.layout element attributes)

open Decoder

namespace Layout

section Forward

variable (pool : Pool)

/-- Whatever is decoded, no byte is gone back over and nothing that was told is lost. -/
theorem decode_forward (layout : Layout α) : (layout.decode pool).Forward := by
  have closed := forward_sequential.closed pool True
  induction layout with
  | nothing => exact closed.nothing
  | word width => exact closed.word width
  | flags set => exact closed.flags set
  | index target => exact closed.index target trivial
  | indexPair first second => exact closed.indexPair first second trivial
  | seq first second first_ih second_ih => exact closed.seq first_ih second_ih
  | as shape parts ih => exact closed.as shape ih
  | times n item ih => exact closed.times n ih
  | counted width item ih => exact closed.counted width ih
  | tagged tagging body ih =>
    rw [decode]
    refine forward_sequential.bind forward_sequential.read fun tag => ?_
    split
    next kind known => exact forward_sequential.bind (ih kind) fun _ => forward_sequential.pure _
    next => exact forward_sequential.throw _ _
  | text slot => exact closed.text slot
  | looseText length => exact closed.looseText length
  | code => exact forward_steps.decodeCode
  | entry payload ih =>
    exact @Stepwise.decodeEntry _ forward_steps pool _ (fun kind length => (payload kind length).decode pool) ih
  | table item ih => exact @Stepwise.table _ forward_steps pool item item ih
  | nested inner ih => exact ih.nested
  | tooDeep limit => exact forward_still fun _ => rfl

end Forward

section Attributes

theorem told_decodeRest_known {payload : AttributeKind → Nat → Decoder Payload} {nameIndex : U2} {name : String}
    {length : U4} {kind : AttributeKind} (known : AttributeKind.ofName? name = some kind) (s : State) :
    (decodeRest payload nameIndex name length).told s = (payload kind length.toNat).told
      (s.recording (.decoding name length.toNat nameIndex.offset)) := by
  rw [Decoder.told, reached, decodeRest_known known, Decoder.told, reached]
  cases payload kind length.toNat (s.recording (.decoding name length.toNat nameIndex.offset)) with
  | error cause after => rfl
  | ok value after =>
    by_cases same : after.cursor.offset - s.cursor.offset = length.toNat
    · rw [settle, if_pos same]
    · rw [settle, if_neg same]

theorem told_decodeRest_unknown {payload : AttributeKind → Nat → Decoder Payload} {nameIndex : U2} {name : String}
    {length : U4} (unknown : AttributeKind.ofName? name = none) (s : State) :
    (decodeRest payload nameIndex name length).told s =
      s.trace.toList ++ [.skipping name length.toNat nameIndex.offset] := by
  have silent : (Decoder.skip length.toNat >>= fun _ =>
      pure (Attribute.mk nameIndex name length .unknown)).Silent :=
    silent_sequential.bind (silent_onCursor _) fun _ => silent_sequential.pure _
  have recorded : record (.skipping name length.toNat nameIndex.offset) s =
    .ok () (s.recording (.skipping name length.toNat nameIndex.offset)) := rfl
  rw [decodeRest_unknown unknown, told_bind_of_ok recorded, silent.told]
  exact Array.toList_push

theorem decodeEntries_add (entry : Decoder Attribute) (n m : Nat) (entries : List Attribute) :
    decodeEntries entry (n + m) entries = decodeEntries entry n entries >>= decodeEntries entry m := by
  induction n generalizing entries with
  | zero => rw [Nat.zero_add, decodeEntries, pure_bind]
  | succ n ih =>
    rw [Nat.succ_add, decodeEntries, decodeEntries, bind_assoc]
    congr 1
    funext later
    simp only [ih]
    split
    next => rw [bind_assoc]
    next => rfl

theorem decodeEntries_forward {entry : Decoder Attribute} (each : entry.Forward) (n : Nat)
    (entries : List Attribute) : (decodeEntries entry n entries).Forward :=
  @Stepwise.decodeEntries _ forward_steps entry entry each n entries

theorem decodeEntries_succ_forward {entry : Decoder Attribute} (each : entry.Forward) (n : Nat)
    (entries : List Attribute) (later : Attribute) : Forward (match entries.find? (·.name = later.name) with
      | some earlier => do
        record (.replaced earlier.name earlier.nameIndex.offset)
        decodeEntries entry n (Table.insert later entries)
      | none => decodeEntries entry n (Table.insert later entries)) := by
  have rest := decodeEntries_forward each n (Table.insert later entries)
  split
  next => exact forward_sequential.bind (forward_steps.record _ rfl) fun _ => rest
  next => exact rest

end Attributes

/-- While `outer` is decoded from a state, `inner` is begun in the state `within`. -/
inductive Enters (pool : Pool) {β : Type} (inner : Layout β) (within : State) :
    {α : Type} → Layout α → State → Prop where
  | here : Enters pool inner within inner within
  | first {α γ : Type} {first : Layout α} {second : Layout γ} {s : State} : Enters pool inner within first s →
    Enters pool inner within (.seq first second) s
  | second {α γ : Type} {first : Layout α} {second : Layout γ} {s middle : State} {value : α} :
    first.decode pool s = .ok value middle → Enters pool inner within second middle →
      Enters pool inner within (.seq first second) s
  | parts {α γ : Type} (shape : Shape α γ) {parts : Layout α} {s : State} : Enters pool inner within parts s →
    Enters pool inner within (.as shape parts) s
  | item {α : Type} {item : Layout α} {n : Nat} {s : State} : Enters pool inner within item s →
    Enters pool inner within (.times (n + 1) item) s
  | later {α : Type} {item : Layout α} {n : Nat} {s middle : State} {value : α} :
    item.decode pool s = .ok value middle → Enters pool inner within (.times n item) middle →
      Enters pool inner within (.times (n + 1) item) s
  | counted {κ α : Type} {width : Word κ} {item : Layout α} {s middle : State} {count : Scalar κ} :
    @Decoder.read _ width s = .ok count middle →
      Enters pool inner within (.times (width.toNat count.value) item) middle →
        Enters pool inner within (.counted width item) s
  | tagged {κ α : Type} {tagging : Tagging κ} {body : κ → Layout α} {s middle : State} {tag : U1} {kind : κ} :
    Decoder.read s = .ok tag middle → tagging.ofByte? tag.value = some kind →
      Enters pool inner within (body kind) middle → Enters pool inner within (.tagged tagging body) s
  | payload {payload : AttributeKind → Nat → Layout Payload} {s middle : State} {nameIndex : U2} {name : String}
    {length : U4} {kind : AttributeKind} : decodeHead pool s = .ok (nameIndex, name, length) middle →
      AttributeKind.ofName? name = some kind →
        Enters pool inner within (payload kind length.toNat)
          (middle.recording (.decoding name length.toNat nameIndex.offset)) →
            Enters pool inner within (.entry payload) s
  /-- An attribute is begun when those before it are all decoded and what they overwrite is told. -/
  | row {item : Layout Attribute} {s middle reached : State} {count : U2} {n : Nat} {entries : List Attribute} :
    Decoder.read s = .ok count middle → n < count.toNat →
      decodeEntries (item.decode pool) n [] middle = .ok entries reached →
        Enters pool inner within item reached → Enters pool inner within (.table item) s
  | nested {α : Type} {contents : Layout α} {s : State} : Enters pool inner within contents s.opened →
    Enters pool inner within (.nested contents) s

namespace Enters

variable {pool : Pool} {β : Type} {inner : Layout β} {within : State}

theorem trans {γ : Type} {between : Layout γ} {middle : State} (deeper : inner.Enters pool within between middle)
    {outer : Layout α} {s : State} (enters : between.Enters pool middle outer s) :
    inner.Enters pool within outer s := by
  induction enters with
  | here => exact deeper
  | first _ ih => exact .first ih
  | second run _ ih => exact .second run ih
  | parts shape _ ih => exact .parts shape ih
  | item _ ih => exact .item ih
  | later run _ ih => exact .later run ih
  | counted run _ ih => exact .counted run ih
  | tagged run known _ ih => exact .tagged run known ih
  | payload head known _ ih => exact .payload head known ih
  | row run more before _ ih => exact .row run more before ih
  | nested _ ih => exact .nested ih

/-- What is told by the end of something that a run comes to is told by the end of the run. -/
theorem told {outer : Layout α} {s : State} (enters : inner.Enters pool within outer s) :
    (inner.decode pool).told within <+: (outer.decode pool).told s := by
  have steps := forward_sequential
  induction enters with
  | here => exact List.prefix_refl _
  | @first _ _ first second s _ ih =>
    exact ih.trans (told_bind (fun _ => steps.bind (second.decode_forward pool) fun _ => steps.pure _) s)
  | second run _ ih =>
    rw [decode, told_bind_of_ok run]
    exact ih.trans (told_bind (fun _ => steps.pure _) _)
  | @parts _ _ shape parts s _ ih => exact ih.trans (told_bind (fun _ => steps.pure _) s)
  | @item _ item n s _ ih =>
    exact ih.trans (told_bind (fun _ => steps.timesFrom (item.decode_forward pool) n _) s)
  | later run _ ih =>
    rw [decode, told_times_succ run]
    exact ih
  | counted run _ ih =>
    rw [decode, told_bind_of_ok run]
    exact ih.trans (told_bind (fun _ => steps.pure _) _)
  | tagged run known _ ih =>
    simp only [decode]
    rw [told_bind_of_ok run, known]
    exact ih.trans (told_bind (fun _ => steps.pure _) _)
  | payload head known _ ih =>
    rw [decode, decodeEntry_eq, told_bind_of_ok head, told_decodeRest_known known]
    exact ih
  | @row item s middle reached count n entries run more before _ ih =>
    have all : count.toNat = n + (count.toNat - n - 1 + 1) := by omega
    rw [decode, told_bind_of_ok run, all]
    refine ih.trans ((?_ : _ <+: _).trans (told_bind (fun _ => steps.pure _) _))
    rw [decodeEntries_add, told_bind_of_ok before]
    exact told_bind (decodeEntries_succ_forward (item.decode_forward pool) _ entries) reached
  | nested _ ih => exact ih.trans (told_nested _ _)

/-- What fails while another is decoded makes that fail with the same complaint. -/
theorem failed {outer : Layout α} {s : State} (enters : inner.Enters pool within outer s) {cause : Error}
    {after : State} (here : inner.decode pool within = .error cause after) :
    ∃ final, outer.decode pool s = .error cause final := by
  induction enters with
  | here => exact ⟨after, here⟩
  | first _ ih | parts _ _ ih | item _ ih =>
    obtain ⟨final, early⟩ := ih
    exact ⟨final, bind_of_error early⟩
  | second run _ ih | counted run _ ih =>
    obtain ⟨final, late⟩ := ih
    exact ⟨final, (bind_of_ok run).trans (bind_of_error late)⟩
  | later run _ ih =>
    obtain ⟨final, late⟩ := ih
    refine ⟨final, ?_⟩
    rw [decode, times_succ, bind_of_ok run]
    exact bind_of_error late
  | tagged run known _ ih =>
    obtain ⟨final, late⟩ := ih
    refine ⟨final, ?_⟩
    rw [decode, bind_of_ok run]
    simp only [known]
    exact bind_of_error late
  | payload head known _ ih =>
    obtain ⟨final, late⟩ := ih
    refine ⟨final, ?_⟩
    rw [decode, decodeEntry_eq, bind_of_ok head, decodeRest_known known, late]
    rfl
  | @row item s middle reached count n entries run more before _ ih =>
    obtain ⟨final, late⟩ := ih
    have all : count.toNat = n + (count.toNat - n - 1 + 1) := by omega
    have rows : decodeEntries (item.decode pool) count.toNat [] middle = .error cause final := by
      rw [all, decodeEntries_add, bind_of_ok before]
      exact bind_of_error late
    exact ⟨final, (bind_of_ok run).trans (bind_of_error rows)⟩
  | nested _ ih =>
    obtain ⟨final, inside⟩ := ih
    refine ⟨final.closed, ?_⟩
    rw [decode, nested_apply, inside]
    rfl

end Enters

section Heads

variable {pool : Pool} {s middle : State} {nameIndex : U2} {name : String} {length : U4}

theorem decodeHead_quiet (pool : Pool) : (decodeHead pool).Silent :=
  silent_sequential.bind silent_sequential.read fun _ => silent_sequential.bind (silent_sequential.demand _)
    fun _ => silent_sequential.bind silent_sequential.read fun _ => silent_sequential.pure _

theorem decodeHead_forward (pool : Pool) : (decodeHead pool).Forward :=
  forward_sequential.bind forward_sequential.read fun _ => forward_sequential.bind (forward_sequential.demand _)
    fun _ => forward_sequential.bind forward_sequential.read fun _ => forward_sequential.pure _

/-- What is told first of an attribute, before anything that lies in it. -/
theorem told_entry {payload : AttributeKind → Nat → Layout Payload}
    (head : decodeHead pool s = .ok (nameIndex, name, length) middle) :
    s.trace.toList ++ [.headline name length.toNat nameIndex.offset] <+: ((entry payload).decode pool).told s := by
  rw [decode, decodeEntry_eq, told_bind_of_ok head, ← (decodeHead_quiet pool).trace head]
  cases known : AttributeKind.ofName? name with
  | some kind =>
    rw [told_decodeRest_known known, Event.headline_of_known known, ← Array.toList_push]
    exact ((payload kind length.toNat).decode_forward pool).told
      (middle.recording (.decoding name length.toNat nameIndex.offset))
  | none => simp only [told_decodeRest_unknown known, Event.headline_of_unknown known, List.prefix_refl]

/-- The instructions of a code array, with its length and where it starts. -/
def fetchCode : Decoder (U4 × Nat × Array Instruction) := do
  let length : U4 ← read
  let base ← offset
  let bytes ← take length.toNat
  let instructions ← demand (Instruction.decodeAll length.toNat base bytes)
  return (length, base, instructions)

theorem decodeCode_eq : decodeCode = fetchCode >>= fun (length, base, instructions) => do
    record (.codeDecoded instructions.size length.toNat base)
    return (length, instructions) := by
  simp only [decodeCode, fetchCode, bind_assoc, pure_bind]

theorem fetchCode_silent : fetchCode.Silent :=
  silent_sequential.bind silent_sequential.read fun _ => silent_sequential.bind silent_offset fun _ =>
    silent_sequential.bind (silent_sequential.take _) fun _ =>
      silent_sequential.bind (silent_sequential.demand _) fun _ => silent_sequential.pure _

theorem fetchCode_place {base : Nat} {instructions : Array Instruction}
    (run : fetchCode s = .ok (length, base, instructions) middle) :
    length.offset = s.cursor.offset ∧ base = s.cursor.offset + 4 ∧ base ≤ middle.cursor.offset := by
  obtain ⟨_, one, first, rest⟩ := bind_eq_ok.mp run
  obtain ⟨place, behind⟩ := offset_read first
  obtain ⟨_, _, here, rest⟩ := bind_eq_ok.mp rest
  cases here
  obtain ⟨bytes, two, taken, rest⟩ := bind_eq_ok.mp rest
  obtain ⟨_, three, checked, rest⟩ := bind_eq_ok.mp rest
  cases rest
  have onward := (forward_sequential.take _).offset_of_ok taken
  have still := (forward_sequential.demand _).offset_of_ok checked
  exact ⟨place, behind, Nat.le_trans onward still⟩

theorem trace_decodeCode {code : U4 × Array Instruction} (run : decodeCode s = .ok code middle) :
    middle.trace = s.trace.push (.codeDecoded code.2.size code.1.toNat (code.1.offset + 4)) := by
  rw [decodeCode_eq] at run
  obtain ⟨⟨length, base, instructions⟩, fetched, fetch, rest⟩ := bind_eq_ok.mp run
  obtain ⟨place, rfl, -⟩ := fetchCode_place fetch
  rw [← place] at rest
  rw [← fetchCode_silent.trace fetch]
  cases rest
  rfl

/-- The instructions begin behind their length and have all been passed when they are told of. -/
theorem decodeCode_place {code : U4 × Array Instruction} (run : decodeCode s = .ok code middle) :
    code.1.offset = s.cursor.offset ∧ s.cursor.offset + 4 ≤ middle.cursor.offset := by
  rw [decodeCode_eq] at run
  obtain ⟨⟨length, base, instructions⟩, fetched, fetch, rest⟩ := bind_eq_ok.mp run
  obtain ⟨place, rfl, inside⟩ := fetchCode_place fetch
  cases rest
  exact ⟨place, inside⟩

theorem trace_decodeCode_of_error {cause : Error} (run : decodeCode s = .error cause middle) :
    middle.trace = s.trace := by
  rw [decodeCode_eq] at run
  cases fetch : fetchCode s with
  | error found fetched =>
    cases run.symm.trans (bind_of_error fetch)
    exact fetchCode_silent.trace_of_error fetch
  | ok found fetched => cases run.symm.trans (bind_of_ok fetch)

/-- What a code attribute begins with, up to its last instruction. -/
def codeFront : Layout (U2 × U2 × U4 × Array Instruction) := .seq .u2 (.seq .u2 .code)

theorem codeFront_eq_ok {front : U2 × U2 × U4 × Array Instruction} {after : State} :
    codeFront.decode pool s = .ok front after ↔ ∃ one two, Layout.u2.decode pool s = .ok front.1 one ∧
      Layout.u2.decode pool one = .ok front.2.1 two ∧ Layout.code.decode pool two = .ok front.2.2 after := by
  constructor
  · intro run
    obtain ⟨maxStack, one, first, rest⟩ := bind_eq_ok.mp run
    obtain ⟨tail, three, rest, ended⟩ := bind_eq_ok.mp rest
    cases ended
    obtain ⟨maxLocals, two, second, rest⟩ := bind_eq_ok.mp rest
    obtain ⟨code, _, third, ended⟩ := bind_eq_ok.mp rest
    cases ended
    exact ⟨one, two, first, second, third⟩
  · rintro ⟨one, two, first, second, third⟩
    exact bind_eq_ok.mpr ⟨_, _, first, bind_eq_ok.mpr ⟨_, _, bind_eq_ok.mpr ⟨_, _, second,
      bind_eq_ok.mpr ⟨_, _, third, rfl⟩⟩, rfl⟩⟩

/-- What is told next of a code attribute whose instructions have been decoded. -/
theorem told_code {element : Layout Element} {attributes : Layout Table} {front : U2 × U2 × U4 × Array Instruction}
    {after : State} (head : decodeHead pool s = .ok (nameIndex, name, length) middle)
    (known : AttributeKind.ofName? name = some .code)
    (run : codeFront.decode pool (middle.recording (.decoding name length.toNat nameIndex.offset)) =
      .ok front after) :
    s.trace.toList ++ [.headline name length.toNat nameIndex.offset,
        .codeDecoded front.2.2.2.size front.2.2.1.toNat (front.2.2.1.offset + 4)] <+:
      ((Attribute.layoutWith element attributes).decode pool).told s := by
  obtain ⟨one, two, first, second, third⟩ := codeFront_eq_ok.mp run
  have enters : Enters pool .code two (Attribute.layoutWith element attributes) s :=
    .payload head known (.parts _ (.parts _ (.second first (.second second (.first .here)))))
  have recorded : two.trace = s.trace.push (.decoding name length.toNat nameIndex.offset) := by
    rw [silent_sequential.read.trace second, silent_sequential.read.trace first, State.recording,
      (decodeHead_quiet pool).trace head]
  have told := enters.told
  rw [told_of_ok third, trace_decodeCode third, recorded, Array.toList_push, Array.toList_push,
    List.append_assoc] at told
  rw [Event.headline_of_known known]
  exact told

end Heads

end Layout
end ClassFormat
