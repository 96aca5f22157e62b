import ClassFormat.Proofs.Delimiting
import ClassFormat.Proofs.Nesting
import ClassFormat.Proofs.Relocating
import ClassFormat.Proofs.Standing

/-! The lengths that attributes declare. A payload is decoded without regard to its declared length, so
the one length that is accepted is the one that was found, and any other is complained about at the
attribute that declares it. -/
namespace ClassFormat

namespace Event

/-- Whether a place lies where the attribute at an offset, or one around it, declares its length. -/
def Adjustable (events : List Event) (offset place : Nat) : Prop :=
  ∃ name length start, decoding name length start ∈ events ∧ start ≤ offset ∧
    offset < start + 6 + length ∧ start + 2 ≤ place ∧ place < start + 6

/-- Whether all attributes that are met lie between two places. -/
def Between (first last : Nat) (events : List Event) : Prop :=
  ∀ name length start, decoding name length start ∈ events → first ≤ start ∧ start + 6 + length ≤ last

variable {first last offset place : Nat} {events early late : List Event}

theorem adjustable_append : Adjustable (early ++ late) offset place ↔
    Adjustable early offset place ∨ Adjustable late offset place := by
  constructor
  · rintro ⟨name, length, start, member, there⟩
    rcases List.mem_append.mp member with member | member
    · exact .inl ⟨name, length, start, member, there⟩
    · exact .inr ⟨name, length, start, member, there⟩
  · rintro (⟨name, length, start, member, there⟩ | ⟨name, length, start, member, there⟩)
    · exact ⟨name, length, start, List.mem_append_left late member, there⟩
    · exact ⟨name, length, start, List.mem_append_right early member, there⟩

theorem Between.append {middle : Nat} (head : Between first middle early)
    (tail : Between middle last late) (forth : first ≤ middle) (further : middle ≤ last) :
    Between first last (early ++ late) := by
  intro name length start member
  rcases List.mem_append.mp member with member | member
  · have inside := head name length start member
    omega
  · have inside := tail name length start member
    omega

/-- Attributes around a place start before it. -/
theorem Between.not_adjustable_before (between : Between first last events) (before : offset < first) :
    ¬ Adjustable events offset place := by
  rintro ⟨name, length, start, member, around, -⟩
  have inside := between name length start member
  omega

/-- Attributes around a place stop behind it. -/
theorem Between.not_adjustable_behind (between : Between first last events) (behind : last ≤ offset) :
    ¬ Adjustable events offset place := by
  rintro ⟨name, length, start, member, -, around, -⟩
  have inside := between name length start member
  omega

theorem Between.le_of_adjustable (between : Between first last events)
    (adjustable : Adjustable events offset place) : first + 2 ≤ place := by
  obtain ⟨name, length, start, member, -, -, front, -⟩ := adjustable
  have inside := between name length start member
  omega

/-- The borders of a level of nesting are no attributes. -/
theorem decoding_of_level {name : String} {length start opening : Nat}
    (member : decoding name length start ∈ opened opening :: (events ++ [closed])) :
    decoding name length start ∈ events := by
  simpa using member

end Event

/-- An attribute with a fixed size in a file, and another file in which it declares another size. -/
structure Change where
  bytes : Bytes
  others : Bytes
  name : String
  length : Nat
  offset : Nat
  declared : UInt32
  fixed : name ≠ "SourceDebugExtension"
  different : declared.toNat ≠ length
  spelt : Word.toBytes declared <+: others.drop (offset + 2)

namespace Change

variable (change : Change)

def event : Event := .decoding change.name change.length change.offset

def complaint : Error := .attributeLength change.name change.declared.toNat change.length

/-- Whether from a place on the files differ in nothing but lengths that are declared around the
attribute. -/
def Limited (first : Nat) (events : List Event) : Prop := ∀ place, first ≤ place →
  ¬ Event.Adjustable events change.offset place → change.others[place]? = change.bytes[place]?

section Limited

variable {change : Change} {place size last : Nat} {name : String} {inner : List Event}
  (limited : change.Limited place (.decoding name size place :: inner))
include limited

/-- Behind its length an attribute may only differ where attributes that it holds declare theirs. -/
theorem Limited.payload : change.Limited (place + 6) inner := by
  intro i front fixed
  refine limited i (by omega) ?_
  rintro ⟨found, size, start, met, around, within, first, last⟩
  rcases List.mem_cons.mp met with same | deeper
  · cases same
    omega
  · exact fixed ⟨found, size, start, deeper, around, within, first, last⟩

/-- The name of an attribute stands before its own length and all that it holds. -/
theorem Limited.same_name (inside : Event.Between (place + 6) last inner) {i : Nat} (front : place ≤ i)
    (back : i < place + 2) : change.others[i]? = change.bytes[i]? := by
  refine limited i front ?_
  rintro ⟨found, size, start, met, -, -, first, -⟩
  rcases List.mem_cons.mp met with same | deeper
  · cases same
    omega
  · have far := (inside _ _ _ deeper).1
    omega

omit limited

variable {stop : Nat} {early late : List Event} (both : change.Limited place (early ++ late))
include both

/-- Before the changed attribute nothing that lies behind it counts. -/
theorem Limited.before (behind : Event.Between stop last late) (before : change.offset < stop) :
    change.Limited place early := by
  intro i front fixed
  refine both i front fun adjustable => ?_
  rcases Event.adjustable_append.mp adjustable with here | there
  · exact fixed here
  · exact behind.not_adjustable_before before there

/-- What stops before the changed attribute is the same in both files. -/
theorem Limited.same_before (inside : Event.Between place stop early) (behind : Event.Between stop last late)
    (beyond : stop ≤ change.offset) {i : Nat} (front : place ≤ i) (back : i < stop) :
    change.others[i]? = change.bytes[i]? := by
  refine both i front fun adjustable => ?_
  rcases Event.adjustable_append.mp adjustable with here | there
  · exact inside.not_adjustable_behind beyond here
  · have far := behind.le_of_adjustable there
    omega

theorem Limited.behind (inside : Event.Between place stop early) (beyond : stop ≤ change.offset)
    (forth : place ≤ stop) : change.Limited stop late := by
  intro i front fixed
  refine both i (Nat.le_trans forth front) fun adjustable => ?_
  rcases Event.adjustable_append.mp adjustable with here | there
  · exact inside.not_adjustable_behind beyond here
  · exact fixed there

end Limited
end Change

namespace Decoder

/-- Whether a decoder that meets the attribute in the one file complains about it in the other. -/
structure Tracks (change : Change) (decoder : Decoder α) : Prop where
  reads : ∃ writes, decoder.Reads writes
  between : ∀ s value after, decoder s = .ok value after → ∃ later,
    after.trace.toList = s.trace.toList ++ later ∧
      Event.Between s.cursor.offset after.cursor.offset later
  caught : ∀ place trace other value after later,
    decoder ⟨.placed change.bytes place, trace⟩ = .ok value after →
    after.trace.toList = trace.toList ++ later → change.event ∈ later → change.Limited place later →
      ∃ final, decoder ⟨.placed change.others place, other⟩ = .error change.complaint final

section Tracks

variable {change : Change}

/-- Where no attribute is met there is nothing to complain about. -/
theorem tracks_of_none {decoder : Decoder α} {writes : Grammar α} (reads : decoder.Reads writes)
    (none : decoder.Records fun later => ∀ name length start, Event.decoding name length start ∉ later) :
    decoder.Tracks change where
  reads := ⟨writes, reads⟩
  between s value after run := by
    obtain ⟨later, recorded, other⟩ := none s value after run
    exact ⟨later, recorded, fun name length start member => absurd member (other name length start)⟩
  caught place trace other value after later run recorded member := by
    obtain ⟨found, same, silent⟩ := none _ value after run
    obtain rfl := List.append_cancel_left (recorded.symm.trans same)
    exact absurd member (silent _ _ _)

theorem additive_unmet :
    Additive fun later => ∀ name length start, Event.decoding name length start ∉ later where
  nil _ _ _ member := by cases member
  append head tail name length start member := by
    rcases List.mem_append.mp member with member | member
    · exact head name length start member
    · exact tail name length start member

theorem tracks_record {event : Event} (other : ∀ name length start, event ≠ .decoding name length start) :
    (record event).Tracks change := by
  refine tracks_of_none (.record event) (records_record fun name length start member => ?_)
  exact other name length start (List.mem_singleton.mp member).symm

theorem Tracks.bind {first : Decoder α} {next : α → Decoder β} (starts : first.Tracks change)
    (goes : ∀ value, (next value).Tracks change) : (first >>= next).Tracks change where
  reads := by
    obtain ⟨head, reads⟩ := starts.reads
    obtain ⟨tail, others⟩ := Classical.skolem.mp fun value => (goes value).reads
    exact ⟨_, reads.bind others⟩
  between s value after run := by
    obtain ⟨part, middle, head, tail⟩ := bind_eq_ok.mp run
    obtain ⟨early, recorded, inside⟩ := starts.between s part middle head
    obtain ⟨late, added, behind⟩ := (goes part).between middle value after tail
    obtain ⟨_, reads⟩ := starts.reads
    obtain ⟨_, others⟩ := (goes part).reads
    obtain ⟨_, forth, -⟩ := reads.sound head
    obtain ⟨_, further, -⟩ := others.sound tail
    have here := forth.offset
    have there := further.offset
    refine ⟨early ++ late, ?_, inside.append behind (by omega) (by omega)⟩
    rw [added, recorded, List.append_assoc]
  caught place trace other value after later run recorded member limited := by
    obtain ⟨part, middle, head, tail⟩ := bind_eq_ok.mp run
    obtain ⟨early, told, inside⟩ := starts.between _ part middle head
    obtain ⟨late, added, behind⟩ := (goes part).between middle value after tail
    obtain ⟨_, reads⟩ := starts.reads
    obtain ⟨forth, reached⟩ := reads.placed head
    have all : later = early ++ late := by
      rw [added, told, List.append_assoc] at recorded
      exact (List.append_cancel_left recorded).symm
    subst all
    change Event.Between (Cursor.placed change.bytes place).offset _ early at inside
    rw [Cursor.offset_placed] at inside
    rcases List.mem_append.mp member with member | member
    · -- All that may differ lies in what the first part has met.
      have before := (inside _ _ _ member).2
      have alike := limited.before behind (by omega)
      obtain ⟨final, failed⟩ := starts.caught place trace other part middle early head told member alike
      exact ⟨final, bind_of_error failed⟩
    · -- The first part is as it was, since nothing that may differ lies in it.
      have beyond := (behind _ _ _ member).1
      have same : ∀ i, place ≤ i → i < middle.cursor.offset → change.others[i]? = change.bytes[i]? :=
        fun _ => limited.same_before inside behind beyond
      obtain ⟨noted, again⟩ := reads.agree head same other
      have onward : next part ⟨.placed change.bytes middle.cursor.offset, middle.trace⟩ = .ok value after := by
        rw [← reached]
        exact tail
      obtain ⟨final, failed⟩ := (goes part).caught _ _ noted value after late onward added member
        (limited.behind inside beyond forth)
      exact ⟨final, (bind_of_ok again).trans failed⟩

theorem tracks_sequential (change : Change) : Sequential fun _ decoder => decoder.Tracks change where
  pure value := tracks_of_none (.pure value) (additive_unmet.pure value)
  throw _ cause := tracks_of_none (.throw cause) (records_throw cause)
  bind := Tracks.bind
  read := tracks_of_none .read (additive_unmet.onCursor _)
  take n := tracks_of_none (.take n) (additive_unmet.onCursor _)

theorem tracks_offset : Decoder.offset.Tracks change :=
  tracks_of_none .offset additive_unmet.offset

theorem Tracks.nested {decoder : Decoder α} (inner : decoder.Tracks change) :
    (Decoder.nested decoder).Tracks change where
  reads := by
    obtain ⟨writes, reads⟩ := inner.reads
    exact ⟨writes, reads.nested⟩
  between s value after run := by
    obtain ⟨middle, ran, rfl⟩ := nested_eq_ok.mp run
    obtain ⟨later, recorded, inside⟩ := inner.between s.opened value middle ran
    refine ⟨_, trace_of_level recorded, fun name length start member => ?_⟩
    exact inside name length start (Event.decoding_of_level member)
  caught place trace other value after later run recorded member limited := by
    obtain ⟨middle, ran, rfl⟩ := nested_eq_ok.mp run
    obtain ⟨found, told, -⟩ := inner.between _ value middle ran
    have all := recorded.symm.trans (trace_of_level told)
    obtain rfl := List.append_cancel_left all
    have alike : change.Limited place found := fun i front fixed =>
      limited i front fun ⟨name, length, start, met, there⟩ =>
        fixed ⟨name, length, start, Event.decoding_of_level met, there⟩
    obtain ⟨final, failed⟩ := inner.caught place _ (other.push (.opened place)) value middle found ran told
      (Event.decoding_of_level member) alike
    refine ⟨final.closed, ?_⟩
    have opened : State.opened ⟨.placed change.others place, other⟩ =
        ⟨.placed change.others place, other.push (.opened place)⟩ := by
      rw [State.opened, Cursor.offset_placed]
    rw [nested_apply, opened, failed]
    rfl

section Entries

variable {pool : Pool} {payload : AttributeKind → Nat → Decoder Payload}

/-- The name of an attribute stays when its length is changed. -/
theorem decodeHead_redeclared {bytes others : Bytes} {place : Nat} {trace : Array Event} {middle : State}
    {nameIndex : U2} {name : String} {length : U4}
    (run : Layout.decodeHead pool ⟨.placed bytes place, trace⟩ = .ok (nameIndex, name, length) middle)
    (same : ∀ i, place ≤ i → i < place + 2 → others[i]? = bytes[i]?) {declared : UInt32}
    (spelt : Word.toBytes declared <+: others.drop (place + 2)) (other : Array Event) :
    ∃ recorded, Layout.decodeHead pool ⟨.placed others place, other⟩ =
      .ok (nameIndex, name, ⟨declared, place + 2⟩) ⟨.placed others (place + 6), recorded⟩ := by
  obtain ⟨passed, moved, here, -, rfl, named⟩ := (Layout.decodeHead_reads pool).sound run
  obtain ⟨between, first, -⟩ := moved.split
  obtain ⟨-, rest, whole⟩ := Cursor.passes_placed.mp (first.agree (by simpa using same))
  have written : Layout.Heads pool (Cursor.placed others place).offset
      (nameIndex, name, ⟨declared, place + 2⟩)
      (Word.toBytes nameIndex.value ++ Word.toBytes declared) := by
    refine ⟨?_, ?_, rfl, named⟩
    · rw [Cursor.offset_placed]
      exact here.trans (Cursor.offset_placed bytes place)
    · rw [Cursor.offset_placed]
  have front : Word.toBytes nameIndex.value ++ Word.toBytes declared <+: others.drop place := by
    obtain ⟨more, behind⟩ := spelt
    refine ⟨more, ?_⟩
    have two : (Word.toBytes nameIndex.value).length = 2 := Word.length_toBytes _
    rw [← List.drop_drop, ← whole, List.drop_left' two] at behind
    rw [List.append_assoc, behind, whole]
  have passes := Cursor.passes_placed.mpr ⟨rfl, front⟩
  have size : (Word.toBytes nameIndex.value ++ Word.toBytes declared).length = 6 := written.length
  rw [size] at passes
  exact (Layout.decodeHead_reads pool).complete written passes other

/-- With another length an attribute of a known kind is decoded as before up to its payload. -/
theorem decodeEntry_redeclared {bytes others : Bytes} {place : Nat} {trace : Array Event} {middle : State}
    {nameIndex : U2} {name : String} {length : U4} {kind : AttributeKind}
    (run : Layout.decodeHead pool ⟨.placed bytes place, trace⟩ = .ok (nameIndex, name, length) middle)
    (same : ∀ i, place ≤ i → i < place + 2 → others[i]? = bytes[i]?)
    (known : AttributeKind.ofName? name = some kind) {declared : UInt32}
    (spelt : Word.toBytes declared <+: others.drop (place + 2)) (other : Array Event) :
    ∃ noted, Layout.decodeEntry pool payload ⟨.placed others place, other⟩ =
      Layout.settle nameIndex name ⟨declared, place + 2⟩ (place + 6)
        (payload kind declared.toNat ⟨.placed others (place + 6), noted⟩) := by
  obtain ⟨recorded, head⟩ := decodeHead_redeclared run same spelt other
  refine ⟨recorded.push (.decoding name declared.toNat nameIndex.offset), ?_⟩
  rw [Layout.decodeEntry_eq, bind_of_ok head, Layout.decodeRest_known known, Cursor.offset_placed]
  rfl

theorem between_entry (each : ∀ kind length, (payload kind length).Tracks change) {s after : State}
    {item : Attribute} (run : Layout.decodeEntry pool payload s = .ok item after) :
    ∃ later, after.trace.toList = s.trace.toList ++ later ∧
      Event.Between s.cursor.offset after.cursor.offset later := by
  obtain ⟨nameIndex, name, length, middle, head, cases⟩ := Layout.decodeEntry_cases run
  obtain ⟨passed, moved, written⟩ := (Layout.decodeHead_reads pool).sound head
  have silent := trace_of_records (Layout.decodeHead_silent pool) head
  have far := moved.offset
  rw [written.length] at far
  rcases cases with ⟨kind, value, known, ran, size⟩ | ⟨unknown, told⟩
  · obtain ⟨later, recorded, inside⟩ := (each kind _).between _ value after ran
    obtain ⟨_, reads⟩ := (each kind length.toNat).reads
    obtain ⟨_, further, -⟩ := reads.sound ran
    have behind := further.offset
    change after.cursor.offset = middle.cursor.offset + _ at behind
    refine ⟨.decoding name length.toNat nameIndex.offset :: later, ?_, ?_⟩
    · rw [recorded, State.recording, silent, Array.toList_push, List.append_assoc]
      rfl
    · intro found size start member
      rcases List.mem_cons.mp member with same | member
      · cases same
        have place : nameIndex.offset = s.cursor.offset := written.1
        omega
      · have deeper := inside found size start member
        change middle.cursor.offset ≤ start ∧ _ at deeper
        omega
  · refine ⟨[.skipping name length.toNat nameIndex.offset], ?_, ?_⟩
    · rw [told, silent, Array.toList_push]
    · intro found size start member
      cases List.mem_singleton.mp member

section Caught

variable {place : Nat} {trace noted : Array Event} {nameIndex : U2} {name : String} {length : U4}
  {kind : AttributeKind} {middle after : State} {value : Payload} {inner : List Event}
  (each : ∀ kind length, (payload kind length).Tracks change)
  (fixed : ∀ kind, kind ≠ .sourceDebugExtension → ∀ one two, payload kind one = payload kind two)
  (head : Layout.decodeHead pool ⟨.placed change.bytes place, trace⟩ = .ok (nameIndex, name, length) middle)
  (known : AttributeKind.ofName? name = some kind)
  (ran : payload kind length.toNat ⟨.placed change.bytes (place + 6), noted⟩ = .ok value after)
  (inside : Event.Between (place + 6) after.cursor.offset inner)
  (limited : change.Limited place (.decoding name length.toNat place :: inner))
include each fixed head known ran inside limited

/-- The payload of the changed attribute is as long as ever, and that is not what is declared. -/
theorem caught_here (size : after.cursor.offset - (place + 6) = length.toNat)
    (here : change.event = .decoding name length.toNat place) (other : Array Event) :
    ∃ final, Layout.decodeEntry pool payload ⟨.placed change.others place, other⟩ =
      .error change.complaint final := by
  unfold Change.event at here
  injection here with called measured start
  have ordinary : kind ≠ .sourceDebugExtension := by
    rintro rfl
    exact change.fixed (called.trans (AttributeKind.name_of_ofName? known).symm)
  have spelt := change.spelt
  rw [start] at spelt
  obtain ⟨recorded, again⟩ := decodeEntry_redeclared head (fun _ => limited.same_name inside) known spelt other
  obtain ⟨_, reads⟩ := (each kind length.toNat).reads
  have untouched : ∀ i, place + 6 ≤ i → i < after.cursor.offset → change.others[i]? = change.bytes[i]? :=
    fun i front _ => limited.payload i front (inside.not_adjustable_before (by omega))
  obtain ⟨final, decoded⟩ := reads.agree ran untouched recorded
  have different : ¬ length.toNat = change.declared.toNat := by
    rw [← measured]
    exact change.different.symm
  refine ⟨⟨.placed change.others after.cursor.offset, final⟩, ?_⟩
  rw [again, fixed kind ordinary _ length.toNat, decoded, Layout.settle, Cursor.offset_placed, size,
    Change.complaint, called, measured]
  exact if_neg different

/-- Whatever the attributes around the changed one declare, their payloads are decoded. -/
theorem caught_deeper (loose : ∀ length, (payload .sourceDebugExtension length).Records fun later => later = [])
    (told : after.trace.toList = noted.toList ++ inner) (deeper : change.event ∈ inner) (other : Array Event) :
    ∃ final, Layout.decodeEntry pool payload ⟨.placed change.others place, other⟩ =
      .error change.complaint final := by
  have beyond := (inside _ _ _ deeper).1
  have ordinary : kind ≠ .sourceDebugExtension := by
    rintro rfl
    obtain ⟨found, same, rfl⟩ := loose length.toNat _ value after ran
    obtain rfl := List.append_cancel_left (told.symm.trans same)
    cases deeper
  have room : 4 ≤ change.others.length - (change.offset + 2) := by
    simpa using change.spelt.length_le
  have four : ((change.others.drop (place + 2)).take 4).length = 4 := by
    rw [List.length_take, List.length_drop]
    omega
  have spelt : Word.toBytes (Word.ofBytes ((change.others.drop (place + 2)).take 4) : UInt32) <+:
      change.others.drop (place + 2) := by
    rw [Word.toBytes_ofBytes _ four]
    exact List.take_prefix _ _
  obtain ⟨recorded, again⟩ := decodeEntry_redeclared head (fun _ => limited.same_name inside) known spelt other
  obtain ⟨final, failed⟩ := (each kind length.toNat).caught (place + 6) _ recorded value after inner ran told
    deeper limited.payload
  refine ⟨final, ?_⟩
  rw [again, fixed kind ordinary _ length.toNat, failed]
  rfl

end Caught

theorem tracks_entry (each : ∀ kind length, (payload kind length).Tracks change)
    (fixed : ∀ kind, kind ≠ .sourceDebugExtension → ∀ one two, payload kind one = payload kind two)
    (loose : ∀ length, (payload .sourceDebugExtension length).Records fun later => later = []) :
    (Layout.decodeEntry pool payload).Tracks change where
  reads := by
    obtain ⟨_, reads⟩ := Classical.skolem.mp fun kind => Classical.skolem.mp fun length =>
      (each kind length).reads
    exact ⟨_, Layout.decodeEntry_reads pool reads⟩
  between _ _ _ run := between_entry each run
  caught place trace other item after later run recorded member limited := by
    obtain ⟨nameIndex, name, length, middle, head, cases⟩ := Layout.decodeEntry_cases run
    obtain ⟨passed, moved, written⟩ := (Layout.decodeHead_reads pool).sound head
    have silent := trace_of_records (Layout.decodeHead_silent pool) head
    obtain ⟨reached, -⟩ := Cursor.passes_placed.mp moved
    rw [written.length] at reached
    have here : nameIndex.offset = place := written.1.trans (Cursor.offset_placed _ _)
    obtain ⟨cursor, noted⟩ := middle
    obtain rfl : cursor = .placed change.bytes (place + 6) := reached
    obtain rfl : noted = trace := silent
    rcases cases with ⟨kind, value, known, ran, size⟩ | ⟨unknown, told⟩
    · obtain ⟨inner, told, inside⟩ := (each kind _).between _ value after ran
      have all : later = .decoding name length.toNat nameIndex.offset :: inner := by
        rw [told, State.recording, Array.toList_push, List.append_assoc] at recorded
        exact (List.append_cancel_left recorded).symm
      change Event.Between (Cursor.placed change.bytes (place + 6)).offset _ inner at inside
      rw [Cursor.offset_placed] at inside size
      rw [all, here] at limited member
      rcases List.mem_cons.mp member with same | deeper
      · exact caught_here each fixed head known ran inside limited size same other
      · exact caught_deeper each fixed head known ran inside limited loose told deeper other
    · rw [told, Array.toList_push] at recorded
      obtain rfl := List.append_cancel_left recorded
      cases List.mem_singleton.mp member

theorem tracks_entries {entry : Decoder Attribute} (each : entry.Tracks change) (n : Nat)
    (entries : List Attribute) : (Layout.decodeEntries entry n entries).Tracks change := by
  have steps := tracks_sequential change
  induction n generalizing entries with
  | zero => exact steps.pure entries
  | succ n ih =>
    refine each.bind fun later => ?_
    have rest := ih (Table.insert later entries)
    split
    next => exact Tracks.bind (tracks_record fun _ _ _ same => by cases same) fun _ => rest
    next => exact Tracks.bind (steps.pure ()) fun _ => rest

end Entries

/-- Only the length of text without a form of its own decides how much is read. -/
theorem payload_fixed {element : Layout Element} {attributes : Layout Table} {kind : AttributeKind}
    (ordinary : kind ≠ .sourceDebugExtension) (one two : Nat) :
    Payload.layout element attributes kind one = Payload.layout element attributes kind two := by
  cases kind with
  | sourceDebugExtension => exact absurd rfl ordinary
  | _ => rfl

theorem tracks_code (pool : Pool) : (Layout.code.decode pool).Tracks change := by
  have steps := tracks_sequential change
  exact steps.bind steps.read fun _ => steps.bind tracks_offset fun _ => steps.bind (steps.take _) fun _ =>
    steps.bind (steps.demand _) fun _ =>
      steps.bind (tracks_record fun _ _ _ same => by cases same) fun _ => steps.pure _

theorem tracks_attribute {pool : Pool} {element : Layout Element} {attributes : Layout Table}
    (values : (element.decode pool).Tracks change) (tables : (attributes.decode pool).Tracks change) :
    ((Layout.entry (Payload.layout element attributes)).decode pool).Tracks change := by
  have closed := (tracks_sequential change).closed pool True
  refine tracks_entry (closed.payloadOf (tracks_code pool) values tables)
    (fun kind ordinary one two => ?_) fun length => ?_
  · rw [payload_fixed ordinary one two]
  · exact (additive_none.sequential.closed pool True).as _
      ((additive_none.sequential.closed pool True).looseText length)

theorem tracks_layouts (change : Change) (pool : Pool) (limit : Nat) :
    Layout.Graded limit fun _ _ layout => (layout.decode pool).Tracks change where
  closed _ := (tracks_sequential change).closed pool True
  bottom _ := tracks_offset.bind fun _ => (tracks_sequential change).throw _ _
  across inner := inner.nested
  table values tables :=
    Tracks.bind (tracks_sequential change).read fun _ =>
      Tracks.bind (tracks_entries (tracks_attribute values tables) _ _) fun _ =>
        (tracks_sequential change).pure _

theorem tracks_contents (change : Change) (limit : Nat) : (ClassFile.contents limit).Tracks change := by
  have steps := tracks_sequential change
  have body (pool : Pool) := (tracks_layouts change pool limit).body limit
  refine steps.bind steps.read fun magic => ?_
  have rest := steps.bind steps.read fun minor : U2 => steps.bind steps.read fun major : U2 =>
    steps.bind steps.read fun poolCount : U2 => steps.bind (steps.decodePool poolCount.toNat) fun pool =>
      steps.bind tracks_offset fun place =>
        steps.bind (tracks_record fun _ _ _ (same : Event.poolDecoded pool.entries.length place = _) => by
          cases same) fun _ => steps.bind (body pool) fun body =>
            steps.pure ({ body with magic, minor, major, poolCount, pool } : ClassFile)
  by_cases right : magic.value = ClassFile.magicNumber
  · simp only [right, ne_eq, not_true_eq_false, ↓reduceIte]
    exact rest
  · simp only [right, ne_eq, not_false_eq_true, ↓reduceIte]
    exact steps.bind (steps.throw Unit _) fun _ => rest

end Tracks
end Decoder

/-- Whatever length an attribute declares, it is passed by that length behind its head. -/
theorem Attribute.length_of_writes {pool : Pool} {limit levels offset : Nat} {item : Attribute}
    {bytes : Bytes} (written : (Attribute.layout limit levels).Writes pool offset item bytes) :
    bytes.length = 6 + item.length.toNat := by
  cases levels with
  | zero | succ =>
    obtain ⟨content, -, -, rfl, -, size, -⟩ := written
    simp only [List.length_append, Word.length_toBytes, Word.width_u2, Word.width_u4, size]
    omega

namespace ClassFile

open Decoder

/-- How the lengths declared in a file are bound to what is decoded there; `events` are all that its
decoding has recorded. -/
structure Measured (bytes : Bytes) (events : List Event) : Prop where
  /-- Another length is complained about, whatever the attributes around declare. -/
  around : ∀ name length offset, .decoding name length offset ∈ events → name ≠ "SourceDebugExtension" →
    ∀ (others : Bytes) (declared : UInt32), declared.toNat ≠ length →
      Word.toBytes declared <+: others.drop (offset + 2) →
      (∀ place, ¬ Event.Adjustable events offset place → others[place]? = bytes[place]?) →
        decode others = .error (.attributeLength name declared.toNat length)
  /-- So it is if nothing else is changed. -/
  alone : ∀ name length offset, .decoding name length offset ∈ events → name ≠ "SourceDebugExtension" →
    ∀ declared : UInt32, declared.toNat ≠ length →
      decode (bytes.take (offset + 2) ++ (Word.toBytes declared ++ bytes.drop (offset + 6))) =
        .error (.attributeLength name declared.toNat length)

section Measured

variable {bytes : Bytes} {file : ClassFile} {after : State}

/-- All attributes are met by the contents, none by the end of the file. -/
theorem contents_of_run (decoded : run bytes = .ok file after) : ∃ found middle,
    contents maxNesting (start bytes) = .ok found middle ∧ ∀ name length offset,
      .decoding name length offset ∈ after.trace.toList ↔
        .decoding name length offset ∈ middle.trace.toList := by
  unfold run EStateM.run at decoded
  rw [decodeWithin_eq] at decoded
  obtain ⟨found, middle, ran, rest⟩ := bind_eq_ok.mp decoded
  obtain ⟨later, plain, recorded⟩ := finish_trace found middle
  rw [reached_of_ok rest] at recorded
  refine ⟨found, middle, ran, fun name length offset => ?_⟩
  rw [recorded, List.mem_append]
  rcases plain with rfl | ⟨_, _, _, _, rfl⟩ <;> simp

theorem decode_changed (decoded : run bytes = .ok file after) (change : Change)
    (same : change.bytes = bytes) (met : change.event ∈ after.trace.toList)
    (limited : ∀ place, ¬ Event.Adjustable after.trace.toList change.offset place →
      change.others[place]? = bytes[place]?) : decode change.others = .error change.complaint := by
  subst same
  obtain ⟨found, middle, ran, alike⟩ := contents_of_run decoded
  have inside : change.event ∈ middle.trace.toList := (alike _ _ _).mp met
  have fixed : change.Limited 0 middle.trace.toList := by
    intro place _ fixed
    refine limited place fun ⟨name, length, start, member, there⟩ => ?_
    exact fixed ⟨name, length, start, (alike _ _ _).mp member, there⟩
  obtain ⟨final, failed⟩ :=
    (tracks_contents change maxNesting).caught 0 #[] #[] found middle _ ran rfl inside fixed
  have start : start change.others = ⟨.placed change.others 0, #[]⟩ := rfl
  rw [decode_eq, start, failed]

/-- Attributes lie within their file. -/
theorem stop_le_of_met (decoded : run bytes = .ok file after) {name : String} {length offset : Nat}
    (met : .decoding name length offset ∈ after.trace.toList) : offset + 6 + length ≤ bytes.length := by
  obtain ⟨found, middle, ran, alike⟩ := contents_of_run decoded
  -- What is met in a file is the same for any change to it.
  let change : Change :=
    ⟨bytes, [0, 0, 0, 0, 0, 1], "", 0, 0, 1, by decide, by decide, ⟨[], rfl⟩⟩
  obtain ⟨later, recorded, inside⟩ := (tracks_contents change maxNesting).between _ found middle ran
  have listed := (alike _ _ _).mp met
  rw [recorded] at listed
  have stop := (inside _ _ _ listed).2
  have whole := contents_offset ran
  omega

theorem run_measured (decoded : run bytes = .ok file after) : Measured bytes after.trace.toList := by
  have around : ∀ name length offset, .decoding name length offset ∈ after.trace.toList →
      name ≠ "SourceDebugExtension" → ∀ (others : Bytes) (declared : UInt32), declared.toNat ≠ length →
      Word.toBytes declared <+: others.drop (offset + 2) →
      (∀ place, ¬ Event.Adjustable after.trace.toList offset place → others[place]? = bytes[place]?) →
        decode others = .error (.attributeLength name declared.toNat length) := by
    intro name length offset met ordinary others declared different spelt limited
    exact decode_changed decoded ⟨bytes, others, name, length, offset, declared, ordinary, different, spelt⟩
      rfl met limited
  refine ⟨around, fun name length offset met ordinary declared different => ?_⟩
  have room := stop_le_of_met decoded met
  have front : (bytes.take (offset + 2)).length = offset + 2 := List.length_take_of_le (by omega)
  refine around name length offset met ordinary _ declared different ?_ fun place fixed => ?_
  · rw [List.drop_left' front]
    exact List.prefix_append _ _
  · by_cases before : place < offset + 2
    · rw [List.getElem?_append_left (by omega), List.getElem?_take_of_lt before]
    · by_cases behind : offset + 6 ≤ place
      · have four : (Word.toBytes declared).length = 4 := Word.length_toBytes _
        rw [List.getElem?_append_right (by omega), List.getElem?_append_right (by omega),
          List.getElem?_drop]
        congr 1
        omega
      · refine absurd ⟨name, length, offset, met, ?_⟩ fixed
        omega

end Measured

/-- Of a known attribute exactly one length is accepted, and every attribute is as long as it says. -/
theorem decode_measured {bytes : Bytes} {file : ClassFile} {after : State}
    (decoded : run bytes = .ok file after) :
    Measured bytes after.trace.toList ∧
      ∀ (pool : Pool) (limit levels : Nat) (s reached : State) (item : Attribute),
        (Attribute.layout limit levels).decode pool s = .ok item reached →
          reached.cursor.offset = s.cursor.offset + (6 + item.length.toNat) := by
  refine ⟨run_measured decoded, fun pool limit levels s reached item run => ?_⟩
  obtain ⟨content, passed, written⟩ := (Layout.decode_reads pool _).sound run
  rw [passed.offset, Attribute.length_of_writes written]

/-- A class with a code attribute in which an empty attribute stands twice. -/
def nestedSample : Bytes :=
  [0xca, 0xfe, 0xba, 0xbe, 0, 0, 0, 52, 0, 5, 1, 0, 1, 0x43, 7, 0, 1, 1, 0, 4, 0x43, 0x6f, 0x64, 0x65] ++
  [1, 0, 9, 0x53, 0x79, 0x6e, 0x74, 0x68, 0x65, 0x74, 0x69, 0x63] ++
  [0, 0x21, 0, 2, 0, 0, 0, 0, 0, 0, 0, 0, 0, 1] ++
  [0, 3, 0, 0, 0, 25, 0, 0, 0, 0, 0, 0, 0, 1, 0xb1, 0, 0, 0, 2, 0, 4, 0, 0, 0, 0, 0, 4, 0, 0, 0, 0]

/-- The first of the two is replaced by the second, and yet its length is bound. -/
theorem decode_nestedSample : ∃ file after, run nestedSample = .ok file after ∧
    .decoding "Synthetic" 0 69 ∈ after.trace.toList ∧ Measured nestedSample after.trace.toList := by
  obtain ⟨file, decoded⟩ : ∃ file, decode nestedSample = .ok file := exists_of_isOk (by decide +kernel)
  have met : .decoding "Synthetic" 0 69 ∈
      ((decodeWithin maxNesting).reached (start nestedSample)).trace := by decide +kernel
  unfold decode at decoded
  cases ran : run nestedSample with
  | error cause after =>
    rw [ran] at decoded
    cases decoded
  | ok file after =>
    have ended : (decodeWithin maxNesting).reached (start nestedSample) = after := reached_of_ok ran
    rw [ended] at met
    exact ⟨file, after, rfl, Array.mem_toList_iff.mpr met, (decode_measured ran).1⟩

end ClassFile
end ClassFormat
