import ClassFormat.Proofs.Causes
import ClassFormat.Proofs.Delimiting
import ClassFormat.Proofs.Standing

/-! Decoders whose complaints are real. Each step complains only about bytes at its own place, and
what it has passed before is still there to be pointed at. -/
namespace ClassFormat

/-- Whether a cursor stands in a file. -/
def Cursor.In (cursor : Cursor) (bytes : Bytes) : Prop :=
  cursor = placed bytes cursor.offset ∧ cursor.offset ≤ bytes.length

/-- What is written at a place and what is written behind it are written there together. -/
theorem Bytes.prefix_append {bytes front back : Bytes} {place : Nat} (head : front <+: bytes.drop place)
    (tail : back <+: bytes.drop (place + front.length)) : front ++ back <+: bytes.drop place := by
  obtain ⟨rest, whole⟩ := head
  obtain ⟨more, behind⟩ := tail
  rw [← List.drop_drop, ← whole, List.drop_left] at behind
  exact ⟨more, by rw [← whole, ← behind, List.append_assoc]⟩

namespace Decoder

variable {bytes : Bytes} {s middle : State}

/-- What is passed in a file is found there. -/
theorem Reads.found {decoder : Decoder α} {writes : Grammar α} (reads : decoder.Reads writes)
    (standing : s.cursor.In bytes) {value : α} (run : decoder s = .ok value middle) :
    ∃ passed, passed <+: bytes.drop s.cursor.offset ∧ writes s.cursor.offset value passed ∧
      middle.cursor.offset = s.cursor.offset + passed.length ∧ middle.cursor.In bytes := by
  obtain ⟨passed, moved, written⟩ := reads.sound run
  have place := moved.offset
  rw [standing.1] at moved
  obtain ⟨reached, front⟩ := Cursor.passes_placed.mp moved
  have inside := front.length_le
  rw [List.length_drop] at inside
  have within := standing.2
  rw [← place] at reached
  exact ⟨passed, front, written, place, reached, by omega⟩

/-- Whether all complaints of a decoder that starts in a certain state are real. -/
def Grounded (bytes : Bytes) (decoder : Decoder α) (s : State) : Prop :=
  s.cursor.In bytes → ∀ cause after, decoder s = .error cause after → cause.Real bytes after.trace.toList

section Steps

theorem grounded_pure (value : α) : (Pure.pure value : Decoder α).Grounded bytes s := by
  intro standing cause after run
  cases run

theorem grounded_throw {cause : Error} (real : s.cursor.In bytes → cause.Real bytes s.trace.toList) :
    (throw cause : Decoder α).Grounded bytes s := by
  intro standing found after run
  cases run
  exact real standing

theorem Grounded.bind {first : Decoder α} {next : α → Decoder β} {writes : Grammar α}
    (reads : first.Reads writes) (starts : first.Grounded bytes s)
    (goes : ∀ value middle, first s = .ok value middle → (next value).Grounded bytes middle) :
    (first >>= next).Grounded bytes s := by
  intro standing cause after run
  cases ran : first s with
  | error found reached =>
    rw [bind_of_error ran] at run
    cases run
    exact starts standing cause after ran
  | ok value middle =>
    rw [bind_of_ok ran] at run
    obtain ⟨_, -, -, -, stays⟩ := reads.found standing ran
    exact goes value middle ran stays cause after run

theorem onCursor_eq_error {step : Cursor → Except Error α × Cursor} {cause : Error}
    (run : onCursor step s = .error cause middle) : ∃ cursor, step s.cursor = (.error cause, cursor) := by
  unfold onCursor at run
  split at run
  next => cases run
  next cause cursor moved =>
    cases run
    exact ⟨cursor, moved⟩

theorem grounded_read {κ : Type} [Word κ] : (read : Decoder (Scalar κ)).Grounded bytes s := by
  intro standing cause after run
  obtain ⟨cursor, failed⟩ := onCursor_eq_error run
  unfold Cursor.read at failed
  split at failed
  next => cases failed
  next =>
    cases failed
    trivial

theorem grounded_take (n : Nat) : (take n).Grounded bytes s := by
  intro standing cause after run
  obtain ⟨cursor, failed⟩ := onCursor_eq_error run
  have left : s.cursor.remaining = bytes.length - s.cursor.offset := by
    rw [standing.1, Cursor.offset_placed]
    exact List.length_drop
  have within := standing.2
  unfold Cursor.take Cursor.peek? at failed
  by_cases enough : n ≤ s.cursor.rest.length
  · simp [List.length_take_of_le enough] at failed
  · have short : (s.cursor.rest.take n).length ≠ n := by
      rw [List.length_take]
      omega
    simp only [short, ↓reduceIte, Prod.mk.injEq, Except.error.injEq] at failed
    obtain ⟨rfl, -⟩ := failed
    exact ⟨by omega, Nat.not_le.mp enough⟩

theorem Grounded.readThen {κ : Type} [Word κ] {next : Scalar κ → Decoder β}
    (goes : ∀ scalar middle, scalar.offset = s.cursor.offset →
      Word.toBytes scalar.value <+: bytes.drop s.cursor.offset →
      middle.cursor.offset = s.cursor.offset + Word.width κ → middle.trace = s.trace →
        (next scalar).Grounded bytes middle) : (read >>= next).Grounded bytes s := by
  intro standing
  refine Grounded.bind .read grounded_read (fun scalar middle ran => ?_) standing
  obtain ⟨passed, front, ⟨here, rfl⟩, behind, -⟩ := Reads.read.found standing ran
  rw [Word.length_toBytes] at behind
  exact goes scalar middle here front behind (trace_onCursor ran)

theorem Grounded.takeThen {n : Nat} {next : Bytes → Decoder β}
    (goes : ∀ taken middle, taken.length = n → taken <+: bytes.drop s.cursor.offset →
      middle.trace = s.trace → (next taken).Grounded bytes middle) :
    (take n >>= next).Grounded bytes s := by
  intro standing
  refine Grounded.bind (.take n) (grounded_take n) (fun taken middle ran => ?_) standing
  obtain ⟨_, front, ⟨size, rfl⟩, -⟩ := (Reads.take n).found standing ran
  exact goes _ middle size front (trace_onCursor ran)

theorem grounded_skip (n : Nat) : (skip n).Grounded bytes s := by
  rw [skip_eq]
  exact .bind (.take n) (grounded_take n) fun _ _ _ => grounded_pure ()

theorem grounded_offset : Decoder.offset.Grounded bytes s := by
  intro standing cause after run
  cases run

theorem grounded_record (event : Event) : (record event).Grounded bytes s := by
  intro standing cause after run
  cases run

theorem grounded_demand {outcome : Except Error α} (real : s.cursor.In bytes →
    ∀ cause, outcome = .error cause → cause.Real bytes s.trace.toList) :
    (Decoder.demand outcome).Grounded bytes s := by
  cases outcome with
  | ok value => exact grounded_pure value
  | error cause => exact grounded_throw fun standing => real standing cause rfl

theorem grounded_nested {inner : Decoder α} (each : ∀ s, inner.Grounded bytes s) :
    (Decoder.nested inner).Grounded bytes s := by
  intro standing cause after run
  rw [nested_apply] at run
  cases ran : inner s.opened with
  | ok value middle =>
    rw [ran] at run
    cases run
  | error found middle =>
    rw [ran] at run
    cases run
    refine (each s.opened standing cause middle ran).mono fun event member => ?_
    rw [State.closed, Array.toList_push]
    exact List.mem_append_left _ member

theorem grounded_timesFrom {item : Decoder α} {writes : Grammar α} (reads : item.Reads writes)
    (each : ∀ s, item.Grounded bytes s) (n : Nat) (decoded : List α) :
    (Decoder.timesFrom item n decoded).Grounded bytes s := by
  induction n generalizing decoded s with
  | zero => exact grounded_pure _
  | succ n ih => exact .bind reads (each s) fun value middle _ => ih (value :: decoded)

end Steps

section Layouts

open Layout (decode_reads)

variable {pool : Pool}

theorem grounded_seq {first : Layout α} {second : Layout β} (head : (first.decode pool).Grounded bytes s)
    (tail : ∀ value middle, first.decode pool s = .ok value middle →
      (second.decode pool).Grounded bytes middle) : ((first.seq second).decode pool).Grounded bytes s :=
  .bind (decode_reads pool first) head fun value middle ran =>
    .bind (decode_reads pool second) (tail value middle ran) fun _ _ _ => grounded_pure _

theorem grounded_as (shape : Shape α β) {parts : Layout α} (inner : (parts.decode pool).Grounded bytes s) :
    ((parts.as shape).decode pool).Grounded bytes s :=
  .bind (decode_reads pool parts) inner fun _ _ _ => grounded_pure _

/-- A leading byte that means nothing stands where it is said to stand. -/
theorem unknown_real {κ : Type} {tagging : Tagging κ} (standard : tagging.Standard) {byte : UInt8}
    {place : Nat} (there : bytes[place]? = some byte) (unknown : tagging.ofByte? byte = none)
    (events : List Event) : (tagging.unknown byte place).Real bytes events := by
  cases standard <;> exact ⟨there, unknown⟩

theorem grounded_tagged {κ : Type} {tagging : Tagging κ} {body : κ → Layout α} (standard : tagging.Standard)
    (each : ∀ kind s, ((body kind).decode pool).Grounded bytes s) :
    ((Layout.tagged tagging body).decode pool).Grounded bytes s := by
  rw [Layout.decode]
  refine .readThen fun tag middle here spelt _ _ => ?_
  split
  next kind known => exact .bind (decode_reads pool _) (each kind middle) fun _ _ _ => grounded_pure _
  next unknown =>
    obtain ⟨rest, spelt⟩ := spelt
    refine grounded_throw fun _ => unknown_real standard ?_ unknown _
    rw [here, ← Nat.add_zero s.cursor.offset, ← List.getElem?_drop, ← spelt, Word.toBytes_u1]
    rfl

theorem grounded_text (slot : Nat) : (Layout.decodeText slot).Grounded bytes s := by
  refine .readThen fun size middle _ front behind _ => .takeThen fun content later length back _ => ?_
  split
  next => exact grounded_pure _
  next broken =>
    rw [behind, ← Word.length_toBytes size.value] at back
    exact grounded_throw fun _ => ⟨size.value, content, _, Bytes.prefix_append front back, length, broken⟩

/-- Whatever is put together from simple parts complains about nothing but real causes, if the pool that
its references lead into is that of the file. -/
theorem grounded_closed {linked : Prop} (stands : linked → pool.StandsIn bytes) :
    Layout.Closed linked fun _ layout => ∀ s, (layout.decode pool).Grounded bytes s where
  nothing _ := grounded_pure ()
  word _ _ := grounded_read
  flags _ _ := .bind .read grounded_read fun _ _ _ => grounded_pure _
  index _ related _ := .bind .read grounded_read fun _ _ _ =>
    .bind (.demand _) (grounded_demand fun _ _ => (stands related).check_real) fun _ _ _ => grounded_pure _
  indexPair _ _ related _ := .bind .read grounded_read fun _ _ _ => .bind .read grounded_read fun _ _ _ =>
    .bind (.demand _) (grounded_demand fun _ _ => (stands related).check_real) fun _ _ _ =>
      .bind (.demand _) (grounded_demand fun _ _ => (stands related).check_real) fun _ _ _ =>
        grounded_pure _
  seq {_ _ _ _} head tail s := grounded_seq (head s) fun _ middle _ => tail middle
  as {_ _} shape {_} inner s := grounded_as shape (inner s)
  times {_} n {_} each _ := grounded_timesFrom (decode_reads pool _) each n []
  counted {_ _} _ {_} each _ := .bind .read grounded_read fun _ _ _ =>
    .bind (.times (decode_reads pool _) _) (grounded_timesFrom (decode_reads pool _) each _ []) fun _ _ _ =>
      grounded_pure _
  tagged {_ _ _ _} standard each _ := grounded_tagged standard each
  text slot _ := grounded_text slot
  looseText length _ := .bind (.take _) (grounded_take length) fun _ _ _ => grounded_pure _

theorem grounded_decodeCode {place : Nat} (here : s.cursor.offset = place + 10)
    (holds : ∀ (size : UInt32) (code : Bytes), size.toNat = code.length →
      Word.toBytes size ++ code <+: bytes.drop s.cursor.offset →
        bytes.HoldsCode s.trace.toList place code) : Layout.decodeCode.Grounded bytes s := by
  refine .readThen fun size one _ front behind still => .bind .offset grounded_offset fun base two told => ?_
  cases told
  refine .takeThen fun code three length back kept => ?_
  refine .bind (.demand _) (grounded_demand fun _ cause failed => ?_) fun _ _ _ =>
    .bind (.record _) (grounded_record _) fun _ _ _ => grounded_pure _
  rw [behind, ← Word.length_toBytes size.value] at back
  have met := holds size.value code length.symm (Bytes.prefix_append front back)
  have start : one.cursor.offset = place + 14 := by
    rw [behind, here]
    rfl
  rw [start, ← length] at failed
  obtain ⟨front, rest, earlier, rfl, cut, misfit⟩ := Instruction.decodeAll_eq_error.mp failed
  rw [kept, still]
  exact Instruction.misfit_real met cut misfit

theorem grounded_entries {item : Layout Attribute} (each : ∀ s, (item.decode pool).Grounded bytes s)
    (n : Nat) (entries : List Attribute) :
    (Layout.decodeEntries (item.decode pool) n entries).Grounded bytes s := by
  induction n generalizing entries s with
  | zero => exact grounded_pure _
  | succ n ih =>
    refine .bind (decode_reads pool item) (each s) fun later middle _ => ?_
    split
    next => exact .bind (.record _) (grounded_record _) fun _ _ _ => ih _
    next => exact .bind (.pure _) (grounded_pure _) fun _ _ _ => ih _

section Attributes

variable (stands : pool.StandsIn bytes)
include stands

/-- The code of an attribute is found where the attribute has been come to. -/
theorem grounded_code {attributes : Layout Table} (tables : ∀ s, (attributes.decode pool).Grounded bytes s)
    {length place : Nat} (met : .decoding "Code" length place ∈ s.trace.toList)
    (head : bytes.HoldsHead place "Code" length) (here : s.cursor.offset = place + 6) :
    ((Code.layout attributes).decode pool).Grounded bytes s := by
  have closed := grounded_closed fun _ : True => stands
  have handlers : ∀ s, ((Layout.list Handler.layout).decode pool).Grounded bytes s :=
    closed.counted _ (closed.flat Handler.layout_flat)
  refine grounded_as _ (.readThen fun stack one _ two behind kept => ?_)
  refine .bind (decode_reads pool _) (.readThen fun locals middle _ four further still => ?_)
    fun _ _ _ => grounded_pure _
  rw [behind, ← Word.length_toBytes stack.value] at four
  have limits := Bytes.prefix_append two four
  have start : middle.cursor.offset = place + 10 := by
    rw [further, behind, here]
    rfl
  have past : middle.cursor.offset =
      s.cursor.offset + (Word.toBytes stack.value ++ Word.toBytes locals.value).length := by
    rw [further, behind, List.length_append, Word.length_toBytes, Word.length_toBytes, Nat.add_assoc]
  have code : Layout.decodeCode.Grounded bytes middle := by
    refine grounded_decodeCode start fun size code measured whole => ?_
    rw [past] at whole
    have all := Bytes.prefix_append limits whole
    rw [here, ← List.append_assoc] at all
    rw [still, kept]
    exact ⟨length, stack.value, locals.value, size, met, head, measured, all⟩
  refine .bind (decode_reads pool _) (grounded_seq code fun _ after _ => ?_) fun _ _ _ => grounded_pure _
  exact grounded_seq (handlers after) fun _ later _ => tables later

theorem grounded_entry {payload : AttributeKind → Nat → Layout Payload}
    (each : ∀ kind length place s, .decoding kind.name length place ∈ s.trace.toList →
      bytes.HoldsHead place kind.name length → s.cursor.offset = place + 6 →
        ((payload kind length).decode pool).Grounded bytes s) :
    ((Layout.entry payload).decode pool).Grounded bytes s := by
  intro standing
  rw [Layout.decode, Layout.decodeEntry_eq]
  have starts : (Layout.decodeHead pool).Grounded bytes s :=
    .bind .read grounded_read fun _ _ _ =>
      .bind (.demand _) (grounded_demand fun _ _ => stands.text_real) fun _ _ _ =>
        .bind .read grounded_read fun _ _ _ => grounded_pure _
  refine Grounded.bind (Layout.decodeHead_reads pool) starts (fun head middle ran => ?_) standing
  obtain ⟨nameIndex, name, length⟩ := head
  obtain ⟨_, front, written, behind, inside⟩ := (Layout.decodeHead_reads pool).found standing ran
  have size := written.length
  obtain ⟨place, -, rfl, named⟩ := written
  have holds : bytes.HoldsHead s.cursor.offset name length.toNat :=
    ⟨pool, nameIndex.value, length.value, stands, named, rfl, front⟩
  cases known : AttributeKind.ofName? name with
  | none =>
    simp only [Layout.decodeRest_unknown known]
    exact .bind (.record _) (grounded_record _) fun _ _ _ =>
      .bind (.skip _) (grounded_skip _) fun _ _ _ => grounded_pure _
  | some kind =>
    obtain rfl := AttributeKind.name_of_ofName? known
    intro _ cause after run
    simp only [Layout.decodeRest_known known] at run
    have met : .decoding kind.name length.toNat s.cursor.offset ∈ (middle.recording
        (.decoding kind.name length.toNat nameIndex.offset)).trace.toList := by
      rw [State.recording, Array.toList_push, place]
      exact List.mem_append_right _ (List.mem_singleton_self _)
    cases ran : (payload kind length.toNat).decode pool
        (middle.recording (.decoding kind.name length.toNat nameIndex.offset)) with
    | error found reached =>
      rw [ran] at run
      cases run
      rw [size] at behind
      exact each kind _ _ _ met holds behind inside cause after ran
    | ok value reached =>
      rw [ran, Layout.settle] at run
      split at run
      next => cases run
      next different =>
        cases run
        exact ⟨⟨_, holds⟩, fun same => different same.symm⟩

theorem grounded_layouts :
    Layout.Graded 64 fun _ _ layout => ∀ s, (layout.decode pool).Grounded bytes s where
  closed _ := grounded_closed fun _ => stands
  bottom _ _ := .bind .offset grounded_offset fun _ _ _ => grounded_throw fun _ => rfl
  across inner _ := grounded_nested inner
  table {_ element attributes} values tables _ := by
    have closed := grounded_closed fun _ : True => stands
    have item (s : State) :
        ((Layout.entry (Payload.layout element attributes)).decode pool).Grounded bytes s := by
      refine grounded_entry stands fun kind length place s met head here => ?_
      by_cases code : kind = .code
      · subst code
        exact grounded_as _ (grounded_code stands tables met head here)
      · exact closed.payload values tables code length s
    exact .bind .read grounded_read fun _ middle _ =>
      .bind (Layout.decodeEntries_reads (decode_reads pool _) _ _) (grounded_entries item _ []) fun _ _ _ =>
        grounded_pure _

end Attributes
section Pools

/-- The pool that is filled behind the heading is that of the file. -/
theorem fill_stands {room : Nat} (standing : s.cursor.In bytes) (here : s.cursor.offset = 10)
    (declared : room + 1 = bytes.declaredCount)
    (run : Pool.fill (room + 1) room #[] s = .ok pool middle) : pool.StandsIn bytes := by
  obtain ⟨passed, front, ⟨entries, filled, size, written⟩, -⟩ :=
    (Pool.fill_reads (room + 1) room #[]).found standing run
  have known : pool.entries = entries := by
    rw [Pool.entries, filled, List.nil_append, Pool.entries_slotsOf]
  have slots : pool.slots.toList = Pool.slotsOf pool.entries := by rw [filled, known, List.nil_append]
  have within := standing.2
  rw [here] at front within written
  refine ⟨within, ?_, slots, passed, front, known ▸ written⟩
  rw [Pool.count, ← Array.length_toList, slots, known, size, declared]

theorem grounded_fill {count : Nat} (full : ∀ events, (Error.indexOutOfRange count count).Real bytes events)
    (room : Nat) (slots : Array (Option Entry)) : (Pool.fill count room slots).Grounded bytes s := by
  have entry (index : Nat) (s : State) : ((Entry.layout index).decode .empty).Grounded bytes s :=
    (grounded_closed False.elim).flat (Entry.layout_flat index) s
  induction room, slots using Pool.fill.induct generalizing s with
  | case1 slots => exact grounded_pure _
  | case2 slots =>
    refine .bind (decode_reads _ _) (entry _ s) fun entry middle _ => ?_
    split
    next => exact grounded_throw fun _ => full _
    next => exact grounded_pure _
  | case3 room slots wide_ih narrow_ih =>
    refine .bind (decode_reads _ _) (entry _ s) fun entry middle _ => ?_
    split
    next => exact wide_ih entry
    next => exact narrow_ih entry

theorem grounded_decodePool {count : Nat} (here : s.cursor.offset = 10)
    (declared : count = bytes.declaredCount) : (Pool.decode count).Grounded bytes s := by
  intro standing
  have heading : 10 ≤ bytes.length := here ▸ standing.2
  have outside (index : Nat) (beyond : index = 0 ∨ count ≤ index) (events : List Event) :
      (Error.indexOutOfRange index count).Real bytes events := ⟨heading, declared, beyond⟩
  refine (?_ : (Pool.decode count).Grounded bytes s) standing
  cases count with
  | zero => exact grounded_throw fun _ => outside 0 (.inl rfl) _
  | succ room =>
    refine .bind (Pool.fill_reads _ _ _)
      (grounded_fill (fun events => outside _ (.inr (Nat.le_refl _)) events) _ _) fun pool middle ran => ?_
    have stands := fill_stands standing here declared ran
    exact .bind (.demand _) (grounded_demand fun _ _ => stands.validate_real) fun _ _ _ => grounded_pure _

theorem decode_stands {count : Nat} (standing : s.cursor.In bytes) (here : s.cursor.offset = 10)
    (declared : count = bytes.declaredCount) (run : Pool.decode count s = .ok pool middle) :
    pool.StandsIn bytes := by
  cases count with
  | zero => cases run
  | succ room =>
    obtain ⟨found, reached, ran, rest⟩ := bind_eq_ok.mp run
    obtain ⟨_, _, _, rest⟩ := bind_eq_ok.mp rest
    cases rest
    exact fill_stands standing here declared ran

end Pools
end Layouts
end Decoder

namespace ClassFile

open Decoder

variable {bytes : Bytes} {cause : Error}

theorem contents_grounded (bytes : Bytes) : (contents maxNesting).Grounded bytes (start bytes) := by
  refine .readThen fun magic one _ spelt four _ => ?_
  by_cases right : magic.value = magicNumber
  · simp only [right, ne_eq, not_true_eq_false, ↓reduceIte]
    refine .readThen fun minor two _ _ six _ => .readThen fun major three _ _ eight _ =>
      .readThen fun poolCount body _ front ten _ => ?_
    have heading : three.cursor.offset = 8 := by
      rw [eight, six, four]
      rfl
    have here : body.cursor.offset = 10 := by
      rw [ten, heading]
      rfl
    have declared : poolCount.toNat = bytes.declaredCount := by
      have head := List.prefix_iff_eq_take.mp front
      rw [Word.length_toBytes, heading] at head
      exact (Word.toNat_toBytes poolCount.value).symm.trans (congrArg Bytes.toNat head)
    intro standing
    refine Grounded.bind (Pool.decode_reads _) (grounded_decodePool here declared)
      (fun pool five ran => ?_) standing
    have stands := decode_stands standing here declared ran
    refine .bind .offset grounded_offset fun place _ _ => .bind (.record _) (grounded_record _)
      fun _ six _ => ?_
    exact .bind (Layout.decode_reads pool _) ((grounded_layouts stands).body maxNesting six) fun _ _ _ =>
      grounded_pure _
  · simp only [right, ne_eq, not_false_eq_true, ↓reduceIte]
    have head := List.prefix_iff_eq_take.mp spelt
    rw [Word.length_toBytes] at head
    exact .bind (.throw _) (grounded_throw fun _ => ⟨head.symm, right⟩) fun _ _ failed => by cases failed

theorem run_real {after : State} (failed : run bytes = .error cause after) :
    cause.Real bytes after.trace.toList := by
  have whole := decode_eq bytes
  rw [decode, failed] at whole
  unfold run EStateM.run at failed
  rw [decodeWithin_eq] at failed
  cases ran : contents maxNesting (start bytes) with
  | error found middle =>
    rw [bind_of_error ran] at failed
    cases failed
    exact contents_grounded bytes ⟨rfl, Nat.zero_le _⟩ cause after ran
  | ok file middle =>
    have place := contents_offset ran
    rw [ran] at whole
    by_cases done : middle.cursor.rest = []
    · simp [done] at whole
    · simp only [done, ↓reduceIte, Except.error.injEq] at whole
      subst whole
      exact ⟨place, List.length_pos_iff.mpr done⟩

/-- Every rejection names its real cause. -/
theorem decode_real (failed : decode bytes = .error cause) :
    ∃ after, run bytes = .error cause after ∧ cause.Real bytes after.trace.toList := by
  unfold decode at failed
  cases ran : run bytes with
  | ok file after =>
    rw [ran] at failed
    cases failed
  | error found after =>
    rw [ran] at failed
    cases failed
    exact ⟨after, rfl, run_real ran⟩

/-- A class with a code attribute of one byte, which is no opcode. -/
def opcodeSample : Bytes :=
  [0xca, 0xfe, 0xba, 0xbe, 0, 0, 0, 52, 0, 4, 1, 0, 1, 0x43, 7, 0, 1, 1, 0, 4, 0x43, 0x6f, 0x64, 0x65] ++
  [0, 0x21, 0, 2, 0, 0, 0, 0, 0, 0, 0, 0, 0, 1, 0, 3, 0, 0, 0, 13, 0, 0, 0, 0, 0, 0, 0, 1, 0xcb, 0, 0, 0, 0]

theorem decode_opcodeSample : decode opcodeSample = .error (.unknownOpcode 0xcb 0 52) ∧
    ∃ after, run opcodeSample = .error (.unknownOpcode 0xcb 0 52) after ∧
      (Error.unknownOpcode 0xcb 0 52).Real opcodeSample after.trace.toList := by
  have rejected : decode opcodeSample = .error (.unknownOpcode 0xcb 0 52) :=
    decode_of_rejection? (by decide +kernel)
  exact ⟨rejected, decode_real rejected⟩

end ClassFile
end ClassFormat
