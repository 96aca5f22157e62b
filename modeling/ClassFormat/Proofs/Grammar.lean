import ClassFormat.Layout.Decode
import ClassFormat.Proofs.Collecting
import ClassFormat.Proofs.Reading

/-! The grammar of a layout, and that decoding follows it exactly. The grammar knows neither
cursors nor records nor failures, so what holds of every decoded value is shown from it. -/
namespace ClassFormat

namespace Grammar

/-- Text behind its length. -/
def text : Grammar (U2 × String) := fun offset value bytes =>
  ∃ content chars, value.1.offset = offset ∧
    bytes = Word.toBytes value.1.value ++ content ∧ content.length = value.1.toNat ∧
    Text.Modified.decode? content = some chars ∧ value.2 = .ofList chars

/-- A code array behind its length. -/
def code : Grammar (U4 × Array Instruction) := fun offset value bytes =>
  ∃ content, value.1.offset = offset ∧
    bytes = Word.toBytes value.1.value ++ content ∧ content.length = value.1.toNat ∧
    Instruction.decodeAll value.1.toNat (offset + 4) content = .ok value.2

/-- A name, a length and as many bytes as it says, which mean what the name announces. -/
def entry (pool : Pool) (payload : AttributeKind → Nat → Grammar Payload) : Grammar Attribute :=
  fun offset value bytes => ∃ content,
    value.nameIndex.offset = offset ∧ value.length.offset = offset + 2 ∧
    bytes = Word.toBytes value.nameIndex.value ++ (Word.toBytes value.length.value ++ content) ∧
    pool.text value.nameIndex.toNat = .ok value.name ∧ content.length = value.length.toNat ∧
    match AttributeKind.ofName? value.name with
    | some kind => payload kind value.length.toNat (offset + 6) value.payload content
    | none => value.payload = .unknown

/-- All attributes that are written; of equal names the table keeps the last. -/
def table (entry : Grammar Attribute) : Grammar Table := fun offset value bytes =>
  ∃ written content, value.count.offset = offset ∧
    bytes = Word.toBytes value.count.value ++ content ∧ written.length = value.count.toNat ∧
    value.entries = Table.collect [] written ∧
    entry.each (offset + 2) written content

end Grammar

namespace Layout

def Writes (pool : Pool) : Layout α → Grammar α
  | nothing => fun _ _ bytes => bytes = []
  | word width => @Grammar.word _ width
  | flags set => fun offset value bytes => value.offset = offset ∧
      ∃ bits : UInt16, bytes = Word.toBytes bits ∧ value.value = Flags.truncate set bits
  | index target => fun offset value bytes =>
      Grammar.word offset value bytes ∧ target.check pool value.toNat = .ok ()
  | indexPair first second => fun offset value bytes => ∃ xs ys, bytes = xs ++ ys ∧
      Grammar.word offset value.1 xs ∧ Grammar.word (offset + 2) value.2 ys ∧
      first.check pool value.1.toNat = .ok () ∧ second.check pool value.2.toNat = .ok ()
  | seq first second => fun offset value bytes => ∃ xs ys, bytes = xs ++ ys ∧
      first.Writes pool offset value.1 xs ∧ second.Writes pool (offset + xs.length) value.2 ys
  | as shape parts => fun offset value bytes =>
      ∃ whole, value = shape.make whole ∧ parts.Writes pool offset whole bytes
  | times n item => fun offset values bytes =>
      values.length = n ∧ (item.Writes pool).each offset values bytes
  | counted width item => fun offset value bytes => ∃ xs ys, bytes = xs ++ ys ∧
      @Grammar.word _ width offset value.count xs ∧
      value.items.length = width.toNat value.count.value ∧
      (item.Writes pool).each (offset + width.width) value.items ys
  | tagged tagging body => fun offset value bytes => ∃ kind rest,
      tagging.ofByte? value.1.value = some kind ∧ value.1.offset = offset ∧
      bytes = value.1.value :: rest ∧ (body kind).Writes pool (offset + 1) value.2 rest
  | text _ => Grammar.text
  | looseText length => fun _ value bytes => bytes.length = length ∧
      value = .ofList ((Text.Modified.decode? bytes).getD (Text.Utf8.decodeLossily bytes))
  | code => Grammar.code
  | entry payload => Grammar.entry pool fun kind length => (payload kind length).Writes pool
  | table item => Grammar.table (item.Writes pool)
  | nested inner => inner.Writes pool
  | tooDeep _ => fun _ _ _ => False

open Decoder

theorem decodeText_reads (slot : Nat) : (decodeText slot).Reads Grammar.text := by
  refine (Reads.readThen fun length => .takeThen fun content => (?_ :
    Reads _ fun _ value bytes => ∃ chars, Text.Modified.decode? content = some chars ∧
      value = (length, .ofList chars) ∧ bytes = [])).congr fun offset value bytes => ⟨?_, ?_⟩
  · split
    next chars spelt => exact (Reads.pure _).congr (by simp [spelt])
    next broken => exact (Reads.throw _).congr (by simp [broken])
  · intro written
    obtain ⟨content, chars, rfl, rfl, size, spelt, same⟩ := written
    refine ⟨value.1.value, content, rfl, content, [], ?_, size, chars, spelt, ?_, rfl⟩
    · exact (List.append_nil _).symm
    · rw [← same]
  · intro written
    obtain ⟨number, _, rfl, content, _, rfl, size, chars, spelt, rfl, rfl⟩ := written
    exact ⟨content, chars, rfl, by rw [List.append_nil], size, spelt, rfl⟩

theorem decodeLooseText_reads (length : Nat) : (decodeLooseText length).Reads
    fun _ value bytes => bytes.length = length ∧
      value = .ofList ((Text.Modified.decode? bytes).getD (Text.Utf8.decodeLossily bytes)) := by
  refine (Reads.map (.take length)).congr fun offset value bytes => ⟨?_, ?_⟩
  · intro written
    obtain ⟨size, same⟩ := written
    exact ⟨bytes, ⟨size, rfl⟩, same⟩
  · intro written
    obtain ⟨content, ⟨size, rfl⟩, same⟩ := written
    exact ⟨size, same⟩

theorem decodeCode_reads : decodeCode.Reads Grammar.code := by
  refine (Reads.readThen fun length => .offsetThen fun base => .takeThen fun content =>
    .demandThen fun instructions => .silent (.record _) (.pure _)).congr
      fun offset value bytes => ⟨?_, ?_⟩
  · intro written
    obtain ⟨content, rfl, rfl, size, cut⟩ := written
    refine ⟨value.1.value, content, rfl, content, [], ?_, size, value.2, cut, rfl, rfl⟩
    exact (List.append_nil _).symm
  · intro written
    obtain ⟨number, _, rfl, content, _, rfl, size, instructions, cut, rfl, rfl⟩ := written
    exact ⟨content, rfl, by rw [List.append_nil], size, cut⟩

/-- A payload is passed if it is of a known kind and has the length that was declared. -/
theorem decodePayload_reads {payload : Decoder Payload} {writes : Grammar Payload}
    (reads : payload.Reads writes) (event : Event) (length : Nat) (make : Payload → Attribute)
    (mismatch : Nat → Error) :
    (do
      record event
      let start ← offset
      let payload ← payload
      let consumed := (← offset) - start
      if consumed = length then return make payload else throw (mismatch consumed)).Reads
        fun offset value bytes => ∃ payload, value = make payload ∧ bytes.length = length ∧
          writes offset payload bytes := by
  refine (Reads.silent (.record _) <| .offsetThen fun start => .bind reads fun payload =>
    .offsetThen fun stop => (?_ : Reads _ fun _ value bytes =>
      (stop - start = length ∧ value = make payload) ∧ bytes = [])).congr
        fun offset value bytes => ⟨?_, ?_⟩
  · simp only
    split
    next same => exact (Reads.pure _).congr (by simp [same])
    next different => exact (Reads.throw _).congr (by simp [different])
  · intro written
    obtain ⟨payload, rfl, size, written⟩ := written
    refine ⟨payload, bytes, [], (List.append_nil _).symm, written, ⟨?_, rfl⟩, rfl⟩
    rw [Nat.add_sub_cancel_left, size]
  · intro written
    obtain ⟨payload, content, _, rfl, written, ⟨size, rfl⟩, rfl⟩ := written
    rw [Nat.add_sub_cancel_left] at size
    rw [List.append_nil]
    exact ⟨payload, rfl, size, written⟩

theorem decodeEntry_reads (pool : Pool) {decoder : AttributeKind → Nat → Decoder Payload}
    {payload : AttributeKind → Nat → Grammar Payload}
    (reads : ∀ kind length, (decoder kind length).Reads (payload kind length)) :
    (decodeEntry pool decoder).Reads (Grammar.entry pool payload) := by
  -- The two ways to pass the payload, once its name and its declared length are known.
  let rest (nameIndex : U2) (name : String) (length : U4) : Grammar Attribute :=
    fun offset value bytes => ∃ content, value = ⟨nameIndex, name, length, content⟩ ∧
      bytes.length = length.toNat ∧ match AttributeKind.ofName? name with
        | some kind => payload kind length.toNat offset content bytes
        | none => content = .unknown
  refine (Reads.readThen fun nameIndex => .demandThen fun name => .readThen fun length =>
    (?_ : Reads _ (rest nameIndex name length))).congr fun offset value bytes => ⟨?_, ?_⟩
  · split
    next kind known =>
      refine (decodePayload_reads (reads kind length.toNat) _ _ _ _).congr fun _ _ _ => ?_
      simp only [rest, known]
    next unknown =>
      refine (Reads.silent (.record _) (.map (.skip _))).congr fun offset value bytes => ⟨?_, ?_⟩
      · intro written
        obtain ⟨content, rfl, size, same⟩ := written
        rw [unknown] at same
        exact ⟨(), size, by rw [same]⟩
      · intro written
        obtain ⟨_, size, rfl⟩ := written
        exact ⟨.unknown, rfl, size, by rw [unknown]⟩
  · intro written
    obtain ⟨content, rfl, lengthPlace, rfl, named, size, written⟩ := written
    refine ⟨value.nameIndex.value, _, rfl, value.name, named, value.length.value, content, rfl,
      value.payload, ?_, size, written⟩
    obtain ⟨nameIndex, name, ⟨number, place⟩, payload⟩ := value
    obtain rfl : place = nameIndex.offset + 2 := lengthPlace
    rfl
  · intro written
    obtain ⟨index, _, rfl, name, named, number, content, rfl, payload, rfl, size, written⟩ := written
    exact ⟨content, rfl, rfl, rfl, named, size, written⟩

theorem decodeEntries_reads {entry : Decoder Attribute} {writes : Grammar Attribute}
    (reads : entry.Reads writes) (n : Nat) (entries : List Attribute) :
    (decodeEntries entry n entries).Reads fun offset result bytes => ∃ written,
      written.length = n ∧ result = Table.collect entries written ∧
      writes.each offset written bytes := by
  induction n generalizing entries with
  | zero =>
    refine (Reads.pure entries).congr fun offset result bytes => ⟨?_, ?_⟩
    · intro written
      obtain ⟨all, none, rfl, nothing⟩ := written
      obtain rfl := List.length_eq_zero_iff.mp none
      exact ⟨rfl, nothing⟩
    · intro written
      obtain ⟨rfl, rfl⟩ := written
      exact ⟨[], rfl, rfl, rfl⟩
  | succ n ih =>
    refine (Reads.bind reads fun later => (?_ : Reads _ fun offset result bytes => ∃ others,
      others.length = n ∧ result = Table.collect (Table.insert later entries) others ∧
      writes.each offset others bytes)).congr fun offset result bytes => ⟨?_, ?_⟩
    · have rest := ih (Table.insert later entries)
      split
      next earlier found => exact Reads.silent (.record _) rest
      next new => exact rest
    · intro written
      obtain ⟨all, size, rfl, run⟩ := written
      cases all with
      | nil => cases size
      | cons later others =>
        obtain ⟨xs, ys, rfl, first, rest⟩ := run
        exact ⟨later, xs, ys, rfl, first, others, Nat.succ.inj size, rfl, rest⟩
    · intro written
      obtain ⟨later, xs, ys, rfl, first, others, rfl, rfl, rest⟩ := written
      exact ⟨later :: others, rfl, rfl, xs, ys, rfl, first, rest⟩

theorem decodeTagged_reads {κ : Type} {tagging : Tagging κ} {body : κ → Layout α} {pool : Pool}
    (reads : ∀ kind, ((body kind).decode pool).Reads ((body kind).Writes pool)) :
    ((Layout.tagged tagging body).decode pool).Reads ((Layout.tagged tagging body).Writes pool) := by
  rw [decode]
  refine (Reads.readThen fun tag => (?_ : Reads _ fun offset (value : U1 × α) bytes => ∃ kind,
    tagging.ofByte? tag.value = some kind ∧ value.1 = tag ∧
      (body kind).Writes pool offset value.2 bytes)).congr fun offset value bytes => ⟨?_, ?_⟩
  · split
    next kind known =>
      refine (Reads.map (reads kind)).congr fun offset value bytes => ⟨?_, ?_⟩
      · intro written
        obtain ⟨_, same, rfl, written⟩ := written
        obtain rfl := Option.some.inj (known.symm.trans same)
        exact ⟨value.2, written, rfl⟩
      · intro written
        obtain ⟨content, written, rfl⟩ := written
        exact ⟨kind, known, rfl, written⟩
    next unknown => exact (Reads.throw _).congr (by simp [unknown])
  · intro written
    obtain ⟨kind, rest, known, rfl, rfl, written⟩ := written
    refine ⟨value.1.value, rest, ?_, kind, known, rfl, written⟩
    rw [Word.toBytes_u1, List.singleton_append]
  · intro written
    obtain ⟨byte, rest, rfl, kind, known, same, written⟩ := written
    obtain ⟨_, content⟩ := value
    cases same
    refine ⟨kind, rest, known, rfl, ?_, written⟩
    rw [Word.toBytes_u1, List.singleton_append]

/-- Decoding a layout succeeds on what its grammar writes and on nothing else. -/
theorem decode_reads (pool : Pool) (layout : Layout α) :
    (layout.decode pool).Reads (layout.Writes pool) := by
  induction layout with
  | nothing => exact (Reads.pure _).congr (by simp [Writes])
  | word width => exact @Reads.read _ width
  | flags set =>
    refine (Reads.map .read).congr fun offset value bytes => ⟨?_, ?_⟩
    · intro written
      obtain ⟨rfl, bits, rfl, kept⟩ := written
      refine ⟨⟨bits, value.offset⟩, ⟨rfl, rfl⟩, ?_⟩
      rw [Scalar.map, ← kept]
    · intro written
      obtain ⟨word, ⟨rfl, rfl⟩, rfl⟩ := written
      exact ⟨rfl, word.value, rfl, rfl⟩
  | index target =>
    refine (Reads.readThen fun a => .demandThen fun _ => .pure _).congr
      fun offset value bytes => ⟨?_, ?_⟩
    · intro written
      obtain ⟨⟨rfl, rfl⟩, met⟩ := written
      exact ⟨value.value, [], (List.append_nil _).symm, (), met, rfl, rfl⟩
    · intro written
      obtain ⟨number, _, rfl, _, met, rfl, rfl⟩ := written
      exact ⟨⟨rfl, List.append_nil _⟩, met⟩
  | indexPair first second =>
    refine (Reads.readThen fun a => .readThen fun b => .demandThen fun _ => .demandThen fun _ =>
      .pure _).congr fun offset value bytes => ⟨?_, ?_⟩
    · intro written
      obtain ⟨_, _, rfl, ⟨rfl, rfl⟩, ⟨place, rfl⟩, met, too⟩ := written
      obtain ⟨a, number, other⟩ := value
      obtain rfl : other = a.offset + 2 := place
      exact ⟨a.value, _, rfl, number, [], (List.append_nil _).symm, (), met, (), too, rfl, rfl⟩
    · intro written
      obtain ⟨a, _, rfl, b, _, rfl, _, met, _, too, rfl, rfl⟩ := written
      exact ⟨_, _, by rw [List.append_nil], ⟨rfl, rfl⟩, ⟨rfl, rfl⟩, met, too⟩
  | seq first second first_ih second_ih =>
    refine (Reads.bind first_ih fun a => .map second_ih).congr fun offset value bytes => ⟨?_, ?_⟩
    · intro written
      obtain ⟨xs, ys, rfl, one, two⟩ := written
      exact ⟨value.1, xs, ys, rfl, one, value.2, two, rfl⟩
    · intro written
      obtain ⟨a, xs, ys, rfl, one, b, two, rfl⟩ := written
      exact ⟨xs, ys, rfl, one, two⟩
  | as shape parts ih =>
    refine (Reads.map ih).congr fun offset value bytes => ⟨?_, ?_⟩
    · intro written
      obtain ⟨whole, rfl, written⟩ := written
      exact ⟨whole, written, rfl⟩
    · intro written
      obtain ⟨whole, written, rfl⟩ := written
      exact ⟨whole, rfl, written⟩
  | times n item ih => exact Reads.times ih n
  | counted width item ih =>
    refine (@Reads.readThen _ _ width _ _ fun count => .map (.times ih _)).congr
      fun offset value bytes => ⟨?_, ?_⟩
    · intro written
      obtain ⟨_, ys, rfl, ⟨rfl, rfl⟩, size, written⟩ := written
      exact ⟨value.count.value, ys, rfl, value.items, ⟨size, written⟩, rfl⟩
    · intro written
      obtain ⟨number, ys, rfl, items, ⟨size, written⟩, rfl⟩ := written
      exact ⟨_, ys, rfl, ⟨rfl, rfl⟩, size, written⟩
  | tagged tagging body ih => exact decodeTagged_reads ih
  | text slot => exact decodeText_reads slot
  | looseText length => exact decodeLooseText_reads length
  | code => exact decodeCode_reads
  | entry payload ih => exact decodeEntry_reads pool fun kind length => ih kind length
  | table item ih =>
    refine (Reads.readThen fun count => .map (decodeEntries_reads ih count.toNat [])).congr
      fun offset value bytes => ⟨?_, ?_⟩
    · intro written
      obtain ⟨all, content, rfl, rfl, size, kept, run⟩ := written
      refine ⟨value.count.value, content, rfl, value.entries, ⟨all, size, kept, run⟩, ?_⟩
      cases value
      rfl
    · intro written
      obtain ⟨number, content, rfl, entries, ⟨all, size, kept, run⟩, rfl⟩ := written
      exact ⟨all, content, rfl, rfl, size, kept, run⟩
  | nested inner ih => exact .nested ih
  | tooDeep limit =>
    refine (Reads.offsetThen fun _ => .throw _).congr ?_
    simp [Writes]

end Layout
end ClassFormat
