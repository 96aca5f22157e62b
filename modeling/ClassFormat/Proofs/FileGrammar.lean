import ClassFormat.ClassFile.Decode
import ClassFormat.Proofs.PoolGrammar

/-! The grammar of a whole class file: decoding succeeds on the files it describes, gives the
value it describes them by, and succeeds on no others. -/
namespace ClassFormat.ClassFile

open Decoder

/-- The four words before the first entry of the pool. -/
def headingBytes (file : ClassFile) : Bytes :=
  Word.toBytes file.magic.value ++ (Word.toBytes file.minor.value ++
    (Word.toBytes file.major.value ++ Word.toBytes file.poolCount.value))

@[simp] theorem length_headingBytes (file : ClassFile) : file.headingBytes.length = 10 := by
  simp [headingBytes]

/-- What is written for a class file of at most `limit` levels of nesting. -/
def grammar (limit : Nat) : Grammar ClassFile := fun offset file bytes => ∃ entries rest,
  file.magic.offset = offset ∧ file.minor.offset = offset + 4 ∧ file.major.offset = offset + 6 ∧
  file.poolCount.offset = offset + 8 ∧ file.magic.value = magicNumber ∧
  bytes = file.headingBytes ++ (entries ++ rest) ∧
  Pool.grammar file.poolCount.toNat (offset + 10) file.pool entries ∧
  (Body.layout (Table.layout limit limit)).Writes file.pool (offset + 10 + entries.length)
    file.toBody rest

/-- After the body nothing may follow. -/
theorem ending_finishes (result : ClassFile) (event : Event) :
    (do
      let cursor := (← get).cursor
      if ¬ cursor.isEmpty then throw (.trailingBytes cursor.offset cursor.remaining)
      record event
      return result : Decoder ClassFile).Finishes fun _ file bytes => file = result ∧ bytes = [] := by
  refine ⟨fun before file => ?_⟩
  by_cases empty : before.cursor.rest = []
  · have none : before.cursor.isEmpty = true := by simp [Cursor.isEmpty, empty]
    constructor
    · rintro ⟨after, run⟩
      obtain ⟨state, _, got, rest⟩ := bind_eq_ok.mp run
      cases got
      simp only [none] at rest
      cases rest
      exact ⟨rfl, empty⟩
    · rintro ⟨rfl, -⟩
      refine ⟨{ before with trace := before.trace.push event }, ?_⟩
      refine bind_eq_ok.mpr ⟨before, before, rfl, ?_⟩
      simp only [none]
      rfl
  · have left : before.cursor.isEmpty = false := by simpa [Cursor.isEmpty] using empty
    constructor
    · rintro ⟨after, run⟩
      obtain ⟨state, _, got, rest⟩ := bind_eq_ok.mp run
      cases got
      simp only [left] at rest
      cases rest
    · rintro ⟨-, none⟩
      exact absurd none empty

/-- What is written behind the first four bytes. -/
def afterMagic (limit : Nat) (magic : U4) : Grammar ClassFile := fun offset file bytes =>
  ∃ entries rest, file.magic = magic ∧ file.minor.offset = offset ∧
    file.major.offset = offset + 2 ∧ file.poolCount.offset = offset + 4 ∧
    bytes = Word.toBytes file.minor.value ++ (Word.toBytes file.major.value ++
      (Word.toBytes file.poolCount.value ++ (entries ++ rest))) ∧
    Pool.grammar file.poolCount.toNat (offset + 6) file.pool entries ∧
    (Body.layout (Table.layout limit limit)).Writes file.pool (offset + 6 + entries.length)
      file.toBody rest

theorem afterMagic_finishes (limit : Nat) (magic : U4) :
    (do
      let minor ← Decoder.read
      let major ← Decoder.read
      let poolCount : U2 ← Decoder.read
      let pool ← Pool.decode poolCount.toNat
      record (.poolDecoded pool.entries.length (← offset))
      let body ← (Body.layout (Table.layout limit limit)).decode pool
      let cursor := (← get).cursor
      if ¬ cursor.isEmpty then throw (.trailingBytes cursor.offset cursor.remaining)
      record (.classDecoded ⟨major.value, minor.value⟩ body.fields.items.length
        body.methods.items.length body.attributes.size)
      return { body with magic, minor, major, poolCount, pool } : Decoder ClassFile).Finishes
        (afterMagic limit magic) := by
  refine (Finishes.readThen fun minor => .readThen fun major => .readThen fun poolCount =>
    .bind (Pool.decode_reads poolCount.toNat) fun pool => .offsetThen fun place =>
      .silent (.record _) <| .bind (Layout.decode_reads pool _) fun body =>
        (?_ : Finishes _ fun _ file bytes =>
          file = { body with magic, minor, major, poolCount, pool } ∧ bytes = [])).congr
            fun offset file bytes => ⟨?_, ?_⟩
  · exact ending_finishes _ _
  · intro written
    obtain ⟨entries, rest, rfl, rfl, majorPlace, countPlace, rfl, pooled, written⟩ := written
    refine ⟨file.minor.value, _, rfl, file.major.value, _, rfl, file.poolCount.value, _, rfl,
      file.pool, entries, rest, rfl, pooled, file.toBody, rest, [], (List.append_nil _).symm,
      written, ?_, rfl⟩
    obtain ⟨body, magic, minor, ⟨major, majorOffset⟩, ⟨count, countOffset⟩, pool⟩ := file
    obtain rfl : majorOffset = minor.offset + 2 := majorPlace
    obtain rfl : countOffset = minor.offset + 4 := countPlace
    rfl
  · intro written
    obtain ⟨minor, _, rfl, major, _, rfl, count, _, rfl, pool, entries, _, rfl, pooled, body, rest, _,
      rfl, written, rfl, rfl⟩ := written
    rw [List.append_nil]
    exact ⟨entries, rest, rfl, rfl, rfl, rfl, rfl, pooled, written⟩

theorem decodeWithin_finishes (limit : Nat) : (decodeWithin limit).Finishes (grammar limit) := by
  unfold decodeWithin
  refine (Finishes.readThen fun magic => (?_ : Finishes _ fun offset file bytes =>
    magic.value = magicNumber ∧ afterMagic limit magic offset file bytes)).congr
      fun offset file bytes => ⟨?_, ?_⟩
  · by_cases right : magic.value = magicNumber
    · simp only [right, ne_eq, not_true_eq_false, ↓reduceIte, true_and]
      exact afterMagic_finishes limit magic
    · simp only [right, ne_eq, not_false_eq_true, ↓reduceIte, false_and]
      exact Finishes.throw _
  · intro written
    obtain ⟨entries, rest, rfl, minor, major, count, right, rfl, pooled, written⟩ := written
    refine ⟨file.magic.value, _, ?_, right, entries, rest, rfl, minor, major, count, rfl, pooled,
      written⟩
    simp only [headingBytes, List.append_assoc]
  · intro written
    obtain ⟨magic, _, rfl, right, entries, rest, same, minor, major, count, rfl, pooled, written⟩ :=
      written
    refine ⟨entries, rest, ?_, minor, major, count, ?_, ?_, pooled, written⟩
    · rw [same]
    · rw [same]
      exact right
    · simp only [headingBytes, same, List.append_assoc]

theorem decode_eq_ok {bytes : Bytes} {file : ClassFile} :
    decode bytes = .ok file ↔ grammar maxNesting 0 file bytes := by
  have exact := (decodeWithin_finishes maxNesting).exact (start bytes) file
  refine Iff.trans ?_ exact
  unfold decode run EStateM.run
  cases decodeWithin maxNesting (start bytes) <;> simp

theorem exists_of_isOk {bytes : Bytes} (accepted : (decode bytes).isOk) :
    ∃ file, decode bytes = .ok file := by
  cases run : decode bytes with
  | ok file => exact ⟨file, rfl⟩
  | error cause =>
    rw [run] at accepted
    cases accepted

/-- The complaint about a file that does not decode. -/
def rejection? (bytes : Bytes) : Option Error :=
  match decode bytes with
  | .ok _ => none
  | .error cause => some cause

theorem decode_of_rejection? {bytes : Bytes} {cause : Error} (rejected : rejection? bytes = some cause) :
    decode bytes = .error cause := by
  unfold rejection? at rejected
  cases run : decode bytes with
  | ok file =>
    rw [run] at rejected
    cases rejected
  | error found =>
    rw [run] at rejected
    cases rejected
    rfl

end ClassFormat.ClassFile
