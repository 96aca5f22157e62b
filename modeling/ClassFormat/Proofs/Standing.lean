import ClassFormat.Proofs.Recording

/-! Cursors that stand in a file, and the two halves in which an attribute is decoded there: its head,
which says what it is called and how long it is, and the payload behind it. -/
namespace ClassFormat

namespace Cursor

/-- The cursor at a place of a file. -/
def placed (bytes : Bytes) (place : Nat) : Cursor := ⟨0, place, bytes.drop place⟩

@[simp] theorem offset_placed (bytes : Bytes) (place : Nat) : (placed bytes place).offset = place :=
  Nat.zero_add place

theorem passes_placed {bytes passed : Bytes} {place : Nat} {after : Cursor} :
    (placed bytes place).Passes passed after ↔
      after = placed bytes (place + passed.length) ∧ passed <+: bytes.drop place := by
  constructor
  · rintro ⟨base, position, rest⟩
    obtain ⟨afterBase, afterPosition, afterRest⟩ := after
    cases base
    cases position
    refine ⟨?_, ⟨_, rest.symm⟩⟩
    have behind : afterRest = bytes.drop (place + passed.length) := by
      rw [← List.drop_drop]
      change bytes.drop place = passed ++ afterRest at rest
      rw [rest, List.drop_left]
    rw [behind]
    rfl
  · rintro ⟨rfl, rest, whole⟩
    refine ⟨rfl, rfl, ?_⟩
    change bytes.drop place = passed ++ bytes.drop (place + passed.length)
    rw [← List.drop_drop, ← whole, List.drop_left]

/-- What is passed in one file is passed in another that agrees with it there. -/
theorem Passes.agree {bytes others passed : Bytes} {place : Nat} {after : Cursor}
    (here : (placed bytes place).Passes passed after)
    (same : ∀ i, place ≤ i → i < place + passed.length → others[i]? = bytes[i]?) :
    (placed others place).Passes passed (placed others (place + passed.length)) := by
  obtain ⟨-, front⟩ := passes_placed.mp here
  refine passes_placed.mpr ⟨rfl, ?_⟩
  rw [List.prefix_iff_getElem?] at front ⊢
  intro i inside
  have there := front i inside
  rw [List.getElem?_drop] at there ⊢
  rw [same _ (by omega) (by omega)]
  exact there

end Cursor

namespace Decoder.Reads

variable {decoder : Decoder α} {writes : Grammar α} {bytes : Bytes} {place : Nat} {trace : Array Event}
  {value : α} {after : State}

/-- A cursor that starts in a file stays in it. -/
theorem placed (reads : decoder.Reads writes) (run : decoder ⟨.placed bytes place, trace⟩ = .ok value after) :
    place ≤ after.cursor.offset ∧ after.cursor = .placed bytes after.cursor.offset := by
  obtain ⟨passed, moved, -⟩ := reads.sound run
  obtain ⟨reached, -⟩ := Cursor.passes_placed.mp moved
  rw [reached, Cursor.offset_placed]
  exact ⟨Nat.le_add_right _ _, rfl⟩

/-- What is read from one file is read from another that agrees with it there. -/
theorem agree (reads : decoder.Reads writes) (run : decoder ⟨.placed bytes place, trace⟩ = .ok value after)
    {others : Bytes} (same : ∀ i, place ≤ i → i < after.cursor.offset → others[i]? = bytes[i]?)
    (other : Array Event) : ∃ recorded, decoder ⟨.placed others place, other⟩ =
      .ok value ⟨.placed others after.cursor.offset, recorded⟩ := by
  obtain ⟨passed, moved, written⟩ := reads.sound run
  obtain ⟨reached, -⟩ := Cursor.passes_placed.mp moved
  rw [reached, Cursor.offset_placed] at same ⊢
  change writes (Cursor.placed bytes place).offset value passed at written
  rw [Cursor.offset_placed, ← Cursor.offset_placed others place] at written
  exact reads.complete written (moved.agree same) other

end Decoder.Reads

/-- The state with one event more. -/
def State.recording (s : State) (event : Event) : State := { s with trace := s.trace.push event }

namespace Layout

open Decoder

/-- The name of an attribute and the length that it declares. -/
def decodeHead (pool : Pool) : Decoder (U2 × String × U4) := do
  let nameIndex : U2 ← read
  let name ← demand (pool.text nameIndex.toNat)
  let length : U4 ← read
  return (nameIndex, name, length)

/-- An attribute whose head is known. -/
def decodeRest (payload : AttributeKind → Nat → Decoder Payload) (nameIndex : U2) (name : String)
    (length : U4) : Decoder Attribute :=
  match AttributeKind.ofName? name with
  | some kind => do
    record (.decoding name length.toNat nameIndex.offset)
    let start ← offset
    let payload ← payload kind length.toNat
    let consumed := (← offset) - start
    if consumed = length.toNat then return ⟨nameIndex, name, length, payload⟩
    else throw (.attributeLength name length.toNat consumed)
  | none => do
    record (.skipping name length.toNat nameIndex.offset)
    skip length.toNat
    return ⟨nameIndex, name, length, .unknown⟩

theorem decodeEntry_eq (pool : Pool) (payload : AttributeKind → Nat → Decoder Payload) :
    decodeEntry pool payload = decodeHead pool >>= fun head => decodeRest payload head.1 head.2.1 head.2.2 := by
  have flat : decodeHead pool >>= (fun head => decodeRest payload head.1 head.2.1 head.2.2) = (do
      let nameIndex : U2 ← read
      let name ← demand (pool.text nameIndex.toNat)
      let length : U4 ← read
      decodeRest payload nameIndex name length) := by
    simp only [decodeHead, bind_assoc, pure_bind]
  rw [flat]
  rfl

/-- What a head is written as. -/
def Heads (pool : Pool) : Grammar (U2 × String × U4) := fun offset head bytes =>
  head.1.offset = offset ∧ head.2.2.offset = offset + 2 ∧
    bytes = Word.toBytes head.1.value ++ Word.toBytes head.2.2.value ∧
    pool.text head.1.toNat = .ok head.2.1

theorem Heads.length {pool : Pool} {offset : Nat} {head : U2 × String × U4} {bytes : Bytes}
    (written : Heads pool offset head bytes) : bytes.length = 6 := by
  obtain ⟨-, -, rfl, -⟩ := written
  simp

theorem decodeHead_reads (pool : Pool) : (decodeHead pool).Reads (Heads pool) := by
  refine (Reads.readThen fun nameIndex => .demandThen fun name => .map .read).congr
    fun offset head bytes => ⟨?_, ?_⟩
  · intro written
    obtain ⟨⟨number, place⟩, name, length⟩ := head
    obtain ⟨rfl, behind, rfl, named⟩ := written
    exact ⟨number, _, rfl, name, named, length, ⟨behind, rfl⟩, rfl⟩
  · intro written
    obtain ⟨number, _, rfl, name, named, length, ⟨behind, rfl⟩, rfl⟩ := written
    exact ⟨rfl, behind, rfl, named⟩

theorem decodeHead_silent (pool : Pool) : (decodeHead pool).Records fun later => later = [] :=
  have steps := additive_none.sequential
  steps.bind steps.read fun _ => steps.bind (steps.demand _) fun _ => steps.bind steps.read fun _ =>
    steps.pure _

section Rest

variable {payload : AttributeKind → Nat → Decoder Payload} {nameIndex : U2} {name : String} {length : U4}

/-- What becomes of an attribute of a known kind once its payload has been decoded. -/
def settle (nameIndex : U2) (name : String) (length : U4) (start : Nat) :
    EStateM.Result Error State Payload → EStateM.Result Error State Attribute
  | .ok payload after =>
    if after.cursor.offset - start = length.toNat then .ok ⟨nameIndex, name, length, payload⟩ after
    else .error (.attributeLength name length.toNat (after.cursor.offset - start)) after
  | .error cause after => .error cause after

theorem decodeRest_known {kind : AttributeKind} (known : AttributeKind.ofName? name = some kind)
    (s : State) : decodeRest payload nameIndex name length s =
      settle nameIndex name length s.cursor.offset
        (payload kind length.toNat (s.recording (.decoding name length.toNat nameIndex.offset))) := by
  unfold decodeRest
  rw [known]
  change EStateM.bind (payload kind length.toNat) _ (s.recording _) = _
  unfold EStateM.bind
  cases payload kind length.toNat (s.recording (.decoding name length.toNat nameIndex.offset)) with
  | error cause after => rfl
  | ok value after =>
    change (if after.cursor.offset - s.cursor.offset = length.toNat then _ else _ : Decoder Attribute) after =
      if _ then _ else _
    by_cases same : after.cursor.offset - s.cursor.offset = length.toNat
    · rw [if_pos same, if_pos same]
      rfl
    · rw [if_neg same, if_neg same]
      rfl

theorem decodeRest_unknown (unknown : AttributeKind.ofName? name = none) :
    decodeRest payload nameIndex name length = (do
      record (.skipping name length.toNat nameIndex.offset)
      skip length.toNat
      return ⟨nameIndex, name, length, .unknown⟩) := by
  unfold decodeRest
  rw [unknown]

end Rest

/-- How an attribute is decoded: by its kind, or by its length alone if it has none. -/
theorem decodeEntry_cases {pool : Pool} {payload : AttributeKind → Nat → Decoder Payload} {s after : State}
    {item : Attribute} (run : decodeEntry pool payload s = .ok item after) :
    ∃ nameIndex name length middle, decodeHead pool s = .ok (nameIndex, name, length) middle ∧
      ((∃ kind value, AttributeKind.ofName? name = some kind ∧
        payload kind length.toNat (middle.recording (.decoding name length.toNat nameIndex.offset)) =
          .ok value after ∧
        after.cursor.offset - middle.cursor.offset = length.toNat) ∨
      (AttributeKind.ofName? name = none ∧
        after.trace = middle.trace.push (.skipping name length.toNat nameIndex.offset))) := by
  rw [decodeEntry_eq] at run
  obtain ⟨⟨nameIndex, name, length⟩, middle, head, rest⟩ := bind_eq_ok.mp run
  refine ⟨nameIndex, name, length, middle, head, ?_⟩
  change decodeRest payload nameIndex name length middle = _ at rest
  cases known : AttributeKind.ofName? name with
  | none =>
    rw [decodeRest_unknown known] at rest
    obtain ⟨_, recorded, told, rest⟩ := bind_eq_ok.mp rest
    cases told
    obtain ⟨_, skipped, skip, rest⟩ := bind_eq_ok.mp rest
    cases rest
    exact .inr ⟨rfl, trace_onCursor skip⟩
  | some kind =>
    rw [decodeRest_known known] at rest
    cases ran : payload kind length.toNat
        (middle.recording (.decoding name length.toNat nameIndex.offset)) with
    | error cause reached =>
      rw [ran] at rest
      cases rest
    | ok value reached =>
      rw [ran, settle] at rest
      by_cases same : reached.cursor.offset - middle.cursor.offset = length.toNat
      · rw [if_pos same] at rest
        cases rest
        exact .inl ⟨kind, value, rfl, ran, same⟩
      · rw [if_neg same] at rest
        cases rest

end Layout
end ClassFormat
