import ClassFormat.Proofs.TextEntries

/-! Which bytes are accepted as text. The format asks for modified UTF-8, in which a surrogate need not be
one of a pair. What is accepted differs from that in two ways: UTF-8 is accepted as well, and surrogates
have to be in pairs. -/
namespace ClassFormat

namespace Text.Modified

/-- What the format has for one code unit. -/
inductive UnitForm : Bytes → Prop where
  | zero : UnitForm [0xc0, 0x80]
  | one (unit : Nat) : 0x01 ≤ unit → unit ≤ 0x7f → UnitForm [.ofNat unit]
  | two (unit : Nat) : 0x80 ≤ unit → unit ≤ 0x7ff →
    UnitForm [.ofNat (0xc0 + unit / 64), .ofNat (0x80 + unit % 64)]
  | three (unit : Nat) : 0x800 ≤ unit → unit ≤ 0xffff →
    UnitForm [.ofNat (0xe0 + unit / 4096), .ofNat (0x80 + unit / 64 % 64), .ofNat (0x80 + unit % 64)]

/-- Modified UTF-8 as the format has it: any code units, one behind the other. -/
inductive WellFormed : Bytes → Prop where
  | nil : WellFormed []
  | cons {form rest : Bytes} : UnitForm form → WellFormed rest → WellFormed (form ++ rest)

/-- Code units in which surrogates only come in pairs, a high one and a low one. -/
inductive Paired : List Nat → Prop where
  | nil : Paired []
  | single {unit : Nat} {rest : List Nat} : ¬ (0xd800 ≤ unit ∧ unit < 0xe000) → Paired rest →
    Paired (unit :: rest)
  | pair {high low : Nat} {rest : List Nat} : 0xd800 ≤ high → high < 0xdc00 → 0xdc00 ≤ low → low < 0xe000 →
    Paired rest → Paired (high :: low :: rest)

/-- UTF-8 as it stands. -/
def Standard (bytes : Bytes) : Prop := ∃ text : List Char, bytes = text.flatMap String.utf8EncodeChar

/-- The code units that these bytes are the forms of. -/
structure Spelling (units : List Nat) (bytes : Bytes) : Prop where
  bound : ∀ unit ∈ units, unit < 0x10000
  bytes : bytes = units.flatMap encodeUnit

section Units

variable {bytes form : Bytes} {units others : List Nat}

theorem unitForm_iff : UnitForm form ↔ ∃ unit, unit < 0x10000 ∧ form = encodeUnit unit := by
  constructor
  · intro known
    cases known with
    | zero => exact ⟨0, by decide, rfl⟩
    | one unit low high =>
      refine ⟨unit, by omega, ?_⟩
      rw [encodeUnit, if_neg (by omega), if_pos (by omega)]
    | two unit low high =>
      refine ⟨unit, by omega, ?_⟩
      rw [encodeUnit, if_neg (by omega), if_neg (by omega), if_pos (by omega)]
    | three unit low high =>
      refine ⟨unit, by omega, ?_⟩
      rw [encodeUnit, if_neg (by omega), if_neg (by omega), if_neg (by omega)]
  · rintro ⟨unit, bound, rfl⟩
    unfold encodeUnit
    split
    next => exact .zero
    split
    next => exact .one unit (by omega) (by omega)
    split
    next => exact .two unit (by omega) (by omega)
    next => exact .three unit (by omega) (by omega)

theorem wellFormed_iff : WellFormed bytes ↔ ∃ units, Spelling units bytes := by
  constructor
  · intro formed
    induction formed with
    | nil => exact ⟨[], by simp, rfl⟩
    | cons known _ ih =>
      obtain ⟨unit, small, rfl⟩ := unitForm_iff.mp known
      obtain ⟨units, bound, rfl⟩ := ih
      exact ⟨unit :: units, List.forall_mem_cons.mpr ⟨small, bound⟩, rfl⟩
  · rintro ⟨units, bound, rfl⟩
    induction units with
    | nil => exact .nil
    | cons unit later ih =>
      obtain ⟨small, others⟩ := List.forall_mem_cons.mp bound
      exact .cons (unitForm_iff.mpr ⟨unit, small, rfl⟩) (ih others)

/-- No bytes are the forms of two lists of code units. -/
theorem Spelling.unique (one : Spelling units bytes) (other : Spelling others bytes) : units = others := by
  have first := scan_encodeUnits one.bound
  have second := scan_encodeUnits other.bound
  rw [← one.bytes] at first
  rw [← other.bytes, first] at second
  exact (List.map_inj_right fun _ _ => Option.some.inj).mp second

/-- Modified UTF-8 has no zeros and none of the bytes that begin four. -/
theorem WellFormed.byte {byte : UInt8} (formed : WellFormed bytes) (member : byte ∈ bytes) :
    byte ≠ 0 ∧ byte < 0xf0 := by
  induction formed with
  | nil => cases member
  | cons known _ ih =>
    rcases List.mem_append.mp member with here | later
    · simp only [ne_eq, ← UInt8.toNat_inj, UInt8.lt_iff_toNat_lt]
      cases known with
      | zero =>
        simp only [List.mem_cons, List.not_mem_nil, or_false] at here
        rcases here with rfl | rfl <;> decide
      | one unit low high =>
        obtain rfl := List.mem_singleton.mp here
        rw [byte_toNat (by omega)]
        exact ⟨Nat.ne_of_gt low, Nat.lt_of_le_of_lt high (by decide)⟩
      | two unit low high =>
        simp only [List.mem_cons, List.not_mem_nil, or_false] at here
        rcases here with rfl | rfl <;> rw [byte_toNat (by omega)] <;> simp only [UInt8.reduceToNat] <;> omega
      | three unit low high =>
        simp only [List.mem_cons, List.not_mem_nil, or_false] at here
        rcases here with rfl | rfl | rfl <;> rw [byte_toNat (by omega)] <;>
          simp only [UInt8.reduceToNat] <;> omega
    · exact ih later

theorem paired_iff (bound : ∀ unit ∈ units, unit < 0x10000) :
    Paired units ↔ ∃ text : List Char, units = text.flatMap unitsOf := by
  constructor
  · intro paired
    induction paired with
    | nil => exact ⟨[], rfl⟩
    | @single unit rest plain _ ih =>
      obtain ⟨small, others⟩ := List.forall_mem_cons.mp bound
      obtain ⟨text, rfl⟩ := ih others
      have notHigh : ¬ isHigh unit = true := by
        simp only [isHigh, Bool.and_eq_true, decide_eq_true_eq]
        omega
      have notLow : ¬ isLow unit = true := by
        simp only [isLow, Bool.and_eq_true, decide_eq_true_eq]
        omega
      exact ⟨Char.ofNat unit :: text, by rw [List.flatMap_cons, unitsOf_ofNat small notHigh notLow]; rfl⟩
    | @pair high low rest from1 to1 from2 to2 _ ih =>
      obtain ⟨-, others⟩ := List.forall_mem_cons.mp bound
      obtain ⟨text, rfl⟩ := ih (List.forall_mem_cons.mp others).2
      have isHigh : isHigh high = true := by simp [isHigh, from1, to1]
      have isLow : isLow low = true := by simp [isLow, from2, to2]
      exact ⟨join high low :: text, by rw [List.flatMap_cons, unitsOf_join isHigh isLow]; rfl⟩
  · rintro ⟨text, rfl⟩
    clear bound
    induction text with
    | nil => exact .nil
    | cons char rest ih =>
      have range := char_cases char
      rw [List.flatMap_cons, unitsOf]
      split
      next first => exact .single (by omega) ih
      next beyond => exact .pair (by omega) (by omega) (by omega) (by omega) ih

/-- A text has no other units than its characters have, and its surrogates are in pairs. -/
theorem spelling_encode (text : List Char) : Spelling (text.flatMap unitsOf) (encode text) where
  bound unit member := by
    obtain ⟨char, -, part⟩ := List.mem_flatMap.mp member
    exact unitsOf_lt part
  bytes := rfl

theorem exists_encode :
    (∃ text : List Char, bytes = encode text) ↔ ∃ units, Spelling units bytes ∧ Paired units := by
  constructor
  · rintro ⟨text, rfl⟩
    have spelt := spelling_encode text
    exact ⟨_, spelt, (paired_iff spelt.bound).mpr ⟨text, rfl⟩⟩
  · rintro ⟨units, ⟨bound, rfl⟩, paired⟩
    obtain ⟨text, rfl⟩ := (paired_iff bound).mp paired
    exact ⟨text, rfl⟩

end Units

section Bytes

variable {bytes : Bytes}

/-- In UTF-8 only zeros and characters beyond the first plane are written otherwise. -/
theorem encode_eq_of_bytes {text : List Char}
    (plain : ∀ byte ∈ text.flatMap String.utf8EncodeChar, byte ≠ 0 ∧ byte < 0xf0) :
    encode text = text.flatMap String.utf8EncodeChar := by
  induction text with
  | nil => rfl
  | cons char rest ih =>
    rw [List.flatMap_cons] at plain ⊢
    rw [encode_cons, ih fun byte member => plain byte (List.mem_append_right _ member)]
    congr 1
    have head := fun byte member => plain byte (List.mem_append_left _ member)
    rw [← Utf8.encodeNumber_toNat] at head ⊢
    have nonzero : char.toNat ≠ 0 := by
      intro zero
      rw [zero] at head
      exact (head 0 List.mem_cons_self).1 rfl
    have first : char.toNat < 0x10000 := by
      apply Nat.lt_of_not_le
      intro beyond
      have range := char_cases char
      rw [Utf8.encodeNumber, if_neg (by omega), if_neg (by omega), if_neg (by omega)] at head
      have low := (head _ List.mem_cons_self).2
      rw [UInt8.lt_iff_toNat_lt, byte_toNat (by omega)] at low
      exact Nat.not_lt_of_le (Nat.le_add_right _ _) low
    rw [unitsOf, if_pos first, List.flatMap_singleton, encodeUnit_eq nonzero first]

/-- What is accepted: UTF-8, or modified UTF-8 without single surrogates. -/
theorem decode?_isSome : (decode? bytes).isSome ↔
    Standard bytes ∨ ∃ units, Spelling units bytes ∧ Paired units := by
  simp only [Option.isSome_iff_exists, decode?_eq_some, exists_or, exists_encode, Standard]

/-- UTF-8 is modified UTF-8 in pairs, if none of its bytes stands in the way. -/
theorem Standard.spelling (standard : Standard bytes) (plain : ∀ byte ∈ bytes, byte ≠ 0 ∧ byte < 0xf0) :
    ∃ units, Spelling units bytes ∧ Paired units := by
  obtain ⟨text, rfl⟩ := standard
  exact exists_encode.mp ⟨text, (encode_eq_of_bytes plain).symm⟩

/-- More is accepted than the format has where UTF-8 has a zero or four bytes for a character. -/
theorem accepted_beyond : (decode? bytes).isSome ∧ ¬ WellFormed bytes ↔
    Standard bytes ∧ ∃ byte ∈ bytes, byte = 0 ∨ 0xf0 ≤ byte := by
  constructor
  · rintro ⟨accepted, broken⟩
    rcases decode?_isSome.mp accepted with standard | ⟨units, spelt, -⟩
    · refine ⟨standard, Classical.byContradiction fun none => ?_⟩
      simp only [not_exists, not_and, not_or, UInt8.not_le] at none
      obtain ⟨units, spelt, -⟩ := standard.spelling none
      exact broken (wellFormed_iff.mpr ⟨units, spelt⟩)
    · exact absurd (wellFormed_iff.mpr ⟨units, spelt⟩) broken
  · rintro ⟨standard, byte, member, special⟩
    refine ⟨decode?_isSome.mpr (.inl standard), fun formed => ?_⟩
    obtain ⟨nonzero, low⟩ := formed.byte member
    rcases special with zero | high
    · exact nonzero zero
    · exact UInt8.not_le.mpr low high

/-- Less is accepted than the format has where a surrogate is not one of a pair. -/
theorem refused_within : WellFormed bytes ∧ ¬ (decode? bytes).isSome ↔
    ∃ units, Spelling units bytes ∧ ¬ Paired units := by
  constructor
  · rintro ⟨formed, refused⟩
    obtain ⟨units, spelt⟩ := wellFormed_iff.mp formed
    exact ⟨units, spelt, fun paired => refused (decode?_isSome.mpr (.inr ⟨units, spelt, paired⟩))⟩
  · rintro ⟨units, spelt, single⟩
    have formed := wellFormed_iff.mpr ⟨units, spelt⟩
    refine ⟨formed, fun accepted => single ?_⟩
    have pairs : ∃ units, Spelling units bytes ∧ Paired units := by
      rcases decode?_isSome.mp accepted with standard | pairs
      · exact standard.spelling fun byte member => formed.byte member
      · exact pairs
    obtain ⟨others, also, paired⟩ := pairs
    rwa [spelt.unique also]

/-- With no zeros, no bytes that begin four and no single surrogates, what is accepted is what the format has. -/
theorem isSome_iff_wellFormed (plain : ∀ byte ∈ bytes, byte ≠ 0 ∧ byte < 0xf0)
    (paired : ∀ units, Spelling units bytes → Paired units) : (decode? bytes).isSome ↔ WellFormed bytes := by
  constructor
  · intro accepted
    refine Classical.byContradiction fun broken => ?_
    obtain ⟨-, byte, member, special⟩ := accepted_beyond.mp ⟨accepted, broken⟩
    obtain ⟨nonzero, low⟩ := plain byte member
    exact special.elim nonzero (UInt8.not_le.mpr low)
  · intro formed
    refine Classical.byContradiction fun failed => ?_
    obtain ⟨units, spelt, single⟩ := refused_within.mp ⟨formed, failed⟩
    exact single (paired units spelt)

end Bytes

end Text.Modified

open Text Modified

section Entries

variable {pool : Pool} {slot : Nat} {content : Bytes}

/-- A broken text is complained about with the slot of its entry, whatever comes behind it. -/
theorem Entry.decode_malformed (short : content.length < 65536) (refused : decode? content = none)
    (base position : Nat) (rest : Bytes) (trace : Array Event) :
    ∃ after, (Entry.layout slot).decode pool ⟨⟨base, position, Entry.textBytes content ++ rest⟩, trace⟩ =
      .error (.malformedText slot) after := by
  let length : U2 := ⟨UInt16.ofNat content.length, base + (position + 1)⟩
  have size : length.toNat = content.length := Nat.mod_eq_of_lt short
  have first : (Cursor.mk base position (textBytes content ++ rest)).read =
      (.ok (⟨1, base + position⟩ : U1),
        ⟨base, position + 1, Word.toBytes (UInt16.ofNat content.length) ++ content ++ rest⟩) :=
    Cursor.read_eq_ok.mpr ⟨rfl, rfl, rfl, rfl⟩
  have second : (Cursor.mk base (position + 1)
      (Word.toBytes (UInt16.ofNat content.length) ++ content ++ rest)).read =
        (.ok length, ⟨base, position + 3, content ++ rest⟩) :=
    Cursor.read_eq_ok.mpr ⟨rfl, rfl, rfl, List.append_assoc _ _ _⟩
  have third : (Cursor.mk base (position + 3) (content ++ rest)).take content.length =
      (.ok content, ⟨base, position + 3 + content.length, rest⟩) :=
    Cursor.take_eq_ok.mpr ⟨rfl, rfl, rfl, rfl⟩
  have known : Tag.ofByte? 1 = some .utf8 := rfl
  refine ⟨⟨⟨base, position + 3 + content.length, rest⟩, trace⟩, ?_⟩
  simp only [Entry.layout, Layout.decode, Constant.layout, Layout.decodeText, bind, EStateM.bind, Decoder.read,
    Decoder.take, Decoder.onCursor, first, known, second, size, third, refused]
  rfl

theorem Entry.decode_wellRead (short : content.length < 65536) (accepted : (decode? content).isSome)
    (base position : Nat) (rest : Bytes) (trace : Array Event) :
    ∃ entry after, (Entry.layout slot).decode pool ⟨⟨base, position, Entry.textBytes content ++ rest⟩, trace⟩ =
      .ok entry after := by
  obtain ⟨chars, read⟩ := Option.isSome_iff_exists.mp accepted
  let start : Cursor := ⟨base, position, textBytes content ++ rest⟩
  have passed : start.Passes (textBytes content) ⟨base, position + (textBytes content).length, rest⟩ :=
    ⟨rfl, rfl, rfl⟩
  have written : (Entry.layout slot).Writes pool start.offset _ (textBytes content) :=
    Entry.writes_text short read start.offset
  obtain ⟨recorded, run⟩ := (Layout.decode_reads pool (Entry.layout slot)).complete written passed trace
  exact ⟨_, _, run⟩

/-- An entry is decoded if its content can be read as text, and is complained about otherwise. -/
theorem Entry.decode_cases (short : content.length < 65536) (base position : Nat) (rest : Bytes)
    (trace : Array Event) {outcome : EStateM.Result Error State Entry}
    (run : (Entry.layout slot).decode pool ⟨⟨base, position, Entry.textBytes content ++ rest⟩, trace⟩ = outcome) :
    ((∃ entry after, outcome = .ok entry after) ↔ (decode? content).isSome) ∧
    ((∃ after, outcome = .error (.malformedText slot) after) ↔ ¬ (decode? content).isSome) := by
  cases readable : (decode? content).isSome with
  | true =>
    obtain ⟨entry, after, passed⟩ := decode_wellRead short readable base position rest trace
    obtain rfl := run.symm.trans passed
    simp
  | false =>
    have refused : decode? content = none := by simpa using readable
    obtain ⟨after, failed⟩ := decode_malformed short refused base position rest trace
    obtain rfl := run.symm.trans failed
    simp

/-- Whether an entry with this content is accepted, and where that is not what the format asks for. -/
structure Entry.TextAcceptance (slot : Nat) (content : Bytes) (outcome : EStateM.Result Error State Entry) :
    Prop where
  accepted : (∃ entry after, outcome = .ok entry after) ↔
    Standard content ∨ ∃ units, Spelling units content ∧ Paired units
  malformed : (∃ after, outcome = .error (.malformedText slot) after) ↔ ¬ ∃ entry after, outcome = .ok entry after
  /-- What is accepted that is not modified UTF-8 is UTF-8 with a zero or with a character of four bytes. -/
  beyond : ((∃ entry after, outcome = .ok entry after) ∧ ¬ WellFormed content) ↔
    Standard content ∧ ∃ byte ∈ content, byte = 0 ∨ 0xf0 ≤ byte
  /-- What is modified UTF-8 and not accepted has a surrogate that is not one of a pair. -/
  refused : (WellFormed content ∧ ¬ ∃ entry after, outcome = .ok entry after) ↔
    ∃ units, Spelling units content ∧ ¬ Paired units
  /-- Where there is neither, what is accepted is what the format asks for. -/
  agrees : (∀ byte ∈ content, byte ≠ 0 ∧ byte < 0xf0) → (∀ units, Spelling units content → Paired units) →
    ((∃ entry after, outcome = .ok entry after) ↔ WellFormed content)

/-- An entry of text is accepted if its content is UTF-8 or is modified UTF-8 with all surrogates in pairs. -/
theorem Entry.text_acceptance (pool : Pool) (slot : Nat) (content : Bytes) (short : content.length ≤ 65535)
    (base position : Nat) (rest : Bytes) (trace : Array Event) : Entry.TextAcceptance slot content
      ((Entry.layout slot).decode pool ⟨⟨base, position, Entry.textBytes content ++ rest⟩, trace⟩) := by
  obtain ⟨taken, complained⟩ := decode_cases (Nat.lt_succ_of_le short) base position rest trace
    (rfl : (Entry.layout slot).decode pool _ = _)
  have beyond : _ ∧ ¬ WellFormed content ↔ _ := accepted_beyond
  have refused : WellFormed content ∧ _ ↔ _ := refused_within
  rw [← taken] at complained beyond refused
  exact {
    accepted := taken.trans decode?_isSome
    malformed := complained
    beyond
    refused
    agrees := fun plain paired => taken.trans (isSome_iff_wellFormed plain paired) }

/-- A pair of surrogates is accepted. -/
theorem Entry.text_acceptance_pair : [0xed, 0xa0, 0xbd, 0xed, 0xb8, 0x80].length ≤ 65535 ∧
    Entry.TextAcceptance 1 [0xed, 0xa0, 0xbd, 0xed, 0xb8, 0x80] ((Entry.layout 1).decode .empty
      ⟨.ofBytes (Entry.textBytes [0xed, 0xa0, 0xbd, 0xed, 0xb8, 0x80] ++ []), #[]⟩) :=
  ⟨by decide, Entry.text_acceptance .empty 1 _ (by decide) 0 0 [] #[]⟩

/-- A zero by itself is accepted, which is not modified UTF-8, and a high surrogate by itself is not, which is. -/
theorem Entry.text_zero_and_surrogate :
    ((∃ entry after, (Entry.layout 1).decode .empty ⟨.ofBytes (Entry.textBytes [0] ++ []), #[]⟩ =
      .ok entry after) ∧ ¬ WellFormed [0]) ∧
    (WellFormed [0xed, 0xa0, 0x80] ∧ ∃ after, (Entry.layout 1).decode .empty
      ⟨.ofBytes (Entry.textBytes [0xed, 0xa0, 0x80] ++ []), #[]⟩ = .error (.malformedText 1) after) := by
  have zero : Standard [0] ∧ ∃ byte ∈ ([0] : Bytes), byte = 0 ∨ 0xf0 ≤ byte :=
    ⟨⟨[Char.ofNat 0], rfl⟩, 0, List.mem_singleton_self 0, .inl rfl⟩
  have single : Spelling [0xd800] [0xed, 0xa0, 0x80] ∧ ¬ Paired [0xd800] := by
    refine ⟨⟨by simp, rfl⟩, fun paired => ?_⟩
    cases paired with
    | single plain => exact plain (by decide)
  obtain ⟨accepted, broken⟩ := accepted_beyond.mpr zero
  obtain ⟨formed, refused⟩ := refused_within.mpr ⟨_, single⟩
  refine ⟨⟨decode_wellRead (by decide) accepted 0 0 [] #[], broken⟩, formed, ?_⟩
  exact decode_malformed (by decide) (by simpa using refused) 0 0 [] #[]

end Entries

end ClassFormat
