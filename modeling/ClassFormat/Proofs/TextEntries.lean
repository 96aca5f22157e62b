import ClassFormat.Attribute.Layout
import ClassFormat.Proofs.Described
import ClassFormat.Proofs.EncodedText

/-! What entries of text mean. An entry is accepted if its bytes are a text in one of the two encodings,
and its declared length tells in which, so length and text leave nothing of the entry open. -/
namespace ClassFormat

open Text

/-- The bytes of an entry that declares the length of its content. -/
def Entry.textBytes (content : Bytes) : Bytes :=
  1 :: (Word.toBytes (UInt16.ofNat content.length) ++ content)

/-- Somewhere an entry of this length and text was decoded out of these bytes. -/
def Entry.TextRead (bytes : Bytes) (length : Nat) (text : String) : Prop :=
  ∃ (pool : Pool) (slot : Nat) (before after : State) (entry : Entry) (declared : U2),
    (Entry.layout slot).decode pool before = .ok entry after ∧ entry.constant = .utf8 declared text ∧
      declared.toNat = length ∧ before.cursor.Passes bytes after.cursor

variable {pool : Pool} {slot : Nat}

theorem Cursor.Passes.unique {before after : Cursor} {one two : Bytes} (passed : before.Passes one after)
    (also : before.Passes two after) : one = two :=
  List.append_cancel_right (passed.rest.symm.trans also.rest)

theorem Entry.formed_of_writes {offset : Nat} {entry : Entry} {declared : U2} {text : String} {bytes : Bytes}
    (written : (Entry.layout slot).Writes pool offset entry bytes)
    (holds : entry.constant = .utf8 declared text) :
    ∃ content, content.length = declared.toNat ∧ bytes = Entry.textBytes content ∧
      Modified.decode? content = some text.toList := by
  rcases written with ⟨⟨tag, constant⟩, rfl, kind, rest, known, -, rfl, written⟩
  obtain rfl : constant = .utf8 declared text := holds
  obtain rfl : Tag.utf8 = kind := Constant.tag_of_writes written
  rcases written with ⟨⟨_, _⟩, same, content, chars, -, rfl, size, read, rfl⟩
  cases same
  have one : 1 = tag.value := Tag.ofByte?_eq_some_iff.mp known
  have length : UInt16.ofNat content.length = declared.value := by
    rw [size]
    exact Word.ofNat_toNat declared.value
  refine ⟨content, size, ?_, by rw [read, String.toList_ofList]⟩
  rw [textBytes, length, one]

theorem Entry.writes_text {content : Bytes} {chars : List Char} (short : content.length < 65536)
    (read : Modified.decode? content = some chars) (offset : Nat) :
    (Entry.layout slot).Writes pool offset
      ⟨slot, ⟨1, offset⟩, .utf8 ⟨UInt16.ofNat content.length, offset + 1⟩ (.ofList chars)⟩
      (Entry.textBytes content) := by
  have size : content.length = (UInt16.ofNat content.length).toNat := (Nat.mod_eq_of_lt short).symm
  exact ⟨(⟨1, offset⟩, _), rfl, .utf8, _, rfl, rfl, rfl, (_, _), rfl, content, chars, rfl, rfl, size, read,
    rfl⟩

/-- Entries of text are the texts of both encodings, behind their lengths. -/
theorem Entry.textRead_iff {bytes : Bytes} {length : Nat} {text : String} :
    Entry.TextRead bytes length text ↔ length < 65536 ∧ ∃ content, content.length = length ∧
      bytes = Entry.textBytes content ∧ Modified.decode? content = some text.toList := by
  constructor
  · rintro ⟨pool, slot, before, after, entry, declared, run, holds, rfl, passed⟩
    rcases (Layout.decode_reads pool _).sound run with ⟨found, also, written⟩
    obtain rfl := passed.unique also
    exact ⟨declared.value.toNat_lt, Entry.formed_of_writes written holds⟩
  · rintro ⟨short, content, rfl, rfl, read⟩
    let start : Cursor := ⟨0, 0, Entry.textBytes content⟩
    have passed : start.Passes (Entry.textBytes content) ⟨0, 0 + (Entry.textBytes content).length, []⟩ :=
      ⟨rfl, rfl, (List.append_nil _).symm⟩
    rcases (Layout.decode_reads .empty (Entry.layout 1)).complete (Entry.writes_text short read 0) passed #[] with
      ⟨recorded, run⟩
    rw [String.ofList_toList] at run
    exact ⟨.empty, 1, _, _, _, _, run, rfl, Nat.mod_eq_of_lt short, passed⟩

/-- Two entries of one length and one text have the same bytes. -/
theorem Entry.TextRead.determined {one two : Bytes} {length : Nat} {text : String}
    (read : Entry.TextRead one length text) (also : Entry.TextRead two length text) : one = two := by
  rcases Entry.textRead_iff.mp read with ⟨-, first, rfl, rfl, decoded⟩
  rcases Entry.textRead_iff.mp also with ⟨-, second, sized, rfl, decodes⟩
  rw [Modified.eq_of_decode? decoded decodes sized.symm]

/-- Text of any size is read as an entry would be. -/
theorem Payload.debug_text {content rest : Bytes} {chars : List Char} (read : Modified.decode? content = some chars)
    (element : Layout Element) (attributes : Layout Table) (base position : Nat) (trace : Array Event) :
    ∃ recorded, (Payload.layout element attributes .sourceDebugExtension content.length).decode pool
        ⟨⟨base, position, content ++ rest⟩, trace⟩ =
      .ok (.sourceDebugExtension (.ofList chars)) ⟨⟨base, position + content.length, rest⟩, recorded⟩ := by
  let start : Cursor := ⟨base, position, content ++ rest⟩
  have passed : start.Passes content ⟨base, position + content.length, rest⟩ := ⟨rfl, rfl, rfl⟩
  have written : (Payload.layout element attributes .sourceDebugExtension content.length).Writes pool start.offset
      (.sourceDebugExtension (.ofList chars)) content := ⟨_, rfl, rfl, by rw [read, Option.getD_some]⟩
  exact (Layout.decode_reads pool _).complete written passed trace

/-- How faithfully entries represent text. -/
structure Entry.TextFidelity : Prop where
  /-- What is UTF-8 is accepted as that and all else only as modified UTF-8. -/
  accepted : ∀ (bytes : Bytes) (length : Nat) (text : String), Entry.TextRead bytes length text ↔
    length ≤ 65535 ∧ ∃ content : Bytes, content.length = length ∧ bytes = Entry.textBytes content ∧
      (content = text.toList.flatMap String.utf8EncodeChar ∨ content = Modified.encode text.toList)
  encoded : ∀ text : List Char, (Modified.encode text).length ≤ 65535 →
    ∀ (pool : Pool) (slot base position : Nat) (rest : Bytes) (trace : Array Event),
      let bytes := Entry.textBytes (Modified.encode text)
      let length : U2 := ⟨UInt16.ofNat (Modified.encode text).length, base + position + 1⟩
      ∃ recorded, (Entry.layout slot).decode pool ⟨⟨base, position, bytes ++ rest⟩, trace⟩ =
        .ok ⟨slot, ⟨1, base + position⟩, .utf8 length (.ofList text)⟩
          ⟨⟨base, position + bytes.length, rest⟩, recorded⟩
  determined : ∀ (one two : Bytes) (length : Nat) (text : String),
    Entry.TextRead one length text → Entry.TextRead two length text → one = two
  /-- Bytes that an entry accepts have the same text where broken text is read as well. -/
  loose : ∀ (content : Bytes) (text : String), Entry.TextRead (Entry.textBytes content) content.length text →
    ∀ (element : Layout Element) (attributes : Layout Table) (pool : Pool) (base position : Nat) (rest : Bytes)
      (trace : Array Event),
      ∃ recorded, (Payload.layout element attributes .sourceDebugExtension content.length).decode pool
          ⟨⟨base, position, content ++ rest⟩, trace⟩ =
        .ok (.sourceDebugExtension text) ⟨⟨base, position + content.length, rest⟩, recorded⟩

theorem Entry.text_fidelity : Entry.TextFidelity where
  accepted bytes length text := by
    simp only [Entry.textRead_iff, Modified.decode?_eq_some, Nat.lt_succ_iff]
  encoded := by
    intro text short pool slot base position rest trace bytes length
    let start : Cursor := ⟨base, position, bytes ++ rest⟩
    have passed : start.Passes bytes ⟨base, position + bytes.length, rest⟩ := ⟨rfl, rfl, rfl⟩
    have read := Modified.decode?_encode text
    apply (Layout.decode_reads pool (Entry.layout slot)).complete _ passed trace
    exact Entry.writes_text (Nat.lt_succ_of_le short) read start.offset
  determined _ _ _ _ read also := read.determined also
  loose content text read element attributes pool base position rest trace := by
    rcases Entry.textRead_iff.mp read with ⟨-, other, sized, same, decoded⟩
    have alike : content = other := by
      rw [Entry.textBytes, Entry.textBytes, sized] at same
      exact List.append_cancel_left (List.cons_eq_cons.mp same).2
    subst alike
    have back : String.ofList text.toList = text := String.ofList_toList
    rw [← back]
    exact Payload.debug_text decoded element attributes base position trace

end ClassFormat
