import ClassFormat.Proofs.Linking

/-! Pool entries as bytes. A cell is a tag with the bytes behind it; which cells may stand in a pool
is said of the bytes alone, and what the layouts write for entries are just these cells. -/
namespace ClassFormat

/-- How many bytes stand behind a tag, where the tag alone decides it. -/
def Tag.fixedWidth? : Tag → Option Nat
  | utf8 => none
  | classRef | string | methodType | moduleRef | packageRef => some 2
  | methodHandle => some 3
  | integer | float | fieldRef | methodRef | interfaceMethodRef | nameAndType | dynamic
  | invokeDynamic => some 4
  | long | double => some 8

/-- An entry as it is written. -/
structure Cell where
  kind : Tag
  /-- The bytes behind the tag. -/
  payload : Bytes
  deriving DecidableEq, Repr

namespace Cell

def bytes (cell : Cell) : Bytes := cell.kind.byte :: cell.payload

/-- Whether the payload is just what the tag asks for. Text follows its own length. -/
def Complete (cell : Cell) : Prop :=
  match cell.kind.fixedWidth? with
  | some width => cell.payload.length = width
  | none => ∃ length content, cell.payload = length ++ content ∧ length.length = 2 ∧
      content.length = Bytes.toNat length ∧ (Text.Modified.decode? content).isSome

/-- The kinds of the entries in the slots that cells fill, from slot 1 on. The second slot of an
eight-byte number holds none. -/
def kindsOf (cells : List Cell) : List (Option Tag) :=
  cells.flatMap fun cell => if cell.kind.isWide then [some cell.kind, none] else [some cell.kind]

/-- The two-byte number at a place of the payload. -/
def number (cell : Cell) (place : Nat) : Nat := Bytes.toNat ((cell.payload.drop place).take 2)

/-- Whether there is an entry of one of the kinds in a slot. -/
def Leads (slots : List (Option Tag)) (slot : Nat) (kinds : List Tag) : Prop :=
  0 < slot ∧ ∃ kind ∈ kinds, slots[slot - 1]? = some (some kind)

/-- Whether the slots that a cell refers to hold what they must, be they before or behind it. -/
def Linked (slots : List (Option Tag)) (cell : Cell) : Prop :=
  match cell.kind with
  | .utf8 | .integer | .float | .long | .double => True
  | .classRef | .string | .methodType | .moduleRef | .packageRef => Leads slots (cell.number 0) [.utf8]
  | .fieldRef | .methodRef | .interfaceMethodRef =>
    Leads slots (cell.number 0) [.classRef] ∧ Leads slots (cell.number 2) [.nameAndType]
  | .nameAndType => Leads slots (cell.number 0) [.utf8] ∧ Leads slots (cell.number 2) [.utf8]
  | .methodHandle => ∃ kind : ReferenceKind,
      cell.payload.head? = some kind.byte ∧ Leads slots (cell.number 1) kind.targets
  | .dynamic | .invokeDynamic => Leads slots (cell.number 2) [.nameAndType]

/-- Whether the cell is what is written for the constant. -/
def Spells (cell : Cell) (constant : Constant) : Prop :=
  ∃ index offset, (Constant.layout index cell.kind).Writes .empty offset constant cell.payload

end Cell

/-! ### Which bytes a constant is written in -/

namespace Layout

/-- Whether any bytes will do if only there are so many of them. -/
def Fills (layout : Layout α) (width : Nat) : Prop :=
  ∀ offset bytes, (∃ value, layout.Writes .empty offset value bytes) ↔ bytes.length = width

namespace Fills

theorem word {κ : Type} [width : Word κ] : (Layout.word width).Fills (Word.width κ) := by
  intro offset bytes
  constructor
  · rintro ⟨value, -, rfl⟩
    exact Word.length_toBytes value.value
  · intro size
    exact ⟨⟨Word.ofBytes bytes, offset⟩, rfl, (Word.toBytes_ofBytes bytes size).symm⟩

theorem seq {first : Layout α} {second : Layout β} {one two : Nat} (head : first.Fills one)
    (tail : second.Fills two) : (first.seq second).Fills (one + two) := by
  intro offset bytes
  constructor
  · rintro ⟨value, xs, ys, rfl, front, back⟩
    rw [List.length_append, (head _ _).mp ⟨_, front⟩, (tail _ _).mp ⟨_, back⟩]
  · intro size
    have front : (bytes.take one).length = one := by
      rw [List.length_take]
      omega
    obtain ⟨a, written⟩ := (head offset (bytes.take one)).mpr front
    obtain ⟨b, behind⟩ := (tail (offset + (bytes.take one).length) (bytes.drop one)).mpr (by
      rw [List.length_drop]
      omega)
    exact ⟨(a, b), _, _, (List.take_append_drop one bytes).symm, written, behind⟩

theorem as {shape : Shape α β} {parts : Layout α} {width : Nat} (inner : parts.Fills width) :
    (parts.as shape).Fills width := by
  intro offset bytes
  rw [← inner offset bytes]
  constructor
  · rintro ⟨value, whole, -, written⟩
    exact ⟨whole, written⟩
  · rintro ⟨whole, written⟩
    exact ⟨_, whole, rfl, written⟩

end Fills
end Layout

open Layout.Fills in
theorem Constant.layout_fills (index : Nat) {kind : Tag} {width : Nat}
    (fixed : kind.fixedWidth? = some width) : (Constant.layout index kind).Fills width := by
  cases kind with
  | utf8 => cases fixed
  | fieldRef | methodRef | interfaceMethodRef | nameAndType | dynamic | invokeDynamic
  | methodHandle =>
    cases fixed
    exact as (seq word word)
  | _ =>
    cases fixed
    exact as word

theorem Constant.layout_text {index offset : Nat} {bytes : Bytes} :
    (∃ constant, (Constant.layout index .utf8).Writes .empty offset constant bytes) ↔
      ∃ length content, bytes = length ++ content ∧ length.length = 2 ∧
        content.length = Bytes.toNat length ∧ (Text.Modified.decode? content).isSome := by
  constructor
  · rintro ⟨constant, whole, -, content, chars, -, rfl, size, spelt, -⟩
    refine ⟨_, content, rfl, Word.length_toBytes _, ?_, by rw [spelt]; rfl⟩
    rw [size, Word.toNat_toBytes]
    rfl
  · rintro ⟨length, content, rfl, two, size, readable⟩
    obtain ⟨chars, spelt⟩ := Option.isSome_iff_exists.mp readable
    have same : Word.toBytes (Word.ofBytes length : UInt16) = length := Word.toBytes_ofBytes length two
    refine ⟨_, (⟨Word.ofBytes length, offset⟩, .ofList chars), rfl, content, chars, rfl, ?_, ?_, spelt,
      rfl⟩
    · rw [same]
    · rw [size, Scalar.toNat, Word.toNat_ofBytes length two]

/-- Complete cells are those that are written for some constant, wherever it stands. -/
theorem Cell.complete_iff (cell : Cell) (index offset : Nat) : cell.Complete ↔
    ∃ constant, (Constant.layout index cell.kind).Writes .empty offset constant cell.payload := by
  unfold Cell.Complete
  cases fixed : cell.kind.fixedWidth? with
  | some width => exact (Constant.layout_fills index fixed offset cell.payload).symm
  | none =>
    have text : cell.kind = .utf8 := by
      cases known : cell.kind <;> first | rfl | (rw [known] at fixed; cases fixed)
    rw [text]
    exact Constant.layout_text.symm

namespace Cell.Spells

variable {cell : Cell} {constant : Constant}

theorem complete (spells : cell.Spells constant) : cell.Complete := by
  obtain ⟨index, offset, written⟩ := spells
  exact (complete_iff cell index offset).mpr ⟨constant, written⟩

theorem kind (spells : cell.Spells constant) : constant.tag = cell.kind := by
  obtain ⟨index, offset, written⟩ := spells
  exact Constant.tag_of_writes written

/-- What a constant says of its own width is how many bytes it is written in. -/
theorem width (spells : cell.Spells constant) : constant.width = cell.payload.length := by
  have tag := spells.kind
  obtain ⟨index, offset, written⟩ := spells
  cases fixed : cell.kind.fixedWidth? with
  | some width =>
    rw [(Constant.layout_fills index fixed offset cell.payload).mp ⟨constant, written⟩]
    rw [← tag] at fixed
    cases constant <;> cases fixed <;> rfl
  | none =>
    rw [← tag] at fixed
    cases constant with
    | utf8 length text =>
      rw [← tag] at written
      obtain ⟨whole, same, content, chars, -, spelt, size, -⟩ := written
      cases same
      rw [spelt, List.length_append, Word.length_toBytes, size]
      rfl
    | _ => cases fixed

end Cell.Spells

/-! ### References -/

section References

variable {pool : Pool} {slots : List (Option Tag)}

theorem Cell.number_front (kind : Tag) (word : U2) (back : Bytes) :
    Cell.number ⟨kind, Word.toBytes word.value ++ back⟩ 0 = word.toNat := by
  have two : (Word.toBytes word.value).length = 2 := Word.length_toBytes _
  rw [Cell.number, List.drop_zero, List.take_left' two, Word.toNat_toBytes]
  rfl

theorem Cell.number_only (kind : Tag) (word : U2) :
    Cell.number ⟨kind, Word.toBytes word.value⟩ 0 = word.toNat := by
  rw [← Cell.number_front kind word [], List.append_nil]

theorem Cell.number_behind (kind : Tag) {κ : Type} [Word κ] (front : Scalar κ) (word : U2) :
    Cell.number ⟨kind, Word.toBytes front.value ++ Word.toBytes word.value⟩ (Word.width κ) =
      word.toNat := by
  rw [Cell.number, List.drop_left' (Word.length_toBytes front.value)]
  exact Cell.number_only kind word

/-- If slots hold the same kinds, a constant is linked if the cell that spells it is. -/
theorem Cell.Spells.linked_iff {cell : Cell} {constant : Constant} (spells : cell.Spells constant)
    (same : ∀ slot kinds, pool.Designates slot kinds ↔ Cell.Leads slots slot kinds) :
    constant.Linked pool ↔ cell.Linked slots := by
  obtain ⟨kind, payload⟩ := cell
  obtain ⟨index, offset, written⟩ := spells
  cases kind with
  | utf8 | integer | float | long | double =>
    obtain ⟨_, rfl, -⟩ := written
    rfl
  | classRef | string | methodType | moduleRef | packageRef =>
    obtain ⟨word, rfl, -, rfl⟩ := written
    simp only [Constant.Linked, Cell.Linked, same, Cell.number_only]
  | fieldRef | methodRef | interfaceMethodRef | nameAndType | dynamic | invokeDynamic =>
    obtain ⟨⟨one, two⟩, rfl, _, _, rfl, ⟨-, rfl⟩, -, rfl⟩ := written
    have second (kind : Tag) := Cell.number_behind kind one two
    simp only [Word.width_u2] at second
    simp only [Constant.Linked, Cell.Linked, same, Cell.number_front, second]
  | methodHandle =>
    obtain ⟨⟨known, target⟩, rfl, _, _, rfl, ⟨-, rfl⟩, -, rfl⟩ := written
    have leads := Cell.number_behind .methodHandle known target
    have first : (Word.toBytes known.value ++ Word.toBytes target.value).head? = some known.value := by
      rw [Word.toBytes_u1]
      rfl
    change Cell.number _ 1 = _ at leads
    simp only [Constant.Linked, Cell.Linked, same, leads, first, Option.some.injEq]
    exact exists_congr fun kind => and_congr_left' eq_comm

end References
end ClassFormat
