import ClassFormat.Proofs.Composition
import ClassFormat.Proofs.Keeping
import ClassFormat.Proofs.Placing
import Mathlib.Algebra.GroupWithZero.Nat

/-! How many bytes a value fills. The layout tells it from the value alone, without the bytes that the value
was decoded from, and these are as many wherever attribute tables are made of attributes. -/
namespace ClassFormat

namespace Layout

/-- How many bytes a value fills. A table reaches up to the attribute that stops last, since one that was
overwritten has filled bytes as well. -/
def size : Layout α → α → Nat
  | nothing => fun _ => 0
  | word width => fun _ => width.width
  | flags _ | index _ => fun _ => 2
  | indexPair _ _ => fun _ => 4
  | seq first second => fun value => first.size value.1 + second.size value.2
  | as shape parts => fun value => ((shape.parts? value).map parts.size).getD 0
  | times _ item => fun values => (values.map item.size).sum
  | counted width item => fun value => width.width + (value.items.map item.size).sum
  | tagged tagging body => fun value =>
    1 + ((tagging.ofByte? value.1.value).map fun kind => (body kind).size value.2).getD 0
  | text _ => fun value => 2 + value.1.toNat
  | looseText length => fun _ => length
  | code => fun value => 4 + Instruction.totalWidth value.2.toList
  | entry _ => fun value => 6 + value.length.toNat
  | table _ => fun value => value.stop - value.count.offset
  | nested inner => inner.size
  | tooDeep _ => fun _ => 0

/-! ### What is written fills as much -/

section Sizes

variable {pool : Pool} {offset : Nat} {bytes : Bytes}

theorem length_of_each {item : Grammar α} {size : α → Nat} {values : List α}
    (written : item.each offset values bytes)
    (fills : ∀ offset value bytes, item offset value bytes → bytes.length = size value) :
    bytes.length = (values.map size).sum := by
  induction values generalizing offset bytes with
  | nil =>
    obtain rfl : bytes = [] := written
    rfl
  | cons value rest ih =>
    obtain ⟨xs, ys, rfl, head, tail⟩ := written
    rw [List.length_append, fills _ _ _ head, ih tail, List.map_cons, List.sum_cons]

theorem length_of_word {κ : Type} [Word κ] {scalar : Scalar κ} (written : Grammar.word offset scalar bytes) :
    bytes.length = Word.width κ := by
  rw [written.2, Word.length_toBytes]

theorem length_of_code {value : U4 × Array Instruction} (written : Grammar.code offset value bytes) :
    bytes.length = 4 + Instruction.totalWidth value.2.toList := by
  obtain ⟨content, -, rfl, -, cut⟩ := written
  rw [List.length_append, Word.length_toBytes, Word.width_u4,
    Instruction.length_of_cut (Instruction.decodeAll_eq_ok.mp cut)]

theorem length_of_entry {payload : AttributeKind → Nat → Grammar Payload} {item : Attribute}
    (written : Grammar.entry pool payload offset item bytes) : bytes.length = 6 + item.length.toNat := by
  obtain ⟨content, -, -, rfl, -, size, -⟩ := written
  simp only [List.length_append, Word.length_toBytes, Word.width_u2, Word.width_u4, size]
  omega

/-- All attributes that are written for a table are needed to tell where it stops. -/
theorem length_of_table {payload : AttributeKind → Nat → Grammar Payload} {held : Table}
    (written : Grammar.table (Grammar.entry pool payload) offset held bytes) :
    bytes.length = held.stop - held.count.offset := by
  obtain ⟨all, content, rfl, rfl, size, kept, each⟩ := written
  have stop := Table.stop_of_each kept
    (Grammar.each_mono (fun _ _ _ written => Attribute.stop_of_entry written) each)
  rw [stop, Scalar.stop, List.length_append, Word.length_toBytes]
  change _ = held.count.offset + Word.width UInt16 + content.length - held.count.offset
  omega

/-- All attributes that are written for a table fill it, those that are overwritten included. -/
theorem exists_filling_of_table {payload : AttributeKind → Nat → Grammar Payload} {held : Table}
    (written : Grammar.table (Grammar.entry pool payload) offset held bytes) : ∃ all, held.Keeps all ∧
      bytes.length = 2 + (all.map fun item => 6 + item.length.toNat).sum := by
  obtain ⟨all, content, -, rfl, count, kept, each⟩ := written
  refine ⟨all, Table.keeps_collect count kept, ?_⟩
  rw [List.length_append, Word.length_toBytes, Word.width_u2,
    length_of_each each fun _ _ _ => length_of_entry]

/-- A value fills as many bytes as were written for it. -/
theorem size_of_writes {limit levels : Nat} {layout : Layout α} {value : α}
    (levelled : layout.Levelled limit levels) (written : layout.Writes pool offset value bytes) :
    bytes.length = layout.size value := by
  induction layout generalizing levels offset bytes with
  | nothing => exact congrArg List.length written
  | word width => exact @length_of_word _ _ _ width _ written
  | flags set =>
    obtain ⟨-, bits, rfl, -⟩ := written
    exact Word.length_toBytes bits
  | index target => exact length_of_word written.1
  | indexPair first second =>
    obtain ⟨xs, ys, rfl, head, tail, -, -⟩ := written
    rw [List.length_append, length_of_word head, length_of_word tail]
    rfl
  | seq first second first_ih second_ih =>
    obtain ⟨xs, ys, rfl, head, tail⟩ := written
    rw [List.length_append, first_ih levelled.1 head, second_ih levelled.2 tail, size]
  | as shape parts ih =>
    obtain ⟨whole, rfl, inner⟩ := written
    simp only [ih levelled inner, size, shape.parts?_make, Option.map_some, Option.getD_some]
  | times n item ih => exact length_of_each written.2 fun _ _ _ => ih levelled
  | counted width item ih =>
    obtain ⟨xs, ys, rfl, head, -, each⟩ := written
    rw [List.length_append, @length_of_word _ _ _ width _ head, length_of_each each fun _ _ _ => ih levelled,
      size]
  | tagged tagging body ih =>
    obtain ⟨kind, rest, known, -, rfl, inner⟩ := written
    simp only [List.length_cons, ih kind (levelled.2 kind) inner, size, known, Option.map_some,
      Option.getD_some, Nat.add_comm]
  | text slot =>
    obtain ⟨content, chars, -, rfl, size, -⟩ := written
    rw [List.length_append, Word.length_toBytes, size]
    rfl
  | looseText length => exact written.1
  | code => exact length_of_code written
  | entry payload ih => exact length_of_entry written
  | table item ih =>
    obtain ⟨⟨payload, rfl⟩, -⟩ := levelled
    exact length_of_table written
  | nested inner ih =>
    obtain ⟨_, _, inside⟩ := levelled
    exact ih inside written
  | tooDeep bound => exact absurd written id

end Sizes
end Layout
end ClassFormat
