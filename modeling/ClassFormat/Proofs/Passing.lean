import ClassFormat.Decoder
import ClassFormat.Proofs.Words

/-! What a successful step leaves behind. A cursor that moves has passed a definite run of
bytes, and the steps of a decoder pass the runs of its parts one after the other. -/
namespace ClassFormat

/-- `after` is where a cursor stands once it has moved from `before` past `bytes`. -/
structure Cursor.Passes (before : Cursor) (bytes : Bytes) (after : Cursor) : Prop where
  base : after.base = before.base
  position : after.position = before.position + bytes.length
  rest : before.rest = bytes ++ after.rest

namespace Cursor.Passes

theorem refl (cursor : Cursor) : cursor.Passes [] cursor := ⟨rfl, rfl, rfl⟩

theorem trans {before middle after : Cursor} {first second : Bytes}
    (head : before.Passes first middle) (tail : middle.Passes second after) :
    before.Passes (first ++ second) after where
  base := tail.base.trans head.base
  position := by rw [tail.position, head.position, List.length_append, Nat.add_assoc]
  rest := by rw [head.rest, tail.rest, List.append_assoc]

theorem offset {before after : Cursor} {bytes : Bytes} (passed : before.Passes bytes after) :
    after.offset = before.offset + bytes.length := by
  rw [Cursor.offset, Cursor.offset, passed.base, passed.position, Nat.add_assoc]

theorem remaining_le {before after : Cursor} {bytes : Bytes} (passed : before.Passes bytes after) :
    after.remaining ≤ before.remaining := by
  rw [Cursor.remaining, Cursor.remaining, passed.rest, List.length_append]
  exact Nat.le_add_left _ _

theorem nil {before after : Cursor} (passed : before.Passes [] after) : after = before := by
  obtain ⟨base, position, rest⟩ := passed
  cases before
  cases after
  simp_all

theorem split {before after : Cursor} {first second : Bytes}
    (passed : before.Passes (first ++ second) after) :
    ∃ middle, before.Passes first middle ∧ middle.Passes second after := by
  refine ⟨⟨before.base, before.position + first.length, second ++ after.rest⟩,
    ⟨rfl, rfl, ?_⟩, ⟨passed.base, ?_, rfl⟩⟩
  · rw [passed.rest, List.append_assoc]
  · rw [passed.position, List.length_append, Nat.add_assoc]

theorem peek? {before after : Cursor} {bytes : Bytes} (passed : before.Passes bytes after) :
    before.peek? bytes.length = some bytes := by
  simp [Cursor.peek?, passed.rest]

theorem advance {before after : Cursor} {bytes : Bytes} (passed : before.Passes bytes after) :
    before.advance bytes.length = after := by
  obtain ⟨base, position, rest⟩ := passed
  cases before
  cases after
  simp_all [Cursor.advance]

end Cursor.Passes

namespace Cursor

/-- Bytes that can be seen ahead are passed by going as far as there are of them. -/
theorem passes_of_peek? {cursor : Cursor} {n : Nat} {bytes : Bytes}
    (seen : cursor.peek? n = some bytes) :
    bytes.length = n ∧ cursor.Passes bytes (cursor.advance n) := by
  unfold peek? at seen
  simp only at seen
  split at seen
  next size =>
    cases seen
    refine ⟨size, ⟨rfl, ?_, (List.take_append_drop n cursor.rest).symm⟩⟩
    rw [size]
    rfl
  next => contradiction

theorem peek?_of_le {cursor : Cursor} {n : Nat} (enough : n ≤ cursor.remaining) :
    cursor.peek? n = some (cursor.rest.take n) :=
  if_pos (List.length_take_of_le enough)

theorem peek?_of_lt {cursor : Cursor} {n : Nat} (few : cursor.remaining < n) : cursor.peek? n = none := by
  refine if_neg fun size => ?_
  rw [List.length_take] at size
  simp only [remaining] at few
  omega

theorem read_eq_ok {κ : Type} [Word κ] {before after : Cursor} {scalar : Scalar κ} :
    before.read = (.ok scalar, after) ↔
      scalar.offset = before.offset ∧ before.Passes (Word.toBytes scalar.value) after := by
  constructor
  · intro run
    unfold read at run
    split at run
    next bytes seen =>
      obtain ⟨size, passed⟩ := passes_of_peek? seen
      cases run
      rw [Word.toBytes_ofBytes bytes size]
      exact ⟨rfl, passed⟩
    next => cases run
  · rintro ⟨place, passed⟩
    have seen := passed.peek?
    have moved := passed.advance
    rw [Word.length_toBytes] at seen moved
    rw [read, seen]
    simp only [Word.ofBytes_toBytes, moved, ← place]

theorem take_eq_ok {n : Nat} {before after : Cursor} {bytes : Bytes} :
    before.take n = (.ok bytes, after) ↔ bytes.length = n ∧ before.Passes bytes after := by
  constructor
  · intro run
    unfold take at run
    split at run
    next seen =>
      cases run
      exact passes_of_peek? seen
    next => cases run
  · rintro ⟨rfl, passed⟩
    rw [take, passed.peek?]
    simp only [passed.advance]

theorem skip_eq_ok {n : Nat} {before after : Cursor} :
    before.skip n = (.ok (), after) ↔ ∃ bytes, bytes.length = n ∧ before.Passes bytes after := by
  constructor
  · intro run
    cases taken : before.take n with
    | mk outcome reached =>
      rw [skip, taken] at run
      cases outcome with
      | ok bytes =>
        cases run
        exact ⟨bytes, take_eq_ok.mp taken⟩
      | error cause => cases run
  · rintro ⟨bytes, passed⟩
    rw [skip, take_eq_ok.mpr passed]
    rfl

end Cursor
end ClassFormat
