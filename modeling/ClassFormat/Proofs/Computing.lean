import ClassFormat.Proofs.Agreement
import ClassFormat.Proofs.Placing

/-! Decoding a class file on a machine. It always has a result, and what it has decoded can be asked for
anything: what is added up there lies within the file, and what is taken off is less than what it is taken
off from. -/
namespace ClassFormat

open Machine

namespace Guarded

variable {depths : Nat → Prop}

theorem Exact.need {result : Option β} {value : β} {next : β → Guarded α} {other : Decoder α}
    (given : result = some value) (exact : Exact depths (next value) other) :
    Exact depths (need result >>= next) other := fun r sound here => .need given (exact r sound here)

theorem exact_poolEntry (index : Nat) : Exact depths ((Entry.layout index).guarded .empty)
    ((Entry.layout index).decode .empty) :=
  have closed : Layout.Closed False fun _ layout =>
      Exact depths (layout.guarded .empty) (layout.decode .empty) := exact_closed False.elim
  closed.flat (Entry.layout_flat index)

/-- No slot has a number beyond the declared count. -/
theorem exact_fill {count room : Nat} {slots : Array (Option Entry)} (told : count < UInt16.size)
    (left : slots.size + room < count) :
    Exact depths (fill count room slots) (Pool.fill count room slots) := by
  induction room, slots using Pool.fill.induct with
  | case1 slots => exact exact_pure _
  | case2 slots =>
    rw [fill, Pool.fill]
    refine .need (fit?_of_lt (by omega)) ((exact_poolEntry _).bind fun entry _ => ?_)
    split
    next => exact .need (fit?_of_lt told) (exact_fail _)
    next => exact exact_pure _
  | case3 room slots wide_ih narrow_ih =>
    rw [fill, Pool.fill]
    refine .need (fit?_of_lt (by omega)) ((exact_poolEntry _).bind fun entry _ => ?_)
    split
    next => exact wide_ih entry (by simp; omega)
    next => exact narrow_ih entry (by simp; omega)

theorem exact_pool {count : Nat} (told : count < UInt16.size) :
    Exact depths (pool count) (Pool.decode count) := by
  cases count with
  | zero => exact exact_fail _
  | succ room =>
    refine (exact_fill told (by simp)).bind fun filled run => ?_
    obtain ⟨before, after, run⟩ := run
    obtain ⟨_, -, entries, slots, size, -⟩ := (Pool.fill_reads _ _ _).sound run
    have counted : filled.count = room + 1 := by
      rw [Pool.count, ← Array.length_toList, slots, List.length_append, size]
      simp
    exact (exact_ask (counted ▸ told) _).bind fun _ _ => exact_pure _

/-- All levels of nesting are left at the start of a file. -/
theorem exact_contents : Exact (· + ClassFile.maxNesting = ClassFile.maxNesting) contents
    (ClassFile.contents ClassFile.maxNesting) := by
  refine exact_read.bind fun magic _ => ?_
  by_cases right : magic.value = ClassFile.magicNumber
  · simp only [right, ne_eq, not_true_eq_false, ↓reduceIte]
    refine exact_read.bind fun minor _ => exact_read.bind fun major _ => exact_read.bind fun poolCount _ => ?_
    have told : poolCount.toNat < UInt16.size := poolCount.value.toNat_lt
    refine (exact_pool told).bind fun pool run => ?_
    obtain ⟨before, after, run⟩ := run
    obtain ⟨_, -, -, counted, -⟩ := (Pool.decode_reads _).sound run
    have levelled := (Layout.levelled_graded ClassFile.maxNesting).body ClassFile.maxNesting
    have body := exact_layout (counted ▸ told) levelled
    exact exact_offset.bind fun place _ => (exact_record _).bind fun _ _ => body.bind fun _ _ =>
      exact_pure _
  · simp only [right, ne_eq, not_false_eq_true, ↓reduceIte]
    exact (exact_fail _).bind fun _ failed => by
      obtain ⟨_, _, failed⟩ := failed
      cases failed

theorem exact_finish (file : ClassFile) : Exact depths (finish file) (ClassFile.finish file) := by
  intro r sound here
  have length := r.length_rest
  have starts : finish file r = _ := bind_of_ok (offset_eq sound)
  by_cases done : r.remaining = 0
  · have empty : r.state.cursor.isEmpty = true := by
      rw [Cursor.isEmpty, List.isEmpty_iff, ← List.length_eq_zero_iff, length, done]
    have ends : Exact depths (record _ >>= fun _ => pure file) _ := (exact_record
      (.classDecoded file.version file.fields.items.length file.methods.items.length
        file.attributes.size)).bind fun _ _ => exact_pure _
    refine (ends r sound here).of_eq (starts.trans ?_) ?_
    · change (if r.remaining ≠ 0 then _ else _ : Guarded ClassFile) r = _
      rw [if_neg (not_not_intro done)]
    · change (if ¬ r.state.cursor.isEmpty then _ else _ : Decoder ClassFile) r.state = _
      rw [if_neg (not_not_intro empty)]
  · have more : ¬ r.state.cursor.isEmpty = true := by
      rw [Cursor.isEmpty, List.isEmpty_iff, ← List.length_eq_zero_iff, length]
      exact done
    have failed : Agrees (fail (.trailingBytes (r.base + r.position) r.remaining)) (throw _ : Decoder ClassFile) r :=
      .fail _ sound
    refine failed.of_eq (starts.trans ?_) ?_
    · change (if r.remaining ≠ 0 then _ else _ : Guarded ClassFile) r = _
      rw [if_pos done]
      rfl
    · change (if ¬ r.state.cursor.isEmpty then _ else _ : Decoder ClassFile) r.state = _
      rw [if_pos more, ← length]
      rfl

theorem exact_classFile : Exact (· + ClassFile.maxNesting = ClassFile.maxNesting) classFile
    (ClassFile.decodeWithin ClassFile.maxNesting) := by
  rw [ClassFile.decodeWithin_eq]
  exact exact_contents.bind fun file _ => exact_finish file

/-- A machine has a result for every file whose length it can tell, and it is that of the decoder. -/
theorem classFile_agrees {bytes : Bytes} (short : bytes.length < UInt64.size) :
    Agrees classFile (ClassFile.decodeWithin ClassFile.maxNesting) (.start bytes) :=
  exact_classFile (.start bytes) ⟨Nat.zero_le _, by simpa [Registers.start] using short⟩ (Nat.zero_add _)

end Guarded
end ClassFormat
