import ClassFormat.Pool.Decode
import ClassFormat.Proofs.Grammar

/-! The grammar of the constant pool. Its entries follow each other like any values, but the
slot of each depends on how many slots those before it occupy. -/
namespace ClassFormat.Pool

open Decoder

/-- The slots that entries occupy. -/
def slotsOf (entries : List Entry) : List (Option Entry) :=
  entries.flatMap fun entry => if entry.constant.tag.isWide then [some entry, none] else [some entry]

/-- Entries one behind the other, the first of them in the slot `index`. -/
def entriesFrom : Nat → Grammar (List Entry)
  | _, _, [], bytes => bytes = []
  | index, offset, entry :: rest, bytes => ∃ xs ys, bytes = xs ++ ys ∧
      (Entry.layout index).Writes .empty offset entry xs ∧
      entriesFrom (index + entry.constant.tag.slots) (offset + xs.length) rest ys

/-- What is written for a pool whose slots, plus one, number `count`. -/
def grammar (count : Nat) : Grammar Pool := fun offset pool bytes =>
  pool.slots.toList = slotsOf pool.entries ∧ pool.count = count ∧
    entriesFrom 1 offset pool.entries bytes ∧ pool.validate = .ok ()

theorem slotsOf_cons (entry : Entry) (rest : List Entry) :
    slotsOf (entry :: rest) =
      (if entry.constant.tag.isWide then [some entry, none] else [some entry]) ++ slotsOf rest :=
  rfl

@[simp] theorem entries_slotsOf (entries : List Entry) :
    (slotsOf entries).filterMap id = entries := by
  induction entries with
  | nil => rfl
  | cons entry rest ih =>
    rw [slotsOf_cons, List.filterMap_append, ih]
    split <;> rfl

theorem length_slotsOf_cons (entry : Entry) (rest : List Entry) :
    (slotsOf (entry :: rest)).length = entry.constant.tag.slots + (slotsOf rest).length := by
  rw [slotsOf_cons, List.length_append, Tag.slots]
  split <;> rfl

theorem slotsOf_eq_nil {entries : List Entry} (none : (slotsOf entries).length = 0) :
    entries = [] := by
  cases entries with
  | nil => rfl
  | cons entry rest =>
    rw [length_slotsOf_cons, Tag.slots] at none
    split at none <;> omega

/-- What is written for a pool of which some slots are known and `room` are not. -/
def filling (room : Nat) (slots : Array (Option Entry)) : Grammar Pool := fun offset pool bytes =>
  ∃ entries, pool.slots.toList = slots.toList ++ slotsOf entries ∧ (slotsOf entries).length = room ∧
    entriesFrom (slots.size + 1) offset entries bytes

theorem filling_zero {slots : Array (Option Entry)} {offset : Nat} {pool : Pool} {bytes : Bytes} :
    filling 0 slots offset pool bytes ↔ pool = ⟨slots⟩ ∧ bytes = [] := by
  constructor
  · intro written
    rcases written with ⟨entries, filled, none, written⟩
    obtain rfl := slotsOf_eq_nil none
    obtain ⟨found⟩ := pool
    exact ⟨congrArg Pool.mk (Array.toList_inj.mp (by simpa [slotsOf] using filled)), written⟩
  · rintro ⟨rfl, rfl⟩
    exact ⟨[], by simp [slotsOf], rfl, rfl⟩

/-- The next entry takes one slot or two of those that are left. -/
theorem filling_succ {room : Nat} {slots : Array (Option Entry)} {offset : Nat} {pool : Pool}
    {bytes : Bytes} : filling (room + 1) slots offset pool bytes ↔
      ∃ entry xs ys, bytes = xs ++ ys ∧
        (Entry.layout (slots.size + 1)).Writes .empty offset entry xs ∧
        entry.constant.tag.slots ≤ room + 1 ∧
        filling (room + 1 - entry.constant.tag.slots) (slots ++ slotsOf [entry])
          (offset + xs.length) pool ys := by
  have grown (entry : Entry) :
      (slots ++ slotsOf [entry]).size + 1 = slots.size + 1 + entry.constant.tag.slots := by
    have size : (slotsOf [entry]).length = entry.constant.tag.slots := length_slotsOf_cons entry []
    rw [← Array.length_toList, Array.toList_appendList, List.length_append, Array.length_toList, size]
    omega
  constructor
  · intro written
    rcases written with ⟨entries, filled, fits, written⟩
    cases entries with
    | nil => cases fits
    | cons entry rest =>
      obtain ⟨xs, ys, rfl, first, others⟩ := written
      rw [length_slotsOf_cons] at fits
      refine ⟨entry, xs, ys, rfl, first, by omega, rest, ?_, by omega, ?_⟩
      · simpa [slotsOf_cons, slotsOf] using filled
      · simpa only [grown] using others
  · intro written
    rcases written with ⟨entry, xs, ys, rfl, first, fits, rest, filled, left, others⟩
    refine ⟨entry :: rest, ?_, ?_, xs, ys, rfl, first, ?_⟩
    · simpa [slotsOf_cons, slotsOf] using filled
    · rw [length_slotsOf_cons]
      omega
    · simpa only [grown] using others

theorem fill_reads (count room : Nat) (slots : Array (Option Entry)) :
    (fill count room slots).Reads (filling room slots) := by
  have next (slots : Array (Option Entry)) :=
    Layout.decode_reads .empty (Entry.layout (slots.size + 1))
  induction room, slots using fill.induct with
  | case1 slots => exact (Reads.pure _).congr fun _ _ _ => filling_zero
  | case2 slots =>
    refine (Reads.bind (next slots) fun entry => (?_ : Reads _ fun offset pool bytes =>
      entry.constant.tag.slots ≤ 1 ∧ filling (1 - entry.constant.tag.slots) (slots ++ slotsOf [entry])
        offset pool bytes)).congr fun offset pool bytes => filling_succ
    split
    next wide => exact (Reads.throw _).congr (by simp [wide, Tag.slots])
    next narrow =>
      exact (Reads.pure _).congr (by simp [narrow, Tag.slots, slotsOf, filling_zero])
  | case3 room slots wide_ih narrow_ih =>
    refine (Reads.bind (next slots) fun entry => (?_ : Reads _ fun offset pool bytes =>
      entry.constant.tag.slots ≤ room + 2 ∧ filling (room + 2 - entry.constant.tag.slots)
        (slots ++ slotsOf [entry]) offset pool bytes)).congr fun offset pool bytes => filling_succ
    split
    next wide =>
      exact (wide_ih entry).congr (by simp [wide, Tag.slots, slotsOf])
    next narrow =>
      exact (narrow_ih entry).congr (by simp [narrow, Tag.slots, slotsOf])

theorem decode_reads (count : Nat) : (decode count).Reads (grammar count) := by
  cases count with
  | zero => exact (Reads.throw _).congr (by simp [grammar, Pool.count])
  | succ room =>
    refine (Reads.bind (fill_reads (room + 1) room #[]) fun pool => .demandThen fun _ =>
      .pure pool).congr fun offset pool bytes => ⟨?_, ?_⟩
    · intro written
      obtain ⟨filled, size, written, valid⟩ := written
      have left : (slotsOf pool.entries).length = room := by
        rw [← filled, Array.length_toList]
        exact Nat.succ.inj size
      have grown : filling room #[] offset pool bytes :=
        ⟨pool.entries, by rw [filled, List.nil_append], left, by simpa using written⟩
      exact ⟨pool, bytes, [], (List.append_nil _).symm, grown, (), valid, rfl, rfl⟩
    · intro written
      obtain ⟨pool, xs, _, rfl, ⟨entries, filled, size, written⟩, _, valid, rfl, rfl⟩ := written
      have known : pool.entries = entries := by
        rw [Pool.entries, filled, List.nil_append, entries_slotsOf]
      rw [List.append_nil]
      refine ⟨by simpa [known] using filled, ?_, by simpa [known] using written, valid⟩
      rw [Pool.count, ← Array.length_toList, filled, List.nil_append, size]

end ClassFormat.Pool
