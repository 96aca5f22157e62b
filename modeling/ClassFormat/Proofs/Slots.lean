import ClassFormat.Proofs.Cells
import ClassFormat.Proofs.PoolGrammar
import Mathlib.Algebra.GroupWithZero.Nat
import Mathlib.Data.List.Forall2

/-! The slot table of a decoded pool. The bytes decide whether there is one: cells must fill the
declared number of slots exactly and refer to each other rightly. What stands in a slot then depends
on its number alone. -/
namespace ClassFormat

/-- Whether cells are a pool of a declared count, which is one more than there are slots. -/
structure Cell.FillPool (count : Nat) (cells : List Cell) : Prop where
  positive : 1 ≤ count
  complete : ∀ cell ∈ cells, cell.Complete
  slots : (cells.map fun cell => cell.kind.slots).sum = count - 1
  linked : ∀ cell ∈ cells, cell.Linked (Cell.kindsOf cells)

/-- Whether the slots of a pool that was read from so many bytes agree with their numbers. -/
structure Pool.Consistent (pool : Pool) (count width : Nat) : Prop where
  size : pool.count = count
  outside : ∀ i, i = 0 ∨ count ≤ i → pool.get i = .error (.indexOutOfRange i count)
  /-- Behind the first slot of an eight-byte number there is no entry. -/
  upper : ∀ i, 0 < i → i < count → pool.Designates (i - 1) [.long, .double] →
    pool.isUpperHalf i = true ∧ pool.get i = .error (.upperHalf i)
  entry : ∀ i, 0 < i → i < count → ¬ pool.Designates (i - 1) [.long, .double] →
    pool.isUpperHalf i = false ∧ ∃ entry, pool.get i = .ok entry ∧ entry.index = i ∧
      entry.tag.value = entry.constant.tag.byte
  ordered : pool.entries.Pairwise (·.index < ·.index)
  listed : ∀ entry, entry ∈ pool.entries ↔ ∃ i, pool.get i = .ok entry
  consumed : (pool.entries.map Entry.width).sum = width

/-- Which bytes are the start of a pool of a declared count, and what they are decoded to. -/
structure Pool.DecodesExactly (count : Nat) (s : State) : Prop where
  accepted : (∃ pool after, decode count s = .ok pool after) ↔
    ∃ cells rest, s.cursor.rest = cells.flatMap Cell.bytes ++ rest ∧ Cell.FillPool count cells
  consistent : ∀ pool after, decode count s = .ok pool after →
    ∃ bytes, s.cursor.Passes bytes after.cursor ∧ pool.Consistent count bytes.length

/-! ### Entries and cells -/

theorem Tag.isWide_iff {tag : Tag} : tag.isWide = true ↔ tag ∈ [Tag.long, Tag.double] := by
  cases tag <;> simp [Tag.isWide]

theorem Tag.slots_pos (tag : Tag) : 0 < tag.slots := by
  unfold Tag.slots
  split <;> simp

/-- What is written for an entry is its tag and a cell's payload. -/
theorem Entry.writes_iff {index offset : Nat} {entry : Entry} {bytes : Bytes} :
    (Entry.layout index).Writes .empty offset entry bytes ↔ ∃ payload,
      entry.index = index ∧ entry.tag = ⟨entry.constant.tag.byte, offset⟩ ∧
      bytes = entry.constant.tag.byte :: payload ∧
      (Constant.layout index entry.constant.tag).Writes .empty (offset + 1) entry.constant payload := by
  constructor
  · rintro ⟨⟨⟨byte, place⟩, constant⟩, rfl, kind, payload, known, rfl, rfl, written⟩
    have same := Constant.tag_of_writes written
    have byte := Tag.byte_of_ofByte? known
    subst same
    simp only at byte
    subst byte
    exact ⟨payload, rfl, rfl, rfl, written⟩
  · obtain ⟨slot, tag, constant⟩ := entry
    rintro ⟨payload, rfl, place, rfl, written⟩
    simp only at place
    subst place
    exact ⟨(_, constant), rfl, constant.tag, payload, Tag.ofByte?_byte _, rfl, rfl, written⟩

namespace Pool

/-- Whether entries are spelt by cells, one by one. -/
def Spelt (entries : List Entry) (cells : List Cell) : Prop :=
  List.Forall₂ (fun entry cell => cell.Spells entry.constant) entries cells

theorem exists_cells {index offset : Nat} {entries : List Entry} {bytes : Bytes}
    (written : entriesFrom index offset entries bytes) :
    ∃ cells, bytes = cells.flatMap Cell.bytes ∧ Spelt entries cells := by
  induction entries generalizing index offset bytes with
  | nil => exact ⟨[], written, .nil⟩
  | cons entry rest ih =>
    obtain ⟨xs, ys, rfl, first, others⟩ := written
    obtain ⟨payload, -, -, rfl, content⟩ := Entry.writes_iff.mp first
    obtain ⟨cells, rfl, spelt⟩ := ih others
    exact ⟨⟨entry.constant.tag, payload⟩ :: cells, rfl, .cons ⟨index, _, content⟩ spelt⟩

theorem exists_entries {cells : List Cell} (complete : ∀ cell ∈ cells, cell.Complete)
    (index offset : Nat) : ∃ entries, entriesFrom index offset entries (cells.flatMap Cell.bytes) ∧
      Spelt entries cells := by
  induction cells generalizing index offset with
  | nil => exact ⟨[], rfl, .nil⟩
  | cons cell rest ih =>
    rw [List.forall_mem_cons] at complete
    obtain ⟨constant, content⟩ := (cell.complete_iff index (offset + 1)).mp complete.1
    have kind := Constant.tag_of_writes content
    obtain ⟨entries, written, spelt⟩ := ih complete.2 (index + constant.tag.slots)
      (offset + cell.bytes.length)
    refine ⟨⟨index, ⟨constant.tag.byte, offset⟩, constant⟩ :: entries, ⟨cell.bytes, _, rfl, ?_, written⟩,
      .cons ⟨index, _, content⟩ spelt⟩
    refine Entry.writes_iff.mpr ⟨cell.payload, rfl, rfl, ?_, ?_⟩
    · rw [Cell.bytes, ← kind]
    · rw [kind]
      exact content

namespace Spelt

variable {entries : List Entry} {cells : List Cell}

/-- What holds of an entry just if it holds of the cell holds of all of the ones just if it holds of
all of the others. -/
theorem forall_iff {here : Entry → Prop} {there : Cell → Prop} (spelt : Spelt entries cells)
    (each : ∀ entry cell, cell.Spells entry.constant → (here entry ↔ there cell)) :
    (∀ entry ∈ entries, here entry) ↔ ∀ cell ∈ cells, there cell := by
  induction spelt with
  | nil => simp
  | cons first _ ih => rw [List.forall_mem_cons, List.forall_mem_cons, each _ _ first, ih]

theorem complete (spelt : Spelt entries cells) : ∀ cell ∈ cells, cell.Complete := by
  have each (entry : Entry) (cell : Cell) (spells : cell.Spells entry.constant) :
      True ↔ cell.Complete := iff_of_true trivial spells.complete
  exact (spelt.forall_iff each).mp fun _ _ => trivial

theorem kindsOf (spelt : Spelt entries cells) :
    Cell.kindsOf cells = (slotsOf entries).map (Option.map (·.constant.tag)) := by
  induction spelt with
  | nil => rfl
  | cons first _ ih =>
    rw [slotsOf_cons, List.map_append, ← ih, Cell.kindsOf, List.flatMap_cons, first.kind]
    congr 1
    split <;> simp [first.kind]

theorem slots (spelt : Spelt entries cells) :
    (cells.map fun cell => cell.kind.slots).sum = (slotsOf entries).length := by
  induction spelt with
  | nil => rfl
  | cons first _ ih => rw [length_slotsOf_cons, ← ih, List.map_cons, List.sum_cons, first.kind]

/-- The entries of a pool refer to each other rightly if the cells do. -/
theorem linked_iff {pool : Pool} (spelt : Spelt pool.entries cells)
    (filled : pool.slots.toList = slotsOf pool.entries) :
    (∀ entry ∈ pool.entries, entry.constant.Linked pool) ↔
      ∀ cell ∈ cells, cell.Linked (Cell.kindsOf cells) := by
  have same (slot : Nat) (kinds : List Tag) :
      pool.Designates slot kinds ↔ Cell.Leads (Cell.kindsOf cells) slot kinds := by
    rw [spelt.kindsOf, ← filled]
    cases slot with
    | zero => simp [Pool.Designates, Pool.slot?, Cell.Leads]
    | succ slot =>
      simp only [Pool.Designates, Pool.slot?, Cell.Leads, List.getElem?_map, Array.getElem?_toList,
        Nat.add_sub_cancel]
      rcases pool.slots[slot]? with _ | _ | entry <;> simp
  exact spelt.forall_iff fun entry cell spells => spells.linked_iff same

end Spelt

/-! ### The slot table -/

section Slots

variable {entries : List Entry} {bytes : Bytes} {index offset k : Nat}

theorem getElem?_slotsOf_cons (first : Entry) (rest : List Entry) :
    (slotsOf (first :: rest))[k]? =
      if k = 0 then some (some first)
      else if k < first.constant.tag.slots then some none
      else (slotsOf rest)[k - first.constant.tag.slots]? := by
  rw [slotsOf_cons, Tag.slots]
  by_cases wide : first.constant.tag.isWide = true
  · rw [if_pos wide, if_pos wide]
    rcases k with _ | _ | k
    · rfl
    · rfl
    · have behind : ¬ k + 2 < 2 := by omega
      simp [behind]
  · rw [if_neg wide, if_neg wide]
    cases k <;> simp

/-- An entry stands in the slot that its index says. -/
theorem slotsOf_entry (written : entriesFrom index offset entries bytes) {entry : Entry}
    (found : (slotsOf entries)[k]? = some (some entry)) :
    entry.index = index + k ∧ entry.tag.value = entry.constant.tag.byte := by
  induction entries generalizing index offset bytes k with
  | nil => simp [slotsOf] at found
  | cons first rest ih =>
    obtain ⟨xs, ys, rfl, head, others⟩ := written
    obtain ⟨-, place, byte, -⟩ := Entry.writes_iff.mp head
    rw [getElem?_slotsOf_cons] at found
    split at found
    next start =>
      cases found
      exact ⟨by omega, by rw [byte]⟩
    next =>
      split at found
      next => cases found
      next behind =>
        obtain ⟨here, tag⟩ := ih others found
        exact ⟨by omega, tag⟩

/-- A slot without an entry is the one behind an eight-byte number, and there is always one. -/
theorem slotsOf_upper : (slotsOf entries)[k]? = some none ↔ ∃ before entry, k = before + 1 ∧
    (slotsOf entries)[before]? = some (some entry) ∧ entry.constant.tag.isWide = true := by
  induction entries generalizing k with
  | nil => simp [slotsOf]
  | cons first rest ih =>
    constructor
    · intro none
      rw [getElem?_slotsOf_cons] at none
      split at none
      next => cases none
      next start =>
        split at none
        next within =>
          rw [Tag.slots] at within
          split at within
          next wide => exact ⟨0, first, by omega, by simp [getElem?_slotsOf_cons], wide⟩
          next => omega
        next behind =>
          obtain ⟨before, entry, place, found, wide⟩ := ih.mp none
          refine ⟨before + first.constant.tag.slots, entry, by omega, ?_, wide⟩
          have positive := first.constant.tag.slots_pos
          rw [getElem?_slotsOf_cons, if_neg (by omega), if_neg (by omega), Nat.add_sub_cancel]
          exact found
    · rintro ⟨before, entry, rfl, found, wide⟩
      rw [getElem?_slotsOf_cons] at found
      split at found
      next start =>
        cases found
        subst start
        simp [getElem?_slotsOf_cons, Tag.slots, wide]
      next start =>
        split at found
        next => cases found
        next behind =>
          rw [getElem?_slotsOf_cons, if_neg (by omega), if_neg (by omega)]
          exact ih.mpr ⟨_, entry, by omega, found, wide⟩

/-- Later entries have greater indices. -/
theorem entriesFrom_ordered (written : entriesFrom index offset entries bytes) :
    (∀ entry ∈ entries, index ≤ entry.index) ∧ entries.Pairwise (·.index < ·.index) := by
  induction entries generalizing index offset bytes with
  | nil => simp
  | cons first rest ih =>
    obtain ⟨xs, ys, rfl, head, others⟩ := written
    obtain ⟨-, place, -, -⟩ := Entry.writes_iff.mp head
    obtain ⟨above, ordered⟩ := ih others
    have positive := first.constant.tag.slots_pos
    refine ⟨List.forall_mem_cons.mpr ⟨by omega, fun entry member => ?_⟩,
      List.pairwise_cons.mpr ⟨fun entry member => ?_, ordered⟩⟩
    · have := above entry member
      omega
    · have := above entry member
      omega

/-- Entries say themselves how many bytes they are written in. -/
theorem entriesFrom_width (written : entriesFrom index offset entries bytes) :
    (entries.map Entry.width).sum = bytes.length := by
  obtain ⟨cells, rfl, spelt⟩ := exists_cells written
  clear written
  induction spelt with
  | nil => rfl
  | cons first _ ih =>
    rw [List.map_cons, List.sum_cons, ih, List.flatMap_cons, List.length_append, Entry.width,
      first.width, Cell.bytes, List.length_cons, Nat.add_comm 1]

end Slots

section Pools

variable {pool : Pool} {count offset : Nat} {bytes : Bytes}

/-- A pool that is written for a count is consistent with it. -/
theorem consistent_of_grammar (written : grammar count offset pool bytes) :
    pool.Consistent count bytes.length := by
  obtain ⟨filled, size, run, -⟩ := written
  have slot (k : Nat) : pool.slot? (k + 1) = (slotsOf pool.entries)[k]? := by
    rw [← filled, Array.getElem?_toList]
    rfl
  have wide (k : Nat) : pool.slot? (k + 1) = some none ↔ pool.Designates k [.long, .double] := by
    rw [slot, slotsOf_upper, Pool.Designates]
    constructor
    · rintro ⟨before, entry, rfl, found, wide⟩
      exact ⟨entry, by rw [slot, found], Tag.isWide_iff.mp wide⟩
    · rintro ⟨entry, found, wide⟩
      cases k with
      | zero => cases found
      | succ before => exact ⟨before, entry, rfl, by rw [← slot, found], Tag.isWide_iff.mpr wide⟩
  constructor
  case size => exact size
  case outside =>
    rintro i (rfl | high)
    · rw [← size]
      rfl
    · have missing : pool.slot? i = none := by
        cases i with
        | zero => rfl
        | succ k =>
          rw [Pool.slot?, Array.getElem?_eq_none]
          rw [Pool.count] at size
          omega
      rw [Pool.get, missing, size]
  case upper =>
    intro i positive _ before
    obtain ⟨k, rfl⟩ := Nat.exists_eq_add_of_le' positive
    have none := (wide k).mpr before
    exact ⟨by rw [Pool.isUpperHalf, none]; rfl, by rw [Pool.get, none]⟩
  case entry =>
    intro i positive low before
    obtain ⟨k, rfl⟩ := Nat.exists_eq_add_of_le' positive
    have within : k < pool.slots.size := by
      rw [Pool.count] at size
      omega
    have found : pool.slot? (k + 1) = some pool.slots[k] := Array.getElem?_eq_getElem within
    cases held : pool.slots[k] with
    | none => exact absurd ((wide k).mp (held ▸ found)) before
    | some entry =>
      rw [held] at found
      obtain ⟨index, tag⟩ := slotsOf_entry run ((slot k).symm.trans found)
      refine ⟨?_, entry, Pool.get_eq_ok.mpr found, by omega, tag⟩
      rw [Pool.isUpperHalf, found]
      simp
  case ordered => exact (entriesFrom_ordered run).2
  case listed =>
    intro entry
    simp only [mem_entries, Pool.get_eq_ok]
  case consumed => exact entriesFrom_width run

/-- The entries that are found by index are those that are listed, each under its own index. -/
theorem Consistent.get_iff {width : Nat} (consistent : pool.Consistent count width) {i : Nat}
    {entry : Entry} : pool.get i = .ok entry ↔ entry ∈ pool.entries ∧ entry.index = i := by
  have own {i : Nat} (found : pool.get i = .ok entry) : entry.index = i := by
    have inside : ¬ (i = 0 ∨ count ≤ i) := fun outside => by
      rw [consistent.outside i outside] at found
      cases found
    have positive : 0 < i := by omega
    have low : i < count := by omega
    by_cases upper : pool.Designates (i - 1) [.long, .double]
    · rw [(consistent.upper i positive low upper).2] at found
      cases found
    · obtain ⟨-, other, here, index, -⟩ := consistent.entry i positive low upper
      obtain rfl : entry = other := Except.ok.inj (found.symm.trans here)
      exact index
  constructor
  · exact fun found => ⟨(consistent.listed entry).mpr ⟨i, found⟩, own found⟩
  · rintro ⟨member, rfl⟩
    obtain ⟨i, found⟩ := (consistent.listed entry).mp member
    rw [own found]
    exact found

/-- What is written for a pool of some count is cells that fill just so many slots. -/
theorem exists_grammar_iff (count offset : Nat) : (∃ pool, grammar count offset pool bytes) ↔
    ∃ cells, bytes = cells.flatMap Cell.bytes ∧ Cell.FillPool count cells := by
  constructor
  · rintro ⟨pool, filled, size, run, valid⟩
    obtain ⟨cells, rfl, spelt⟩ := exists_cells run
    refine ⟨cells, rfl, ?_, spelt.complete, ?_, ?_⟩
    · rw [← size, Pool.count]
      omega
    · rw [spelt.slots, ← filled, Array.length_toList, ← size, Pool.count, Nat.add_sub_cancel]
    · exact (spelt.linked_iff filled).mp (Pool.validate_eq_ok.mp valid)
  · rintro ⟨cells, rfl, positive, complete, slots, linked⟩
    obtain ⟨entries, run, spelt⟩ := exists_entries complete 1 offset
    have known : (⟨(slotsOf entries).toArray⟩ : Pool).entries = entries := entries_slotsOf entries
    rw [← known] at spelt
    refine ⟨⟨(slotsOf entries).toArray⟩, by rw [known], ?_, by rwa [known], ?_⟩
    · rw [Pool.count, List.size_toArray]
      rw [spelt.slots, known] at slots
      omega
    · exact Pool.validate_eq_ok.mpr ((spelt.linked_iff (by rw [known])).mpr linked)

/-- For every count and all bytes: a pool is decoded just from cells that fill it, and all that can
be asked of it by index agrees with how it was written. -/
theorem decode_exactly (count : Nat) (s : State) : DecodesExactly count s where
  accepted := by
    constructor
    · rintro ⟨pool, after, run⟩
      obtain ⟨bytes, passed, written⟩ := (decode_reads count).sound run
      obtain ⟨cells, rfl, fill⟩ := (exists_grammar_iff count _).mp ⟨pool, written⟩
      exact ⟨cells, after.cursor.rest, passed.rest, fill⟩
    · rintro ⟨cells, rest, spelt, fill⟩
      obtain ⟨pool, written⟩ := (exists_grammar_iff count s.cursor.offset).mpr ⟨cells, rfl, fill⟩
      have passed : s.cursor.Passes (cells.flatMap Cell.bytes)
          ⟨s.cursor.base, s.cursor.position + (cells.flatMap Cell.bytes).length, rest⟩ := ⟨rfl, rfl, spelt⟩
      obtain ⟨trace, run⟩ := (decode_reads count).complete written passed s.trace
      exact ⟨pool, _, run⟩
  consistent pool after run := by
    obtain ⟨bytes, passed, written⟩ := (decode_reads count).sound run
    exact ⟨bytes, passed, consistent_of_grammar written⟩

end Pools
end Pool
end ClassFormat
