import ClassFormat.Proofs.Misfits
import ClassFormat.Proofs.Placing
import Mathlib.Logic.ExistsUnique

/-! Looking for the instruction at a place of a code array. Instructions stand one behind the other and each
fills at least its opcode, so that halving the array finds what going through all of it would find. -/
namespace ClassFormat

namespace Instruction

section Cuts

variable {base start pc : Nat} {instructions : List Instruction} {bytes : Bytes}

theorem start_le_of_cut (cut : (grammar base).each start instructions bytes) :
    ∀ instruction ∈ instructions, start ≤ instruction.pc := by
  induction instructions generalizing start bytes with
  | nil => simp
  | cons first later ih =>
    obtain ⟨xs, ys, rfl, head, tail⟩ := cut
    obtain ⟨form, -, rfl, -⟩ := head
    intro instruction listed
    rcases List.mem_cons.mp listed with rfl | listed
    · exact Nat.le_refl start
    · exact Nat.le_of_add_right_le (ih tail instruction listed)

/-- No instruction reaches into another. -/
theorem apart_of_cut (cut : (grammar base).each start instructions bytes) :
    instructions.Pairwise fun one other => one.pc + one.width ≤ other.pc := by
  induction instructions generalizing start bytes with
  | nil => exact .nil
  | cons first later ih =>
    obtain ⟨xs, ys, rfl, head, tail⟩ := cut
    refine .cons (fun other listed => ?_) (ih tail)
    have behind := start_le_of_cut tail other listed
    have width := length_of_grammar head
    obtain ⟨form, -, rfl, -⟩ := head
    change start + _ ≤ _
    omega

/-- Every place of a code array lies in some instruction. -/
theorem exists_covering_of_cut (cut : (grammar base).each start instructions bytes) (reached : start ≤ pc)
    (inside : pc < start + bytes.length) :
    ∃ instruction ∈ instructions, instruction.pc ≤ pc ∧ pc < instruction.pc + instruction.width := by
  induction instructions generalizing start bytes with
  | nil =>
    obtain rfl : bytes = [] := cut
    simp at inside
    omega
  | cons first later ih =>
    obtain ⟨xs, ys, rfl, head, tail⟩ := cut
    have width := length_of_grammar head
    have place : first.pc = start := by
      obtain ⟨form, -, rfl, -⟩ := head
      rfl
    by_cases here : pc < start + first.width
    · exact ⟨first, List.mem_cons_self, by omega, by omega⟩
    · rw [List.length_append] at inside
      obtain ⟨instruction, listed, covers⟩ := ih tail (by omega) (by omega)
      exact ⟨instruction, List.mem_cons_of_mem first listed, covers⟩

theorem stop_le_of_cut (cut : (grammar base).each start instructions bytes) :
    ∀ instruction ∈ instructions, instruction.pc + instruction.width ≤ start + bytes.length := by
  induction instructions generalizing start bytes with
  | nil => simp
  | cons first later ih =>
    obtain ⟨xs, ys, rfl, head, tail⟩ := cut
    have width := length_of_grammar head
    intro instruction listed
    rw [List.length_append]
    rcases List.mem_cons.mp listed with rfl | listed
    · obtain ⟨form, -, rfl, -⟩ := head
      change start + _ ≤ _
      omega
    · have behind := ih tail instruction listed
      omega

end Cuts
end Instruction

namespace Code

section Searches

variable {instructions : Array Instruction} {instruction : Instruction} {pc low high : Nat}

/-- An array in which every instruction starts behind those before it. -/
def Ordered (instructions : Array Instruction) : Prop :=
  instructions.toList.Pairwise fun one other => one.pc < other.pc

theorem Ordered.lt (ordered : Ordered instructions) {i j : Nat} (before : i < j)
    (inside : j < instructions.size) : instructions[i].pc < instructions[j].pc := by
  have pairs := List.pairwise_iff_getElem.mp ordered i j (Nat.lt_trans before inside) inside before
  simpa only [Array.getElem_toList] using pairs

theorem Ordered.le (ordered : Ordered instructions) {i j : Nat} (notBehind : i ≤ j)
    (inside : j < instructions.size) : instructions[i].pc ≤ instructions[j].pc := by
  rcases Nat.eq_or_lt_of_le notBehind with rfl | before
  · exact Nat.le_refl _
  · exact Nat.le_of_lt (ordered.lt before inside)

theorem search_sound (run : search instructions pc low high = some instruction) :
    instruction ∈ instructions ∧ instruction.pc = pc := by
  fun_induction search instructions pc low high with
  | case1 => cases run
  | case2 low high room middle found seen same =>
    cases run
    exact ⟨Array.mem_of_getElem? seen, same⟩
  | case3 low high room middle found seen other before ih => exact ih run
  | case4 low high room middle found seen other behind ih => exact ih run
  | case5 => cases run

/-- The half that is left out holds no instruction at `pc`. -/
theorem search_complete (ordered : Ordered instructions) (inside : high ≤ instructions.size) {place : Nat}
    (first : low ≤ place) (last : place < high) (here : instructions[place].pc = pc) :
    search instructions pc low high = some instructions[place] := by
  fun_induction search instructions pc low high with
  | case1 low high room middle missing =>
    have outside := Array.getElem?_eq_none_iff.mp missing
    omega
  | case2 low high room middle found seen same =>
    obtain ⟨bound, rfl⟩ := Array.getElem?_eq_some_iff.mp seen
    rcases Nat.lt_trichotomy place middle with before | rfl | behind
    · have apart := ordered.lt before bound
      omega
    · rfl
    · have apart := ordered.lt behind (Nat.lt_of_lt_of_le last inside)
      omega
  | case3 low high room middle found seen other early ih =>
    obtain ⟨bound, rfl⟩ := Array.getElem?_eq_some_iff.mp seen
    refine ih inside (Nat.lt_of_not_le fun before => ?_) last here
    have notBehind := ordered.le before bound
    omega
  | case4 low high room middle found seen other late ih =>
    obtain ⟨bound, rfl⟩ := Array.getElem?_eq_some_iff.mp seen
    refine ih (by omega) first (Nat.lt_of_not_le fun behind => ?_) here
    have notBefore := ordered.le behind (Nat.lt_of_lt_of_le last inside)
    omega
  | case5 => omega

variable {code : Code}

theorem instructionAt?_eq_some (ordered : Ordered code.instructions) :
    code.instructionAt? pc = some instruction ↔ instruction ∈ code.instructions ∧ instruction.pc = pc := by
  constructor
  · exact search_sound
  · rintro ⟨listed, here⟩
    obtain ⟨place, inside, rfl⟩ := Array.getElem_of_mem listed
    exact search_complete ordered (Nat.le_refl _) (Nat.zero_le place) inside here

/-- Halving finds what going through the whole array finds. -/
theorem instructionAt?_eq_find? (ordered : Ordered code.instructions) (pc : Nat) :
    code.instructionAt? pc = code.instructions.toList.find? (·.pc = pc) := by
  cases scanned : code.instructions.toList.find? (·.pc = pc) with
  | some instruction =>
    apply (instructionAt?_eq_some ordered).mpr
    have listed := List.mem_of_find?_eq_some scanned
    have here := List.find?_some scanned
    exact ⟨Array.mem_toList_iff.mp listed, by simpa using here⟩
  | none =>
    apply Option.eq_none_iff_forall_ne_some.mpr
    intro instruction found
    obtain ⟨listed, here⟩ := (instructionAt?_eq_some ordered).mp found
    have other := List.find?_eq_none.mp scanned instruction (Array.mem_toList_iff.mpr listed)
    simp [here] at other

end Searches

/-- What looking for the instruction at a place of a code array finds. -/
structure Searchable (code : Code) : Prop where
  /-- The first instruction at a place when all are gone through in order is the one that is found. -/
  scanned : ∀ pc, code.instructionAt? pc = code.instructions.toList.find? (·.pc = pc)
  found : ∀ pc instruction, code.instructionAt? pc = some instruction ↔
    instruction ∈ code.instructions ∧ instruction.pc = pc
  started : ∀ pc, (code.instructionAt? pc).isSome ↔ ∃ instruction ∈ code.instructions, instruction.pc = pc
  within : ∀ instruction ∈ code.instructions, ∀ pc, instruction.pc < pc →
    pc < instruction.pc + instruction.width → code.instructionAt? pc = none
  beyond : ∀ pc, code.length.toNat ≤ pc → code.instructionAt? pc = none
  covered : ∀ pc, pc < code.length.toNat → ∃! place : Fin code.instructions.size,
    code.instructions[place].pc ≤ pc ∧ pc < code.instructions[place].pc + code.instructions[place].width
  /-- Four bytes are enough for any place at which an instruction starts. -/
  narrow : ∀ instruction ∈ code.instructions, instruction.pc < UInt32.size

section Cuts

open Instruction

variable {code : Code} {base pc : Nat} {bytes : Bytes}

theorem instructionAt?_eq_none (ordered : Ordered code.instructions)
    (other : ∀ instruction ∈ code.instructions, instruction.pc ≠ pc) : code.instructionAt? pc = none := by
  rw [instructionAt?_eq_find? ordered, List.find?_eq_none]
  intro instruction listed
  simpa using other instruction (Array.mem_toList_iff.mp listed)

/-- Instructions that do not reach into each other leave no two that lie at one place. -/
theorem place_unique {instructions : Array Instruction}
    (apart : instructions.toList.Pairwise fun one other => one.pc + one.width ≤ other.pc)
    {i j : Fin instructions.size} (one : instructions[i].pc ≤ pc ∧ pc < instructions[i].pc + instructions[i].width)
    (other : instructions[j].pc ≤ pc ∧ pc < instructions[j].pc + instructions[j].width) : i = j := by
  have pairs := List.pairwise_iff_getElem.mp apart
  rcases Nat.lt_trichotomy i j with before | same | behind
  · have far := pairs i j i.isLt j.isLt before
    simp only [Array.getElem_toList] at far
    simp only [Fin.getElem_fin] at one other
    omega
  · exact Fin.ext same
  · have far := pairs j i j.isLt i.isLt behind
    simp only [Array.getElem_toList] at far
    simp only [Fin.getElem_fin] at one other
    omega

theorem searchable_of_cut (cut : (grammar base).each 0 code.instructions.toList bytes)
    (size : bytes.length = code.length.toNat) : code.Searchable := by
  have apart := apart_of_cut cut
  have ordered : Ordered code.instructions := apart.imp fun {one other} behind => by
    simp only [width] at behind
    omega
  have stops : ∀ instruction ∈ code.instructions, instruction.pc < code.length.toNat := by
    intro instruction listed
    have stop := stop_le_of_cut cut instruction (Array.mem_toList_iff.mpr listed)
    simp only [width] at stop
    omega
  exact {
    scanned := instructionAt?_eq_find? ordered
    found := fun pc instruction => instructionAt?_eq_some ordered
    started := fun pc => by
      simp [Option.isSome_iff_exists, instructionAt?_eq_some ordered]
    within := fun instruction listed pc behind before => by
      apply instructionAt?_eq_none ordered
      rintro other member rfl
      obtain ⟨i, first, rfl⟩ := Array.getElem_of_mem listed
      obtain ⟨j, second, rfl⟩ := Array.getElem_of_mem member
      have reaches : code.instructions[j].pc < code.instructions[j].pc + code.instructions[j].width := by
        simp only [width]
        omega
      have same : (⟨i, first⟩ : Fin code.instructions.size) = ⟨j, second⟩ :=
        place_unique apart ⟨Nat.le_of_lt behind, before⟩ ⟨Nat.le_refl _, reaches⟩
      cases same
      exact Nat.lt_irrefl _ behind
    beyond := fun pc far => by
      apply instructionAt?_eq_none ordered
      rintro instruction listed rfl
      exact Nat.not_lt_of_le far (stops instruction listed)
    covered := fun pc inside => by
      obtain ⟨instruction, listed, covers⟩ := exists_covering_of_cut cut (Nat.zero_le pc) (by omega)
      obtain ⟨place, bound, rfl⟩ := Array.getElem_of_mem (Array.mem_toList_iff.mp listed)
      exact ⟨⟨place, bound⟩, covers, fun other also => place_unique apart also covers⟩
    narrow := fun instruction listed =>
      Nat.lt_trans (stops instruction listed) code.length.value.toNat_lt }

end Cuts
end Code

/-- What a table reaches is reached from wherever the table is. -/
theorem Reaches.trans {parts : List Part} {held : Table} {part : Part} (first : Reaches parts (.table held))
    (second : Reaches held.parts part) : Reaches parts part := by
  generalize same : Part.table held = between at first
  induction first with
  | listed member =>
    subst same
    exact .within member second
  | within member _ ih => exact .within member (ih same)

/-- The code array of a table is that of one of its attributes. -/
theorem Table.exists_of_code? {table : Table} {code : Code} (found : table.code? = some code) :
    ∃ item ∈ table.entries, item.payload = .code code := by
  unfold code? get? at found
  split at found
  next body named =>
    obtain ⟨item, listed, holds⟩ := Option.map_eq_some_iff.mp named
    cases found
    exact ⟨item, List.mem_of_find?_eq_some listed, holds⟩
  next => cases found

namespace ClassFile

/-- In every code array of a class file, at any depth, instructions are found exactly where they start. -/
theorem decode_searchable {bytes : Bytes} {file : ClassFile} (decoded : decode bytes = .ok file) :
    ∀ held item code, file.HasPart (.table held) → item ∈ held.entries → item.payload = .code code →
      code.Searchable := by
  intro held item code has member holds
  have listed : .code code.length code.instructions ∈ held.parts := by
    apply List.mem_cons_of_mem
    apply List.mem_flatMap.mpr
    exact ⟨item, member, by simp [Attribute.parts, holds, Payload.parts, Code.parts]⟩
  have part : file.HasPart (.code code.length code.instructions) := Reaches.trans has (.listed listed)
  obtain ⟨front, content, back, -, -, size, cut⟩ := part.within decoded
  exact Code.searchable_of_cut cut size

/-- A class with a code array of a switch, which fills twenty bytes, and a return. -/
def jumpingSample : Bytes :=
  [0xca, 0xfe, 0xba, 0xbe, 0, 0, 0, 52, 0, 4, 1, 0, 1, 0x43, 7, 0, 1, 1, 0, 4, 0x43, 0x6f, 0x64, 0x65] ++
  [0, 0x21, 0, 2, 0, 0, 0, 0, 0, 0, 0, 0, 0, 1, 0, 3, 0, 0, 0, 33, 0, 0, 0, 0, 0, 0, 0, 21] ++
  [0xaa, 0, 0, 0, 0, 0, 0, 20, 0, 0, 0, 0, 0, 0, 0, 0, 0, 0, 0, 20, 0xb1, 0, 0, 0, 0]

theorem decode_jumpingSample : ∃ file item code, decode jumpingSample = .ok file ∧
    file.HasPart (.table file.attributes) ∧ item ∈ file.attributes.entries ∧ item.payload = .code code ∧
    code.Searchable ∧ code.instructions.map (·.pc) = #[0, 20] := by
  have places : (decode jumpingSample).toOption.bind (fun file =>
      file.attributes.code?.map fun code => code.instructions.map (·.pc)) = some #[0, 20] := by decide +kernel
  obtain ⟨file, decoded⟩ : ∃ file, decode jumpingSample = .ok file := exists_of_isOk (by decide +kernel)
  rw [decoded] at places
  obtain ⟨code, found, places⟩ := Option.map_eq_some_iff.mp places
  obtain ⟨item, member, holds⟩ := Table.exists_of_code? found
  have has : file.HasPart (.table file.attributes) := .listed (by simp [ClassFile.parts, Body.parts])
  have searchable := decode_searchable decoded file.attributes item code has member holds
  exact ⟨file, item, code, decoded, has, member, holds, searchable, places⟩

end ClassFile
end ClassFormat
