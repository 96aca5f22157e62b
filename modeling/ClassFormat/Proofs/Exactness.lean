import ClassFormat.Proofs.Machine
import ClassFormat.Proofs.Misfits

/-! No number of a code array is out of reach for a machine. Places in it are below 2^32, so what a switch
adds to them stays below 2^64, and what a header is asked for lies in it. -/
namespace ClassFormat

namespace Machine

theorem fit?_of_lt {size n : Nat} (inside : n < size) : fit? size n = some n := if_pos inside

/-- What is far below the limit of eight bytes. -/
theorem fit?_of_small {n : Nat} (small : n ≤ 0xffffffffff) : fit? UInt64.size n = some n := by
  apply fit?_of_lt
  unfold UInt64.size
  omega

theorem minus?_of_le {a b : Nat} (below : b ≤ a) : minus? a b = some (a - b) := if_pos below

theorem slice?_of_le {buffer : Bytes} {start stop : Nat} (forth : start ≤ stop)
    (inside : stop ≤ buffer.length) :
    slice? buffer start stop = some ((buffer.drop start).take (stop - start)) := if_pos ⟨forth, inside⟩

theorem padding?_eq {pc : Nat} (below : pc + 1 < UInt32.size) : padding? pc = some (switchPadding pc) := by
  have missing : (pc + 1) % 4 ≤ 4 := by omega
  have same : (4 - (pc + 1) % 4) % 4 = switchPadding pc := by
    unfold switchPadding
    omega
  have small : switchPadding pc < UInt8.size := Nat.lt_of_le_of_lt (Nat.sub_le 3 _) (by decide)
  simp [padding?, fit?_of_lt below, minus?_of_le missing, same, fit?_of_lt small]

theorem headerWord?_eq {header : Bytes} {start : Nat} (inside : start + 4 ≤ header.length) :
    headerWord? header start = some (Instruction.headerWord header start) := by
  have rest : slice? header start header.length = some (header.drop start) := by
    rw [slice?_of_le (by omega) (Nat.le_refl _), List.take_of_length_le (by simp)]
  have word : slice? (header.drop start) 0 4 = some ((header.drop start).take 4) := by
    rw [slice?_of_le (by omega) (by simp; omega), List.drop_zero]
  simp [headerWord?, rest, word, Instruction.headerWord]

/-- A header may be followed by more. -/
theorem headerWord?_take {bytes : Bytes} {size start : Nat} (enough : size ≤ bytes.length)
    (inside : start + 4 ≤ size) :
    headerWord? (bytes.take size) start = some (Instruction.headerWord bytes start) := by
  have long : (bytes.take size).length = size := List.length_take_of_le enough
  rw [headerWord?_eq (by omega), Instruction.headerWord_of_start (List.take_prefix size bytes) (by omega)]

/-- Between the least and the greatest number there is room for 2^32 jumps. -/
theorem jumpsWidth_le (low high : Int32) : Instruction.jumpsWidth low high ≤ 0x400000000 := by
  have most := high.toInt_lt
  have least := low.le_toInt
  unfold Instruction.jumpsWidth
  omega

theorem pairsWidth_le (pairs : Int32) : 8 * pairs.toInt.toNat ≤ 0x400000000 := by
  have most := pairs.toInt_lt
  omega

theorem jumpsWidth?_eq {low high : Int32} (ordered : ¬ high < low) :
    jumpsWidth? low high = some (Instruction.jumpsWidth low high) := by
  have most := high.toInt_lt
  have least := low.le_toInt
  rw [Int32.lt_iff_toInt_lt, Int.not_lt] at ordered
  have distance : signed? (high.toInt - low.toInt) = some (high.toInt - low.toInt) := if_pos (by omega)
  have count : signed? (high.toInt - low.toInt + 1) = some (high.toInt - low.toInt + 1) :=
    if_pos (by omega)
  have natural : unsigned? (high.toInt - low.toInt + 1) = some (high.toInt - low.toInt + 1).toNat :=
    if_pos (by omega)
  have width : fit? UInt64.size (Instruction.jumpsWidth low high) = some (Instruction.jumpsWidth low high) :=
    fit?_of_small (Nat.le_trans (jumpsWidth_le low high) (by decide))
  unfold Instruction.jumpsWidth at width ⊢
  simp [jumpsWidth?, distance, count, natural, Nat.mul_comm _ 4, width]

example : jumpsWidth? (-0x80000000) 0x7fffffff = some 0x400000000 := by decide

theorem pairsWidth?_eq {pairs : Int32} (natural : ¬ pairs < 0) :
    pairsWidth? pairs = some (8 * pairs.toInt.toNat) := by
  rw [Int32.lt_iff_toInt_lt, Int.not_lt, Int32.toInt_zero] at natural
  have count : unsigned? pairs.toInt = some pairs.toInt.toNat := if_pos natural
  have width : fit? UInt64.size (8 * pairs.toInt.toNat) = some (8 * pairs.toInt.toNat) :=
    fit?_of_small (Nat.le_trans (pairsWidth_le pairs) (by decide))
  simp only [pairsWidth?, count, Option.bind_eq_bind, Option.bind_some, Nat.mul_comm _ 8, width]

end Machine

/-- Whether all places of the buffer are exact. -/
structure Registers.Sound (r : Registers) : Prop where
  inside : r.position ≤ r.buffer.length
  exact : r.base + r.buffer.length < UInt64.size

namespace Registers

/-- The registers some bytes further on. -/
def advance (r : Registers) (n : Nat) : Registers := { r with position := r.position + n }

variable {r : Registers} {n : Nat}

@[simp] theorem length_rest (r : Registers) : r.state.cursor.rest.length = r.remaining :=
  List.length_drop

theorem Sound.advance (sound : r.Sound) (enough : n ≤ r.remaining) : (r.advance n).Sound := by
  have inside := sound.inside
  unfold Registers.remaining at enough
  refine ⟨?_, sound.exact⟩
  change r.position + n ≤ r.buffer.length
  omega

theorem remaining_advance (r : Registers) (n : Nat) : (r.advance n).remaining = r.remaining - n :=
  Nat.sub_add_eq _ _ _

@[simp] theorem advance_advance (r : Registers) (m n : Nat) :
    (r.advance m).advance n = r.advance (m + n) := by
  rw [advance, advance, advance, Nat.add_assoc]

theorem state_advance (r : Registers) (n : Nat) :
    (r.advance n).state = { r.state with cursor := r.state.cursor.advance n } := by
  simp [state, Registers.advance, Cursor.advance]

end Registers

/-- How many of the operands at `pc` are padding. -/
def Operands.padding (pc : Nat) : Operands → Nat
  | .tableSwitch | .lookupSwitch => switchPadding pc
  | .fixed _ | .wide => 0

/-- How many bytes the operands fill, whatever they are. -/
def Operands.fixedWidth : Operands → Nat
  | .fixed n => n
  | .wide | .tableSwitch | .lookupSwitch => 0

theorem Opcode.fixedWidth_le (i : Nat) (inside : i < 202) : Opcode.table[i].operands.fixedWidth ≤ 4 := by
  have all : Opcode.table.all (fun opcode => opcode.operands.fixedWidth.ble 4) = true := by decide +kernel
  exact Nat.le_of_ble_eq_true (Vector.all_eq_true.mp all i inside)

theorem Opcode.fixed_le {byte : UInt8} {mnemonic : String} {n : Nat}
    (known : Opcode.ofByte? byte = some ⟨mnemonic, .fixed n⟩) : n ≤ 4 := by
  obtain ⟨bound, same⟩ := Vector.getElem?_eq_some_iff.mp known
  have few := Opcode.fixedWidth_le byte.toNat bound
  rwa [same] at few

namespace Guarded

open Machine

variable {r : Registers} {n : Nat}

theorem bind_of_ok {first : Guarded α} {next : α → Guarded β} {value : α} {after : Registers}
    (run : first r = some (.ok value after)) : (first >>= next) r = next value after := by
  change Guarded.bind first next r = _
  rw [Guarded.bind, run]

theorem bind_of_error {first : Guarded α} {next : α → Guarded β} {cause : Error} {after : Registers}
    (run : first r = some (.error cause after)) : (first >>= next) r = some (.error cause after) := by
  change Guarded.bind first next r = _
  rw [Guarded.bind, run]

theorem need_of_some {result : Option α} {value : α} (given : result = some value) :
    need result r = some (.ok value r) := by
  rw [need, given]
  rfl

theorem bind_need {result : Option α} {next : α → Guarded β} {value : α} (given : result = some value) :
    (need result >>= next) r = next value r := bind_of_ok (need_of_some given)

theorem offset_eq (sound : r.Sound) : offset r = some (.ok (r.base + r.position) r) := by
  have inside := sound.inside
  have exact := sound.exact
  exact need_of_some (fit?_of_lt (by omega))

theorem pass_eq (sound : r.Sound) (enough : n ≤ r.remaining) :
    pass n r = some (.ok (r.state.cursor.rest.take n) (r.advance n)) := by
  have inside := sound.inside
  have exact := sound.exact
  unfold Registers.remaining at enough
  have stop : fit? UInt64.size (r.position + n) = some (r.position + n) := fit?_of_lt (by omega)
  have bytes : slice? r.buffer r.position (r.position + n) = some (r.state.cursor.rest.take n) := by
    rw [slice?_of_le (by omega) (by omega), Nat.add_sub_cancel_left]
    rfl
  change (need _ >>= _) r = _
  rw [bind_need stop, bind_need bytes]
  rfl

theorem take_of_enough (sound : r.Sound) (enough : n ≤ r.remaining) :
    take n r = some (.ok (r.state.cursor.rest.take n) (r.advance n)) := by
  change (if n ≤ r.remaining then pass n else _ : Guarded Bytes) r = _
  rw [if_pos enough, pass_eq sound enough]

theorem take_of_few (sound : r.Sound) (few : r.remaining < n) :
    take n r = some (.error (.tooFewBytes n (r.base + r.position) r.remaining) r) := by
  change (if n ≤ r.remaining then pass n else _ : Guarded Bytes) r = _
  rw [if_neg (Nat.not_le.mpr few)]
  exact bind_of_ok (offset_eq sound)

theorem read_of_enough {κ : Type} [Word κ] (sound : r.Sound) (enough : Word.width κ ≤ r.remaining) :
    (read : Guarded (Scalar κ)) r =
      some (.ok ⟨Word.ofBytes (r.state.cursor.rest.take (Word.width κ)), r.base + r.position⟩
        (r.advance (Word.width κ))) := by
  unfold read
  rw [bind_of_ok (offset_eq sound)]
  change (if Word.width κ ≤ r.remaining then _ else _ : Guarded (Scalar κ)) r = _
  rw [if_pos enough, bind_of_ok (pass_eq sound enough)]
  rfl

theorem read_of_few {κ : Type} [Word κ] (sound : r.Sound) (few : r.remaining < Word.width κ) :
    (read : Guarded (Scalar κ)) r = some (.error .endOfInput (r.advance r.remaining)) := by
  have inside := sound.inside
  unfold read
  rw [bind_of_ok (offset_eq sound)]
  change (if Word.width κ ≤ r.remaining then _ else _ : Guarded (Scalar κ)) r = _
  rw [if_neg (Nat.not_le.mpr few)]
  have stop : r.position + r.remaining = r.buffer.length := by
    unfold Registers.remaining
    omega
  rw [Registers.advance, stop]
  rfl

/-! ### Code arrays -/

section Code

open Instruction (demand_eq_ok demand_eq_error overrun readOperands)

variable {declared pc m : Nat} {unknown : UInt8 → Error}

theorem takeOperands_of_enough (sound : r.Sound) (enough : n ≤ r.remaining) :
    takeOperands declared n r = some (.ok (r.state.cursor.rest.take n) (r.advance n)) := by
  change (if n ≤ r.remaining then take n else _ : Guarded Bytes) r = _
  rw [if_pos enough, take_of_enough sound enough]

/-- The place behind what is missing is exact as long as not too much is asked for. -/
theorem takeOperands_of_few (sound : r.Sound) (short : r.buffer.length < UInt32.size)
    (few : r.remaining < n) (small : n ≤ 0x400000000) :
    takeOperands declared n r = some (.error (overrun declared (r.position + n)) r) := by
  have inside := sound.inside
  unfold UInt32.size at short
  have stop : fit? UInt64.size (r.position + n) = some (r.position + n) := fit?_of_small (by omega)
  change (if n ≤ r.remaining then take n else _ : Guarded Bytes) r = _
  rw [if_neg (Nat.not_le.mpr few)]
  exact bind_need stop

/-- Whether a result is that of a computation and, if there is a value, leaves off as many bytes
further on as `width` says. -/
def Meets (result : Option (EStateM.Result Error Registers α)) (r : Registers) (width : α → Nat) :
    Except Error α → Prop
  | .ok value => result = some (.ok value (r.advance (width value)))
  | .error cause => ∃ after, result = some (.error cause after)

variable (sound : r.Sound) (short : r.buffer.length < UInt32.size)
include sound short

/-- Operands that are taken in two steps are those that are demanded at once. -/
theorem meets_behind (declared padding : Nat) (enough : m ≤ r.remaining) (small : n ≤ 0x400000000) :
    Meets ((takeOperands declared n >>= fun back =>
        pure (r.state.cursor.rest.take m ++ back, padding)) (r.advance m)) r (·.1.length)
      ((Instruction.demand declared (m + n) r.state.cursor).map fun bytes => (bytes, padding)) := by
  have left := r.remaining_advance m
  have later := sound.advance enough
  by_cases all : m + n ≤ r.remaining
  · have size : (r.state.cursor.rest.take (m + n)).length = m + n :=
      List.length_take_of_le (by rw [Registers.length_rest]; exact all)
    have whole : Instruction.demand declared (m + n) r.state.cursor = .ok (r.state.cursor.rest.take (m + n)) :=
      demand_eq_ok.mpr ⟨size, List.take_prefix _ _⟩
    have behind : (r.advance m).state.cursor.rest = r.state.cursor.rest.drop m := by
      rw [Registers.state_advance]
      rfl
    rw [whole, bind_of_ok (takeOperands_of_enough later (by omega)), behind, ← List.take_add]
    rw [Registers.advance_advance, Except.map, Meets, size]
    rfl
  · have few : (r.advance m).remaining < n := by omega
    have failed : Instruction.demand declared (m + n) r.state.cursor =
        .error (overrun declared (r.state.cursor.position + (m + n))) :=
      demand_eq_error.mpr ⟨by rw [Registers.length_rest]; omega, rfl⟩
    rw [failed, bind_of_error (takeOperands_of_few later short few small)]
    refine ⟨r.advance m, ?_⟩
    change some (EStateM.Result.error (overrun declared (r.position + m + n)) _) = _
    rw [Nat.add_assoc]
    rfl

/-- A header that is not there is complained about before it is looked into. -/
theorem meets_short (few : r.remaining < n) (small : n ≤ 0x400000000) (next : Bytes → Guarded α)
    (width : α → Nat) : Meets ((takeOperands declared n >>= next) r) r width
      (.error (overrun declared (r.position + n))) :=
  ⟨r, bind_of_error (takeOperands_of_few sound short few small)⟩

theorem operands_wide :
    Meets (operands declared pc unknown .wide r) r (·.1.length)
      ((readOperands declared pc unknown r.state.cursor .wide).map fun bytes => (bytes, 0)) := by
  cases next : r.state.cursor.rest with
  | nil =>
    have none : r.remaining < 1 := by
      rw [← Registers.length_rest, next]
      exact Nat.one_pos
    have failed : readOperands declared pc unknown r.state.cursor .wide =
        .error (overrun declared (r.position + 1)) := by
      have head : Instruction.demand declared 1 r.state.cursor = .error _ :=
        demand_eq_error.mpr ⟨by rw [next]; exact Nat.one_pos, rfl⟩
      unfold readOperands
      rw [head]
      rfl
    rw [failed]
    exact meets_short sound short none (by decide) _ _
  | cons widened rest =>
    have some : 1 ≤ r.remaining := by
      rw [← Registers.length_rest, next]
      exact Nat.succ_pos _
    rw [Instruction.readOperands_wide_of_cons next, operands,
      bind_of_ok (takeOperands_of_enough sound some), next]
    change Meets ((if Opcode.isWidenable widened then _ else _ : Guarded (Bytes × Nat)) (r.advance 1)) _ _ _
    by_cases widenable : Opcode.isWidenable widened = true
    · rw [if_pos widenable, if_pos widenable]
      have small : Opcode.widenedWidth widened ≤ 0x400000000 := by
        unfold Opcode.widenedWidth
        split <;> decide
      have both := meets_behind sound short declared 0 some small
      rw [next] at both
      exact both
    · rw [if_neg widenable, if_neg widenable]
      exact ⟨_, rfl⟩

theorem operands_tableSwitch (below : pc + 1 < UInt32.size) :
    Meets (operands declared pc unknown .tableSwitch r) r (·.1.length)
      ((readOperands declared pc unknown r.state.cursor .tableSwitch).map fun bytes =>
        (bytes, switchPadding pc)) := by
  have near : switchPadding pc ≤ 3 := Nat.sub_le 3 _
  have size : fit? UInt64.size (switchPadding pc + 12) = some (switchPadding pc + 12) :=
    fit?_of_small (by omega)
  rw [operands, bind_need (padding?_eq below), bind_need size]
  by_cases enough : switchPadding pc + 12 ≤ r.remaining
  · have there : switchPadding pc + 12 ≤ r.state.cursor.rest.length := by rwa [Registers.length_rest]
    obtain ⟨padding, rest, default, low, high, padded, spelt⟩ := Instruction.exists_tableHeader there
    have first : headerWord? (r.state.cursor.rest.take (switchPadding pc + 12)) (switchPadding pc + 4) =
        some low := by
      rw [headerWord?_take there (by omega), spelt, ← padded, Instruction.second_headerWord]
    have second : headerWord? (r.state.cursor.rest.take (switchPadding pc + 12)) (switchPadding pc + 8) =
        some high := by
      rw [headerWord?_take there (by omega), spelt, ← padded, Instruction.third_headerWord]
    rw [Instruction.readOperands_tableSwitch_of_header padded spelt,
      bind_of_ok (takeOperands_of_enough sound enough), bind_need first, bind_need second]
    by_cases inverted : high < low
    · rw [if_pos inverted, if_pos inverted]
      exact ⟨_, rfl⟩
    · rw [if_neg inverted, if_neg inverted, bind_need (jumpsWidth?_eq inverted)]
      exact meets_behind sound short declared _ enough (jumpsWidth_le low high)
  · have few : r.remaining < switchPadding pc + 12 := Nat.not_le.mp enough
    rw [Instruction.readOperands_tableSwitch_of_short (by rw [Registers.length_rest]; exact few)]
    exact meets_short sound short few (by omega) _ _

theorem operands_lookupSwitch (below : pc + 1 < UInt32.size) :
    Meets (operands declared pc unknown .lookupSwitch r) r (·.1.length)
      ((readOperands declared pc unknown r.state.cursor .lookupSwitch).map fun bytes =>
        (bytes, switchPadding pc)) := by
  have near : switchPadding pc ≤ 3 := Nat.sub_le 3 _
  have size : fit? UInt64.size (switchPadding pc + 8) = some (switchPadding pc + 8) :=
    fit?_of_small (by omega)
  rw [operands, bind_need (padding?_eq below), bind_need size]
  by_cases enough : switchPadding pc + 8 ≤ r.remaining
  · have there : switchPadding pc + 8 ≤ r.state.cursor.rest.length := by rwa [Registers.length_rest]
    obtain ⟨padding, rest, default, pairs, padded, spelt⟩ := Instruction.exists_lookupHeader there
    have first : headerWord? (r.state.cursor.rest.take (switchPadding pc + 8)) (switchPadding pc + 4) =
        some pairs := by
      rw [headerWord?_take there (by omega), spelt, ← padded, Instruction.second_headerWord]
    rw [Instruction.readOperands_lookupSwitch_of_header padded spelt,
      bind_of_ok (takeOperands_of_enough sound enough), bind_need first]
    by_cases negative : pairs < 0
    · rw [if_pos negative, if_pos negative]
      exact ⟨_, rfl⟩
    · rw [if_neg negative, if_neg negative, bind_need (pairsWidth?_eq negative)]
      exact meets_behind sound short declared _ enough (pairsWidth_le pairs)
  · have few : r.remaining < switchPadding pc + 8 := Nat.not_le.mp enough
    rw [Instruction.readOperands_lookupSwitch_of_short (by rw [Registers.length_rest]; exact few)]
    exact meets_short sound short few (by omega) _ _

theorem operands_meets {byte : UInt8} {opcode : Opcode} (known : Opcode.ofByte? byte = some opcode)
    (below : pc + 1 < UInt32.size) :
    Meets (operands declared pc unknown opcode.operands r) r (·.1.length)
      ((readOperands declared pc unknown r.state.cursor opcode.operands).map fun bytes =>
        (bytes, opcode.operands.padding pc)) := by
  obtain ⟨mnemonic, kind⟩ := opcode
  cases kind with
  | fixed n =>
    have few := Opcode.fixed_le known
    have whole := meets_behind sound short declared 0 (Nat.zero_le _) (by omega : n ≤ 0x400000000)
    rw [Nat.zero_add] at whole
    exact whole
  | wide => exact operands_wide sound short
  | tableSwitch => exact operands_tableSwitch sound short below
  | lookupSwitch => exact operands_lookupSwitch sound short below

theorem instruction_meets {byte : UInt8} {rest : Bytes} (next : r.state.cursor.rest = byte :: rest) :
    Meets (instruction declared r) r Instruction.width
      (Instruction.decodeAt declared byte r.state.cursor) := by
  have there : 1 ≤ r.remaining := by
    rw [← Registers.length_rest, next]
    exact Nat.succ_pos _
  have inside := sound.inside
  have ahead : r.position + 1 ≤ r.buffer.length := by
    unfold Registers.remaining at there
    omega
  have pc : fit? UInt32.size r.position = some r.position := fit?_of_lt (by omega)
  have value : (Word.ofBytes (r.state.cursor.rest.take (Word.width UInt8)) : UInt8) = byte := by
    rw [next]
    change Word.ofBytes [byte] = byte
    rw [← Word.toBytes_u1, Word.ofBytes_toBytes]
  have opcode : (read : Guarded U1) r = some (.ok ⟨byte, r.base + r.position⟩ (r.advance 1)) := by
    rw [read_of_enough sound there, value]
    rfl
  have step : instruction declared r = _ := bind_need pc
  rw [step, bind_of_ok opcode]
  unfold Instruction.decodeAt
  cases known : Opcode.ofByte? byte with
  | none => exact ⟨_, rfl⟩
  | some opcode =>
    let unknown (opcode : UInt8) : Error := .unknownOpcode opcode r.position (r.base + r.position)
    have met : Meets (operands declared r.position unknown opcode.operands (r.advance 1)) _ _ _ :=
      operands_meets (sound.advance there) short known (by omega)
    rw [Registers.state_advance] at met
    change Meets ((operands declared r.position unknown opcode.operands >>= _) (r.advance 1)) _ _
      ((Instruction.readOperands declared r.position unknown (r.state.cursor.advance 1) opcode.operands) >>= _)
    cases run : Instruction.readOperands declared r.position unknown (r.state.cursor.advance 1)
        opcode.operands with
    | error cause =>
      rw [run] at met
      obtain ⟨after, failed⟩ := met
      exact ⟨after, bind_of_error failed⟩
    | ok bytes =>
      rw [run] at met
      rw [bind_of_ok met]
      change some (EStateM.Result.ok (Instruction.mk r.position (r.base + r.position) byte bytes
          (opcode.operands.padding r.position)) ((r.advance 1).advance bytes.length)) =
        some (.ok ⟨r.position, r.base + r.position, byte, bytes, _⟩ (r.advance (1 + bytes.length)))
      rw [Registers.advance_advance]
      cases opcode.operands <;> rfl

omit sound short in
theorem Meets.advance {result : Option (EStateM.Result Error Registers α)} {before after : α → Nat}
    {outcome : Except Error α} (met : Meets result (r.advance n) after outcome)
    (same : ∀ value, n + after value = before value) : Meets result r before outcome := by
  cases outcome with
  | ok value =>
    rw [Meets, Registers.advance_advance, same] at met
    exact met
  | error cause => exact met

omit sound short in
/-- Where no byte is left, no turn is needed. -/
theorem instructions_done (done : r.remaining = 0) (turns : Nat) (decoded : Array Instruction) :
    Meets (instructions declared turns decoded r) r (fun _ => r.remaining)
      (Instruction.decodeFrom declared decoded r.state.cursor) := by
  have empty : r.state.cursor.rest = [] := List.length_eq_zero_iff.mp (r.length_rest.trans done)
  rw [Instruction.decodeFrom, dif_pos empty, Meets, done]
  cases turns with
  | zero | succ =>
    change (if r.remaining = 0 then _ else _ : Guarded (Array Instruction)) r = _
    rw [if_pos done]
    rfl

/-- All instructions are those that are decoded, however many turns are left. -/
theorem instructions_meet {turns : Nat} (enough : r.remaining ≤ turns) (decoded : Array Instruction) :
    Meets (instructions declared turns decoded r) r (fun _ => r.remaining)
      (Instruction.decodeFrom declared decoded r.state.cursor) := by
  induction turns generalizing r decoded with
  | zero => exact instructions_done (Nat.le_zero.mp enough) 0 decoded
  | succ turns ih =>
    by_cases done : r.remaining = 0
    · exact instructions_done done (turns + 1) decoded
    · have length := r.length_rest
      have left : r.state.cursor.rest ≠ [] := fun empty => done (length.symm.trans (by rw [empty]; rfl))
      have met : Meets (instruction declared r) r _ _ :=
        instruction_meets sound short (List.cons_head_tail left).symm
      rw [Instruction.decodeFrom, dif_neg left]
      change Meets ((if r.remaining = 0 then _ else _ : Guarded (Array Instruction)) r) _ _ _
      rw [if_neg done]
      cases run : Instruction.decodeAt declared (r.state.cursor.rest.head left) r.state.cursor with
      | error cause =>
        rw [run] at met
        obtain ⟨after, failed⟩ := met
        exact ⟨after, bind_of_error failed⟩
      | ok next =>
        rw [run] at met
        obtain ⟨bytes, -, size, whole⟩ := (Instruction.decodeAt_eq_ok_iff_grammar declared left).mp run
        have passed : next.width ≤ r.remaining := by
          rw [← length, whole, List.length_append, size]
          exact Nat.le_add_right _ _
        have positive : 0 < next.width := Nat.lt_of_lt_of_le Nat.one_pos (Nat.le_add_right _ _)
        have left := r.remaining_advance next.width
        have rest := ih (sound.advance passed) short (by omega) (decoded.push next)
        rw [bind_of_ok met]
        rw [Registers.state_advance] at rest
        exact rest.advance fun _ => by omega

end Code
end Guarded
end ClassFormat
