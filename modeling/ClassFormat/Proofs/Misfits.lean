import ClassFormat.Proofs.CodeGrammar

/-! Code arrays that cannot be cut. Where no instruction fits, the bytes there and their place
decide the complaint, and the first such place is the one that is reported. -/
namespace ClassFormat.Instruction

/-- The complaint about an instruction that would only end at `stop`. -/
def overrun (declared stop : Nat) : Error := .codeLength declared (min stop 0xffffffff)

/-- How many bytes follow the header of a table switch. -/
def jumpsWidth (low high : Int32) : Nat := 4 * (high.toInt - low.toInt + 1).toNat

/-- No instruction is spelt by the bytes at `pc`, for the reason given. -/
inductive Misfit (declared base pc : Nat) : Bytes → Error → Prop where
  | undefined {opcode rest} : Opcode.ofByte? opcode = none →
    Misfit declared base pc (opcode :: rest) (.unknownOpcode opcode pc (base + pc))
  | operands {opcode rest mnemonic n} : Opcode.ofByte? opcode = some ⟨mnemonic, .fixed n⟩ →
    rest.length < n → Misfit declared base pc (opcode :: rest) (overrun declared (pc + 1 + n))
  /-- Nothing is left for `wide` to apply to. -/
  | wide : Misfit declared base pc [Opcode.wide] (overrun declared (pc + 1 + 1))
  | unwidenable {opcode rest} : Opcode.isWidenable opcode = false →
    Misfit declared base pc (Opcode.wide :: opcode :: rest) (.unknownOpcode opcode pc (base + pc))
  | widened {opcode rest} : Opcode.isWidenable opcode = true → rest.length < Opcode.widenedWidth opcode →
    Misfit declared base pc (Opcode.wide :: opcode :: rest)
      (overrun declared (pc + 1 + (1 + Opcode.widenedWidth opcode)))
  | tableHeader {rest} : rest.length < switchPadding pc + 12 →
    Misfit declared base pc (Opcode.tableSwitch :: rest)
      (overrun declared (pc + 1 + (switchPadding pc + 12)))
  | range {padding rest} {default low high : Int32} : padding.length = switchPadding pc → high < low →
    Misfit declared base pc (Opcode.tableSwitch :: (padding ++ (Word.toBytes default ++
      (Word.toBytes low ++ (Word.toBytes high ++ rest))))) (.switchRange pc low high)
  | jumps {padding rest} {default low high : Int32} : padding.length = switchPadding pc → ¬ high < low →
    rest.length < jumpsWidth low high →
    Misfit declared base pc (Opcode.tableSwitch :: (padding ++ (Word.toBytes default ++
      (Word.toBytes low ++ (Word.toBytes high ++ rest)))))
      (overrun declared (pc + 1 + (switchPadding pc + 12 + jumpsWidth low high)))
  | lookupHeader {rest} : rest.length < switchPadding pc + 8 →
    Misfit declared base pc (Opcode.lookupSwitch :: rest)
      (overrun declared (pc + 1 + (switchPadding pc + 8)))
  | count {padding rest} {default pairs : Int32} : padding.length = switchPadding pc → pairs < 0 →
    Misfit declared base pc (Opcode.lookupSwitch :: (padding ++ (Word.toBytes default ++
      (Word.toBytes pairs ++ rest)))) (.switchPairs pc pairs)
  | pairs {padding rest} {default pairs : Int32} : padding.length = switchPadding pc → ¬ pairs < 0 →
    rest.length < 8 * pairs.toInt.toNat →
    Misfit declared base pc (Opcode.lookupSwitch :: (padding ++ (Word.toBytes default ++
      (Word.toBytes pairs ++ rest))))
      (overrun declared (pc + 1 + (switchPadding pc + 8 + 8 * pairs.toInt.toNat)))

section Operands

variable {declared pc n : Nat} {unknown : UInt8 → Error} {cursor : Cursor} {cause : Error}
  {padding rest : Bytes}

theorem demand_eq_error : demand declared n cursor = .error cause ↔
    cursor.rest.length < n ∧ cause = overrun declared (cursor.position + n) := by
  unfold demand Cursor.peek?
  by_cases enough : n ≤ cursor.rest.length
  · have size : (cursor.rest.take n).length = n := List.length_take_of_le enough
    simp only [size, ↓reduceIte]
    constructor
    · intro run
      cases run
    · intro short
      omega
  · have size : (cursor.rest.take n).length ≠ n := by
      rw [List.length_take]
      omega
    have short : cursor.rest.length < n := by omega
    simp only [size, ↓reduceIte, overrun, Except.error.injEq, short, true_and]
    exact eq_comm

/-- What decodes with an error does so in its first or in its second half. -/
theorem bind_eq_error {first : Except Error α} {next : α → Except Error β} :
    (first >>= next) = .error cause ↔
      first = .error cause ∨ ∃ part, first = .ok part ∧ next part = .error cause := by
  cases first with
  | ok part => simp [bind, Except.bind]
  | error found => simp [bind, Except.bind]

/-- Behind `wide` the next byte decides how much more is needed. -/
theorem readOperands_wide_of_cons {opcode : UInt8} (next : cursor.rest = opcode :: rest) :
    readOperands declared pc unknown cursor .wide =
      if Opcode.isWidenable opcode then demand declared (1 + Opcode.widenedWidth opcode) cursor
      else .error (unknown opcode) := by
  have head : demand declared 1 cursor = .ok [opcode] :=
    demand_eq_ok.mpr ⟨rfl, rest, next.symm⟩
  unfold readOperands
  rw [head]
  rfl

theorem readOperands_tableSwitch_of_short (short : cursor.rest.length < switchPadding pc + 12) :
    readOperands declared pc unknown cursor .tableSwitch =
      .error (overrun declared (cursor.position + (switchPadding pc + 12))) := by
  have head : demand declared _ cursor = .error _ := demand_eq_error.mpr ⟨short, rfl⟩
  simp only [readOperands, head]
  rfl

theorem readOperands_tableSwitch_of_header {default low high : Int32}
    (padded : padding.length = switchPadding pc)
    (next : cursor.rest = padding ++ (Word.toBytes default ++ (Word.toBytes low ++
      (Word.toBytes high ++ rest)))) :
    readOperands declared pc unknown cursor .tableSwitch =
      if high < low then .error (.switchRange pc low high)
      else demand declared (switchPadding pc + 12 + jumpsWidth low high) cursor := by
  have inside : padding.length + 12 ≤ cursor.rest.length := by
    rw [next]
    simp
    omega
  have header : demand declared (padding.length + 12) cursor =
      .ok (cursor.rest.take (padding.length + 12)) :=
    demand_eq_ok.mpr ⟨List.length_take_of_le inside, List.take_prefix _ _⟩
  have size := List.length_take_of_le inside
  unfold readOperands
  simp only [← padded, header]
  change (if headerWord _ (padding.length + 8) < headerWord _ (padding.length + 4) then _ else _) = _
  rw [headerWord_of_start (List.take_prefix _ _) (by omega),
    headerWord_of_start (List.take_prefix _ _) (by omega), next, second_headerWord,
    third_headerWord]
  rfl

theorem readOperands_lookupSwitch_of_short (short : cursor.rest.length < switchPadding pc + 8) :
    readOperands declared pc unknown cursor .lookupSwitch =
      .error (overrun declared (cursor.position + (switchPadding pc + 8))) := by
  have head : demand declared _ cursor = .error _ := demand_eq_error.mpr ⟨short, rfl⟩
  simp only [readOperands, head]
  rfl

theorem readOperands_lookupSwitch_of_header {default pairs : Int32}
    (padded : padding.length = switchPadding pc)
    (next : cursor.rest = padding ++ (Word.toBytes default ++ (Word.toBytes pairs ++ rest))) :
    readOperands declared pc unknown cursor .lookupSwitch =
      if pairs < 0 then .error (.switchPairs pc pairs)
      else demand declared (switchPadding pc + 8 + 8 * pairs.toInt.toNat) cursor := by
  have inside : padding.length + 8 ≤ cursor.rest.length := by
    rw [next]
    simp
    omega
  have header : demand declared (padding.length + 8) cursor =
      .ok (cursor.rest.take (padding.length + 8)) :=
    demand_eq_ok.mpr ⟨List.length_take_of_le inside, List.take_prefix _ _⟩
  have size := List.length_take_of_le inside
  unfold readOperands
  simp only [← padded, header]
  change (if headerWord _ (padding.length + 4) < 0 then _ else _) = _
  rw [headerWord_of_start (List.take_prefix _ _) (by omega), next, second_headerWord]
  rfl

theorem exists_tableHeader {p : Nat} {bytes : Bytes} (enough : p + 12 ≤ bytes.length) :
    ∃ (padding rest : Bytes) (default low high : Int32), padding.length = p ∧
      bytes = padding ++ (Word.toBytes default ++ (Word.toBytes low ++ (Word.toBytes high ++ rest))) := by
  obtain ⟨padding, words, padded, three, spelt⟩ := exists_padded p 3 (bytes.take (p + 12))
    (List.length_take_of_le enough)
  match words, three with
  | [default, low, high], _ =>
    refine ⟨padding, bytes.drop (p + 12), default, low, high, padded, ?_⟩
    have joined := List.take_append_drop (p + 12) bytes
    rw [spelt] at joined
    simpa using joined.symm

theorem exists_lookupHeader {p : Nat} {bytes : Bytes} (enough : p + 8 ≤ bytes.length) :
    ∃ (padding rest : Bytes) (default pairs : Int32), padding.length = p ∧
      bytes = padding ++ (Word.toBytes default ++ (Word.toBytes pairs ++ rest)) := by
  obtain ⟨padding, words, padded, two, spelt⟩ := exists_padded p 2 (bytes.take (p + 8))
    (List.length_take_of_le enough)
  match words, two with
  | [default, pairs], _ =>
    refine ⟨padding, bytes.drop (p + 8), default, pairs, padded, ?_⟩
    have joined := List.take_append_drop (p + 8) bytes
    rw [spelt] at joined
    simpa using joined.symm

end Operands

section Misfits

variable {declared base pc : Nat} {cause : Error} {rest : Bytes}

/-- The cursor behind an opcode at `pc`, where its operands are looked for. -/
def behind (base pc : Nat) (rest : Bytes) : Cursor := ⟨base, pc + 1, rest⟩

def unknownAt (base pc : Nat) (opcode : UInt8) : Error := .unknownOpcode opcode pc (base + pc)

theorem misfit_of_wide
    (run : readOperands declared pc (unknownAt base pc) (behind base pc rest) .wide = .error cause) :
    Misfit declared base pc (Opcode.wide :: rest) cause := by
  cases rest with
  | nil =>
    cases run
    exact .wide
  | cons opcode rest =>
    rw [readOperands_wide_of_cons rfl] at run
    by_cases widenable : Opcode.isWidenable opcode = true
    · rw [if_pos widenable] at run
      obtain ⟨short, rfl⟩ := demand_eq_error.mp run
      have left : rest.length < Opcode.widenedWidth opcode := by
        simp only [behind, List.length_cons] at short
        omega
      exact .widened widenable left
    · rw [if_neg widenable] at run
      cases run
      exact .unwidenable (Bool.eq_false_iff.mpr widenable)

theorem misfit_of_tableSwitch
    (run : readOperands declared pc (unknownAt base pc) (behind base pc rest) .tableSwitch =
      .error cause) : Misfit declared base pc (Opcode.tableSwitch :: rest) cause := by
  by_cases enough : switchPadding pc + 12 ≤ rest.length
  · obtain ⟨padding, rest, default, low, high, padded, rfl⟩ := exists_tableHeader enough
    rw [readOperands_tableSwitch_of_header padded rfl] at run
    by_cases inverted : high < low
    · rw [if_pos inverted] at run
      cases run
      exact .range padded inverted
    · rw [if_neg inverted] at run
      obtain ⟨short, rfl⟩ := demand_eq_error.mp run
      have left : rest.length < jumpsWidth low high := by
        simp only [behind, List.length_append, Word.length_toBytes, Word.width_i4, padded] at short
        omega
      exact .jumps padded inverted left
  · have short : rest.length < switchPadding pc + 12 := by omega
    rw [readOperands_tableSwitch_of_short short] at run
    cases run
    exact .tableHeader short

theorem misfit_of_lookupSwitch
    (run : readOperands declared pc (unknownAt base pc) (behind base pc rest) .lookupSwitch =
      .error cause) : Misfit declared base pc (Opcode.lookupSwitch :: rest) cause := by
  by_cases enough : switchPadding pc + 8 ≤ rest.length
  · obtain ⟨padding, rest, default, pairs, padded, rfl⟩ := exists_lookupHeader enough
    rw [readOperands_lookupSwitch_of_header padded rfl] at run
    by_cases negative : pairs < 0
    · rw [if_pos negative] at run
      cases run
      exact .count padded negative
    · rw [if_neg negative] at run
      obtain ⟨short, rfl⟩ := demand_eq_error.mp run
      have left : rest.length < 8 * pairs.toInt.toNat := by
        simp only [behind, List.length_append, Word.length_toBytes, Word.width_i4, padded] at short
        omega
      exact .pairs padded negative left
  · have short : rest.length < switchPadding pc + 8 := by omega
    rw [readOperands_lookupSwitch_of_short short] at run
    cases run
    exact .lookupHeader short

theorem misfit_of_readOperands {byte : UInt8} {opcode : Opcode}
    (known : Opcode.ofByte? byte = some opcode)
    (run : readOperands declared pc (unknownAt base pc) (behind base pc rest) opcode.operands =
      .error cause) : Misfit declared base pc (byte :: rest) cause := by
  obtain ⟨wide, table, lookup⟩ := special_opcode known
  obtain ⟨mnemonic, operands⟩ := opcode
  cases operands with
  | fixed n =>
    obtain ⟨short, rfl⟩ := demand_eq_error.mp run
    exact .operands known short
  | wide =>
    cases wide rfl
    exact misfit_of_wide run
  | tableSwitch =>
    cases table rfl
    exact misfit_of_tableSwitch run
  | lookupSwitch =>
    cases lookup rfl
    exact misfit_of_lookupSwitch run

/-- Conversely every misfit is complained about. -/
theorem Misfit.readOperands {byte : UInt8} {opcode : Opcode} (misfit : Misfit declared base pc (byte :: rest) cause)
    (known : Opcode.ofByte? byte = some opcode) :
    readOperands declared pc (unknownAt base pc) (behind base pc rest) opcode.operands =
      .error cause := by
  cases misfit with
  | undefined unknown =>
    rw [unknown] at known
    cases known
  | operands found short =>
    cases found.symm.trans known
    exact demand_eq_error.mpr ⟨short, rfl⟩
  | wide =>
    cases known
    rfl
  | unwidenable fixed =>
    cases known
    exact (readOperands_wide_of_cons rfl).trans (if_neg (Bool.eq_false_iff.mp fixed))
  | @widened second more widenable short =>
    cases known
    refine ((readOperands_wide_of_cons rfl).trans (if_pos widenable)).trans ?_
    refine demand_eq_error.mpr ⟨?_, rfl⟩
    simp only [behind, List.length_cons]
    omega
  | tableHeader short =>
    cases known
    exact readOperands_tableSwitch_of_short short
  | range padded inverted =>
    cases known
    exact (readOperands_tableSwitch_of_header padded rfl).trans (if_pos inverted)
  | jumps padded ordered short =>
    cases known
    refine ((readOperands_tableSwitch_of_header padded rfl).trans (if_neg ordered)).trans ?_
    refine demand_eq_error.mpr ⟨?_, rfl⟩
    simp only [behind, List.length_append, Word.length_toBytes, Word.width_i4, padded]
    omega
  | lookupHeader short =>
    cases known
    exact readOperands_lookupSwitch_of_short short
  | count padded negative =>
    cases known
    exact (readOperands_lookupSwitch_of_header padded rfl).trans (if_pos negative)
  | pairs padded natural short =>
    cases known
    refine ((readOperands_lookupSwitch_of_header padded rfl).trans (if_neg natural)).trans ?_
    refine demand_eq_error.mpr ⟨?_, rfl⟩
    simp only [behind, List.length_append, Word.length_toBytes, Word.width_i4, padded]
    omega

/-- What cannot be decoded at the cursor is a misfit there. -/
theorem decodeAt_eq_error {byte : UInt8} {cursor : Cursor} (next : cursor.rest = byte :: rest) :
    decodeAt declared byte cursor = .error cause ↔
      Misfit declared cursor.base cursor.position (byte :: rest) cause := by
  have after : cursor.advance 1 = behind cursor.base cursor.position rest := by
    simp [Cursor.advance, behind, next]
  unfold decodeAt
  simp only [after]
  cases known : Opcode.ofByte? byte with
  | none =>
    constructor
    · intro run
      cases run
      exact .undefined known
    · intro misfit
      cases misfit with
      | undefined => rfl
      | operands found => cases found.symm.trans known
      | _ => cases known
  | some opcode =>
    simp only [bind_eq_error]
    constructor
    · intro run
      rcases run with run | ⟨operands, _, run⟩
      · exact misfit_of_readOperands known run
      · cases run
    · intro misfit
      exact .inl (misfit.readOperands known)

end Misfits

section Streams

variable {declared base : Nat} {cause : Error}

/-- No misfit is empty. -/
theorem Misfit.cons {pc : Nat} {bytes : Bytes} (misfit : Misfit declared base pc bytes cause) :
    ∃ byte rest, bytes = byte :: rest := by
  cases misfit <;> exact ⟨_, _, rfl⟩

theorem length_of_grammar {pc : Nat} {instruction : Instruction} {bytes : Bytes}
    (written : grammar base pc instruction bytes) : bytes.length = instruction.width := by
  obtain ⟨form, _, rfl, rfl⟩ := written
  exact Nat.add_comm _ _

theorem cons_of_grammar {pc : Nat} {instruction : Instruction} {bytes : Bytes}
    (written : grammar base pc instruction bytes) :
    bytes = instruction.opcode :: instruction.operands := by
  obtain ⟨form, _, rfl, rfl⟩ := written
  rfl

/-- What an instruction is decoded from does not depend on what follows it. -/
theorem decodeAt_of_grammar (declared : Nat) {cursor : Cursor} {instruction : Instruction} {xs ys : Bytes}
    (left : cursor.rest ≠ []) (whole : cursor.rest = xs ++ ys)
    (written : grammar cursor.base cursor.position instruction xs) :
    decodeAt declared (cursor.rest.head left) cursor = .ok instruction ∧
      (cursor.advance instruction.width).rest = ys := by
  have size := length_of_grammar written
  have rest : (cursor.advance instruction.width).rest = ys := by
    rw [Cursor.advance, whole, ← size, List.drop_left]
  refine ⟨(decodeAt_eq_ok_iff_grammar declared left).mpr ⟨xs, written, size, ?_⟩, rest⟩
  rw [rest, whole]

/-- Bytes are a misfit at their place exactly if they do not start with an instruction there. -/
theorem exists_misfit_iff {pc : Nat} {bytes : Bytes} :
    (∃ cause, Misfit declared base pc bytes cause) ↔
      bytes ≠ [] ∧ ∀ instruction xs ys, bytes = xs ++ ys → ¬ grammar base pc instruction xs := by
  constructor
  · intro given
    rcases given with ⟨cause, misfit⟩
    obtain ⟨byte, rest, rfl⟩ := misfit.cons
    refine ⟨List.cons_ne_nil byte rest, fun instruction xs ys whole written => ?_⟩
    have next : (⟨base, pc, byte :: rest⟩ : Cursor).rest = byte :: rest := rfl
    have left : (⟨base, pc, byte :: rest⟩ : Cursor).rest ≠ [] := List.cons_ne_nil byte rest
    have failed := (decodeAt_eq_error next).mpr misfit
    have decoded := (decodeAt_of_grammar declared left whole written).1
    rw [List.head_cons, failed] at decoded
    cases decoded
  · intro given
    rcases given with ⟨left, none⟩
    have next : bytes = bytes.head left :: bytes.tail := (List.cons_head_tail left).symm
    cases run : decodeAt declared (bytes.head left) ⟨base, pc, bytes⟩ with
    | ok instruction =>
      have ahead : (⟨base, pc, bytes⟩ : Cursor).rest ≠ [] := left
      obtain ⟨xs, written, _, whole⟩ := (decodeAt_eq_ok_iff_grammar declared ahead).mp run
      exact absurd written (none instruction xs _ whole)
    | error cause => exact ⟨cause, next ▸ (decodeAt_eq_error next).mp run⟩

theorem Misfit.cause_unique {pc : Nat} {bytes : Bytes} {other : Error}
    (misfit : Misfit declared base pc bytes cause) (same : Misfit declared base pc bytes other) :
    cause = other := by
  obtain ⟨byte, rest, rfl⟩ := misfit.cons
  have next : (⟨base, pc, byte :: rest⟩ : Cursor).rest = byte :: rest := rfl
  have one := (decodeAt_eq_error next).mpr misfit
  have two := (decodeAt_eq_error next).mpr same
  exact Except.error.inj (one.symm.trans two)

/-- The complaint is that about the first place at which no instruction fits. -/
theorem decodeFrom_eq_error {decoded : Array Instruction} {cursor : Cursor} :
    decodeFrom declared decoded cursor = .error cause ↔ ∃ front rest earlier,
      cursor.rest = front ++ rest ∧ (grammar cursor.base).each cursor.position earlier front ∧
        Misfit declared cursor.base (cursor.position + front.length) rest cause := by
  induction decoded, cursor using decodeFrom.induct declared with
  | case1 decoded cursor done =>
    rw [decodeFrom, dif_pos done]
    constructor
    · intro run
      cases run
    · intro given
      rcases given with ⟨front, rest, earlier, whole, -, misfit⟩
      obtain ⟨byte, more, rfl⟩ := misfit.cons
      simp [done] at whole
  | case2 decoded cursor left instruction here ih =>
    rw [decodeFrom, dif_neg left, here]
    simp only [ih]
    obtain ⟨bytes, written, size, whole⟩ := (decodeAt_eq_ok_iff_grammar declared left).mp here
    have place : (cursor.advance instruction.width).position = cursor.position + bytes.length := by
      rw [size]
      rfl
    constructor
    · intro given
      rcases given with ⟨front, rest, earlier, split, cut, misfit⟩
      rw [place] at cut misfit
      refine ⟨bytes ++ front, rest, instruction :: earlier, ?_, ⟨bytes, front, rfl, written, cut⟩, ?_⟩
      · rw [whole, split, List.append_assoc]
      · rw [List.length_append, ← Nat.add_assoc]
        exact misfit
    · intro given
      rcases given with ⟨front, rest, earlier, split, cut, misfit⟩
      cases earlier with
      | nil =>
        -- Nothing comes before the misfit, so it is where the instruction was found.
        obtain rfl : front = [] := cut
        obtain ⟨byte, more, rfl⟩ := misfit.cons
        have failed := (decodeAt_eq_error split).mpr misfit
        have head : cursor.rest.head left = byte := by simp [split]
        rw [head, failed] at here
        cases here
      | cons first earlier =>
        obtain ⟨xs, ys, rfl, start, later⟩ := cut
        rw [List.append_assoc] at split
        obtain ⟨same, after⟩ := decodeAt_of_grammar declared left split start
        obtain rfl : instruction = first := Except.ok.inj (here.symm.trans same)
        have known := length_of_grammar start
        refine ⟨ys, rest, earlier, after, ?_, ?_⟩
        · rw [place, size, ← known]
          exact later
        · rw [place, size, ← known, Nat.add_assoc, ← List.length_append]
          exact misfit
  | case3 decoded cursor left found here =>
    rw [decodeFrom, dif_neg left, here]
    have next : cursor.rest = cursor.rest.head left :: cursor.rest.tail :=
      (List.cons_head_tail left).symm
    constructor
    · intro run
      cases run
      exact ⟨[], cursor.rest, [], rfl, rfl, next ▸ (decodeAt_eq_error next).mp here⟩
    · intro given
      rcases given with ⟨front, rest, earlier, split, cut, misfit⟩
      cases earlier with
      | nil =>
        obtain rfl : front = [] := cut
        have rest_eq : rest = cursor.rest.head left :: cursor.rest.tail := by
          rw [← next, split, List.nil_append]
        rw [rest_eq] at misfit
        have failed := (decodeAt_eq_error next).mpr misfit
        rw [here] at failed
        cases failed
        rfl
      | cons first earlier =>
        obtain ⟨xs, ys, rfl, start, -⟩ := cut
        rw [List.append_assoc] at split
        obtain ⟨same, -⟩ := decodeAt_of_grammar declared left split start
        rw [here] at same
        cases same

theorem decodeAll_eq_error {bytes : Bytes} :
    decodeAll declared base bytes = .error cause ↔ ∃ front rest earlier, bytes = front ++ rest ∧
      (grammar base).each 0 earlier front ∧ Misfit declared base front.length rest cause := by
  unfold decodeAll
  rw [decodeFrom_eq_error]
  simp [Cursor.startingAt]

/-- How many bytes instructions fill one behind the other. -/
def totalWidth : List Instruction → Nat
  | [] => 0
  | first :: later => first.width + totalWidth later

variable {pc : Nat} {instructions : List Instruction} {bytes : Bytes}

/-- A code array can be cut in one way at most. -/
theorem cut_unique {others : List Instruction} (cut : (grammar base).each 0 instructions bytes)
    (other : (grammar base).each 0 others bytes) : instructions = others := by
  have one : decodeAll 0 base bytes = .ok instructions.toArray := decodeAll_eq_ok.mpr cut
  have two : decodeAll 0 base bytes = .ok others.toArray := decodeAll_eq_ok.mpr other
  exact congrArg Array.toList (Except.ok.inj (one.symm.trans two))

theorem pc_of_cut (cut : (grammar base).each pc instructions bytes) (k : Nat)
    (inside : k < instructions.length) :
    instructions[k].pc = pc + totalWidth (instructions.take k) := by
  induction instructions generalizing pc bytes k with
  | nil => cases inside
  | cons first later ih =>
    obtain ⟨xs, ys, rfl, start, rest⟩ := cut
    cases k with
    | zero =>
      obtain ⟨form, _, rfl, _⟩ := start
      rfl
    | succ k =>
      have next := ih rest k (Nat.lt_of_succ_lt_succ inside)
      rw [length_of_grammar start, Nat.add_assoc] at next
      rw [List.take_succ_cons, totalWidth]
      exact next

theorem grammar_of_cut {instruction : Instruction} (cut : (grammar base).each pc instructions bytes)
    (listed : instruction ∈ instructions) :
    ∃ xs, grammar base instruction.pc instruction xs := by
  induction instructions generalizing pc bytes with
  | nil => cases listed
  | cons first later ih =>
    obtain ⟨xs, ys, rfl, start, rest⟩ := cut
    rcases List.mem_cons.mp listed with rfl | listed
    · obtain ⟨form, fits, rfl, same⟩ := start
      exact ⟨xs, form, fits, rfl, same⟩
    · exact ih rest listed

theorem spelt_of_cut (cut : (grammar base).each pc instructions bytes) :
    (instructions.flatMap fun instruction => instruction.opcode :: instruction.operands) = bytes := by
  induction instructions generalizing pc bytes with
  | nil => exact cut.symm
  | cons first later ih =>
    obtain ⟨xs, ys, rfl, start, rest⟩ := cut
    rw [List.flatMap_cons, ih rest, cons_of_grammar start]

theorem length_of_cut (cut : (grammar base).each pc instructions bytes) :
    totalWidth instructions = bytes.length := by
  induction instructions generalizing pc bytes with
  | nil =>
    obtain rfl : bytes = [] := cut
    rfl
  | cons first later ih =>
    obtain ⟨xs, ys, rfl, start, rest⟩ := cut
    rw [totalWidth, ih rest, List.length_append, length_of_grammar start]

/-- Only the operands of a switch are padded. -/
theorem padding_of_grammar {instruction : Instruction} (written : grammar base pc instruction bytes) :
    instruction.padding =
      if instruction.opcode = Opcode.tableSwitch ∨ instruction.opcode = Opcode.lookupSwitch
      then 3 - pc % 4 else 0 := by
  obtain ⟨form, fits, rfl, -⟩ := written
  cases form with
  | plain opcode operands =>
    obtain ⟨mnemonic, known⟩ := fits
    have table : opcode ≠ Opcode.tableSwitch := by
      rintro rfl
      cases known
    have lookup : opcode ≠ Opcode.lookupSwitch := by
      rintro rfl
      cases known
    simp [Form.placed, Form.opcode, Form.padding, table, lookup]
  | widened opcode operands => rfl
  | tableSwitch padding default low high jumps => exact fits.1
  | lookupSwitch padding default pairs => exact fits.1

/-- What decoding a code array that lies at `base` answers. -/
structure CutExactly (base : Nat) (bytes : Bytes) : Prop where
  accepted : ∀ instructions, decodeAll bytes.length base bytes = .ok instructions ↔
    (grammar base).each 0 instructions.toList bytes
  unique : ∀ instructions others, (grammar base).each 0 instructions bytes →
    (grammar base).each 0 others bytes → instructions = others
  placed : ∀ instructions, (grammar base).each 0 instructions bytes →
    ∀ k (inside : k < instructions.length),
      instructions[k].pc = totalWidth (instructions.take k) ∧
        instructions[k].offset = base + instructions[k].pc
  padded : ∀ instructions, (grammar base).each 0 instructions bytes →
    ∀ instruction ∈ instructions, instruction.padding =
      if instruction.opcode = Opcode.tableSwitch ∨ instruction.opcode = Opcode.lookupSwitch
      then 3 - instruction.pc % 4 else 0
  /-- Nothing of the array is lost. -/
  spelt : ∀ instructions, (grammar base).each 0 instructions bytes →
    (instructions.flatMap fun instruction => instruction.opcode :: instruction.operands) = bytes ∧
      totalWidth instructions = bytes.length
  /-- What comes before the first misfit can be cut. -/
  rejected : ∀ cause, decodeAll bytes.length base bytes = .error cause ↔
    ∃ front rest earlier, bytes = front ++ rest ∧ (grammar base).each 0 earlier front ∧
      Misfit bytes.length base front.length rest cause
  misfits : ∀ pc rest, (∃ cause, Misfit bytes.length base pc rest cause) ↔
    rest ≠ [] ∧ ∀ instruction xs ys, rest = xs ++ ys → ¬ grammar base pc instruction xs
  reason : ∀ pc rest cause other, Misfit bytes.length base pc rest cause →
    Misfit bytes.length base pc rest other → cause = other

theorem decodeAll_cutExactly (base : Nat) (bytes : Bytes) : CutExactly base bytes where
  accepted instructions := decodeAll_eq_ok
  unique instructions others cut other := cut_unique cut other
  placed instructions cut k inside := by
    have pc := pc_of_cut cut k inside
    obtain ⟨xs, form, _, same, _⟩ := grammar_of_cut cut (List.getElem_mem inside)
    have place : instructions[k].offset = base + instructions[k].pc := by
      rw [same]
      rfl
    exact ⟨by rw [pc, Nat.zero_add], place⟩
  padded instructions cut instruction listed := by
    obtain ⟨xs, written⟩ := grammar_of_cut cut listed
    exact padding_of_grammar written
  spelt instructions cut := ⟨spelt_of_cut cut, length_of_cut cut⟩
  rejected cause := decodeAll_eq_error
  misfits pc rest := exists_misfit_iff
  reason pc rest cause other misfit same := misfit.cause_unique same

end Streams
end ClassFormat.Instruction
