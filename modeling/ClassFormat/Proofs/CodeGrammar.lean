import ClassFormat.Code.Stream
import ClassFormat.Proofs.Reading

/-! The grammar of code arrays. An instruction is one of four forms, two of which depend on
its place, and a code array is cut into instructions exactly as the forms fit behind each
other from its start. -/
namespace ClassFormat.Instruction

/-- What an instruction is made of. -/
inductive Form where
  | plain (opcode : UInt8) (operands : Bytes)
  /-- An instruction with `wide` before it. -/
  | widened (opcode : UInt8) (operands : Bytes)
  | tableSwitch (padding : Bytes) (default low high : Int32) (jumps : List Int32)
  | lookupSwitch (padding : Bytes) (default : Int32) (pairs : List (Int32 × Int32))
  deriving DecidableEq, Repr

namespace Form

def opcode : Form → UInt8
  | plain opcode _ => opcode
  | widened .. => Opcode.wide
  | tableSwitch .. => Opcode.tableSwitch
  | lookupSwitch .. => Opcode.lookupSwitch

def operands : Form → Bytes
  | plain _ operands => operands
  | widened opcode operands => opcode :: operands
  | tableSwitch padding default low high jumps =>
    padding ++ (Word.toBytes default ++ (Word.toBytes low ++ (Word.toBytes high ++
      jumps.flatMap Word.toBytes)))
  | lookupSwitch padding default pairs =>
    padding ++ (Word.toBytes default ++ (Word.toBytes (Int32.ofNat pairs.length) ++
      pairs.flatMap fun pair => Word.toBytes pair.1 ++ Word.toBytes pair.2))

def padding : Form → Nat
  | plain .. | widened .. => 0
  | tableSwitch padding .. | lookupSwitch padding .. => padding.length

/-- Whether the form is that of an instruction at `pc`. -/
def Fits (pc : Nat) : Form → Prop
  | plain opcode operands =>
    ∃ mnemonic, Opcode.ofByte? opcode = some ⟨mnemonic, .fixed operands.length⟩
  | widened opcode operands =>
    Opcode.isWidenable opcode ∧ operands.length = Opcode.widenedWidth opcode
  | tableSwitch padding _ low high jumps =>
    padding.length = switchPadding pc ∧ (jumps.length : Int) = high.toInt - low.toInt + 1 ∧
      low.toInt ≤ high.toInt
  | lookupSwitch padding _ pairs =>
    padding.length = switchPadding pc ∧ pairs.length < 0x80000000

/-- The instruction of this form at `pc` in a code array that lies at `base`. -/
def placed (base pc : Nat) (form : Form) : Instruction :=
  ⟨pc, base + pc, form.opcode, form.operands, form.padding⟩

end Form

/-- What is written for an instruction of a code array that lies at `base`. -/
def grammar (base : Nat) : Grammar Instruction := fun pc instruction bytes =>
  ∃ form : Form, form.Fits pc ∧ instruction = form.placed base pc ∧
    bytes = form.opcode :: form.operands

theorem demand_eq_ok {declared n : Nat} {cursor : Cursor} {bytes : Bytes} :
    demand declared n cursor = .ok bytes ↔ bytes.length = n ∧ bytes <+: cursor.rest := by
  unfold demand Cursor.peek?
  simp only
  constructor
  · intro run
    split at run
    next seen =>
      cases run
      split at seen
      next size => cases seen; exact ⟨size, List.take_prefix _ _⟩
      next => cases seen
    next => cases run
  · rintro ⟨rfl, front⟩
    have same : cursor.rest.take bytes.length = bytes := (List.prefix_iff_eq_take.mp front).symm
    simp [same]

/-- Only one opcode each has operands that are not of a fixed width. -/
theorem special_opcodes : ∀ i : Fin 202,
    (Opcode.table[i].operands = .wide → i.val = Opcode.wide.toNat) ∧
    (Opcode.table[i].operands = .tableSwitch → i.val = Opcode.tableSwitch.toNat) ∧
    (Opcode.table[i].operands = .lookupSwitch → i.val = Opcode.lookupSwitch.toNat) := by
  decide +kernel

theorem special_opcode {byte : UInt8} {opcode : Opcode} (known : Opcode.ofByte? byte = some opcode) :
    (opcode.operands = .wide → byte = Opcode.wide) ∧
    (opcode.operands = .tableSwitch → byte = Opcode.tableSwitch) ∧
    (opcode.operands = .lookupSwitch → byte = Opcode.lookupSwitch) := by
  obtain ⟨bound, rfl⟩ := Vector.getElem?_eq_some_iff.mp known
  obtain ⟨wide, table, lookup⟩ := special_opcodes ⟨byte.toNat, bound⟩
  exact ⟨fun h => UInt8.toNat_inj.mp (wide h), fun h => UInt8.toNat_inj.mp (table h),
    fun h => UInt8.toNat_inj.mp (lookup h)⟩

theorem length_words (words : List Int32) :
    (words.flatMap Word.toBytes).length = 4 * words.length := by
  induction words with
  | nil => rfl
  | cons word rest ih =>
    simp only [List.flatMap_cons, List.length_append, Word.length_toBytes, Word.width_i4, ih,
      List.length_cons]
    omega

theorem length_pairs (pairs : List (Int32 × Int32)) :
    (pairs.flatMap fun pair => Word.toBytes pair.1 ++ Word.toBytes pair.2).length =
      8 * pairs.length := by
  induction pairs with
  | nil => rfl
  | cons pair rest ih =>
    simp only [List.flatMap_cons, List.length_append, Word.length_toBytes, Word.width_i4, ih,
      List.length_cons]
    omega

/-- Bytes that fill so many words are the words they spell. -/
theorem exists_words (n : Nat) (bytes : Bytes) (size : bytes.length = 4 * n) :
    ∃ words : List Int32, words.length = n ∧ bytes = words.flatMap Word.toBytes := by
  induction n generalizing bytes with
  | zero => exact ⟨[], rfl, List.length_eq_zero_iff.mp size⟩
  | succ n ih =>
    obtain ⟨words, count, spelt⟩ := ih (bytes.drop 4) (by simp; omega)
    have first : Word.toBytes (Word.ofBytes (bytes.take 4) : Int32) = bytes.take 4 :=
      Word.toBytes_ofBytes _ (by simp; omega)
    refine ⟨Word.ofBytes (bytes.take 4) :: words, by simp [count], ?_⟩
    rw [List.flatMap_cons, first, ← spelt, List.take_append_drop]

theorem exists_pairs (n : Nat) (bytes : Bytes) (size : bytes.length = 8 * n) :
    ∃ pairs : List (Int32 × Int32), pairs.length = n ∧
      bytes = pairs.flatMap fun pair => Word.toBytes pair.1 ++ Word.toBytes pair.2 := by
  induction n generalizing bytes with
  | zero => exact ⟨[], rfl, List.length_eq_zero_iff.mp size⟩
  | succ n ih =>
    obtain ⟨pairs, count, spelt⟩ := ih (bytes.drop 8) (by simp; omega)
    obtain ⟨words, two, both⟩ := exists_words 2 (bytes.take 8) (by simp; omega)
    match words, two with
    | [a, b], _ =>
      refine ⟨(a, b) :: pairs, by simp [count], ?_⟩
      have first : Word.toBytes a ++ Word.toBytes b = bytes.take 8 := by simpa using both.symm
      rw [List.flatMap_cons, ← spelt, first, List.take_append_drop]

/-- Padding and then words, which is what a switch has for operands. -/
theorem exists_padded (p n : Nat) (bytes : Bytes) (size : bytes.length = p + 4 * n) :
    ∃ (padding : Bytes) (words : List Int32), padding.length = p ∧ words.length = n ∧
      bytes = padding ++ words.flatMap Word.toBytes := by
  obtain ⟨words, count, spelt⟩ := exists_words n (bytes.drop p) (by simp; omega)
  refine ⟨bytes.take p, words, by simp; omega, count, ?_⟩
  rw [← spelt, List.take_append_drop]

theorem exists_three {words : List α} (enough : 3 ≤ words.length) :
    ∃ a b c rest, words = a :: b :: c :: rest := by
  match words, enough with
  | a :: b :: c :: rest, _ => exact ⟨a, b, c, rest, rfl⟩

/-- The header of a switch is where its operands begin. -/
theorem headerWord_of_start {header bytes : Bytes} {start : Nat} (front : header <+: bytes)
    (inside : start + 4 ≤ header.length) : headerWord header start = headerWord bytes start := by
  obtain ⟨rest, rfl⟩ := front
  unfold headerWord
  rw [List.drop_append_of_le_length (by omega), List.take_append_of_le_length (by simp; omega)]

theorem headerWord_append (front rest : Bytes) (word : Int32) :
    headerWord (front ++ (Word.toBytes word ++ rest)) front.length = word := by
  unfold headerWord
  rw [List.drop_left, ← Word.width_i4, ← Word.length_toBytes word, List.take_left,
    Word.ofBytes_toBytes]

theorem second_headerWord {padding rest : Bytes} {first second : Int32} :
    headerWord (padding ++ (Word.toBytes first ++ (Word.toBytes second ++ rest)))
      (padding.length + 4) = second := by
  simpa using headerWord_append (padding ++ Word.toBytes first) rest second

theorem third_headerWord {padding rest : Bytes} {first second third : Int32} :
    headerWord (padding ++ (Word.toBytes first ++ (Word.toBytes second ++ (Word.toBytes third ++ rest))))
      (padding.length + 8) = third := by
  simpa using headerWord_append (padding ++ (Word.toBytes first ++ Word.toBytes second)) rest third

section Operands

variable {declared pc : Nat} {unknown : UInt8 → Error} {cursor : Cursor} {operands : Bytes}

theorem readOperands_wide : readOperands declared pc unknown cursor .wide = .ok operands ↔
    ∃ opcode rest, operands = opcode :: rest ∧ Opcode.isWidenable opcode ∧
      rest.length = Opcode.widenedWidth opcode ∧ operands <+: cursor.rest := by
  unfold readOperands
  simp only [Error.bind_eq_ok, demand_eq_ok]
  constructor
  · intro given
    rcases given with ⟨head, ⟨one, front⟩, run⟩
    match head, one with
    | [opcode], _ =>
      split at run
      next widenable =>
        obtain ⟨size, whole⟩ := demand_eq_ok.mp run
        cases operands with
        | nil =>
          simp at size
          omega
        | cons first rest =>
          obtain ⟨behind, ahead⟩ := front
          obtain ⟨further, more⟩ := whole
          rw [← more] at ahead
          obtain rfl : opcode = first := by simpa using (List.cons.inj ahead).1
          have count : rest.length = Opcode.widenedWidth opcode := by
            simp at size
            omega
          exact ⟨opcode, rest, rfl, widenable, count, further, more⟩
      next => cases run
  · intro given
    rcases given with ⟨opcode, rest, rfl, widenable, size, whole⟩
    refine ⟨[opcode], ⟨rfl, List.IsPrefix.trans ⟨rest, rfl⟩ whole⟩, ?_⟩
    simp only [List.headD_cons, widenable, ↓reduceIte]
    exact demand_eq_ok.mpr ⟨by simp [size, Nat.add_comm], whole⟩

theorem readOperands_tableSwitch : readOperands declared pc unknown cursor .tableSwitch = .ok operands ↔
    ∃ padding default low high jumps,
      (Form.tableSwitch padding default low high jumps).Fits pc ∧
      operands = (Form.tableSwitch padding default low high jumps).operands ∧
      operands <+: cursor.rest := by
  unfold readOperands
  simp only [Error.bind_eq_ok, demand_eq_ok]
  constructor
  · intro given
    rcases given with ⟨header, ⟨headerSize, front⟩, run⟩
    split at run
    next => cases run
    next ordered =>
      obtain ⟨size, whole⟩ := demand_eq_ok.mp run
      have start : header <+: operands := List.prefix_of_prefix_length_le front whole (by omega)
      rw [headerWord_of_start start (by omega), headerWord_of_start start (by omega)] at size ordered
      obtain ⟨padding, words, padded, count, rfl⟩ := exists_padded (switchPadding pc)
        (((headerWord operands (switchPadding pc + 8)).toInt -
          (headerWord operands (switchPadding pc + 4)).toInt + 1).toNat + 3) operands (by omega)
      obtain ⟨default, low, high, jumps, rfl⟩ := exists_three (by omega : 3 ≤ words.length)
      rw [← padded] at count ordered
      simp only [List.flatMap_cons, second_headerWord, third_headerWord, List.length_cons,
        Int32.lt_iff_toInt_lt] at count ordered whole
      exact ⟨padding, default, low, high, jumps, ⟨padded, by omega, by omega⟩, rfl, whole⟩
  · intro given
    rcases given with ⟨padding, default, low, high, jumps, ⟨padded, count, ordered⟩, rfl, whole⟩
    simp only [Form.operands] at whole ⊢
    have front := List.IsPrefix.trans (List.take_prefix (padding.length + 12) _) whole
    refine ⟨_, ⟨?_, front⟩, ?_⟩
    · simp [← padded]
      omega
    · rw [headerWord_of_start (List.take_prefix _ _) (by simp; omega),
        headerWord_of_start (List.take_prefix _ _) (by simp; omega), ← padded, second_headerWord,
        third_headerWord, if_neg (by rw [Int32.lt_iff_toInt_lt]; omega)]
      refine demand_eq_ok.mpr ⟨?_, whole⟩
      simp only [List.length_append, Word.length_toBytes, Word.width_i4, length_words]
      omega

theorem readOperands_lookupSwitch :
    readOperands declared pc unknown cursor .lookupSwitch = .ok operands ↔
      ∃ padding default pairs, (Form.lookupSwitch padding default pairs).Fits pc ∧
        operands = (Form.lookupSwitch padding default pairs).operands ∧ operands <+: cursor.rest := by
  unfold readOperands
  simp only [Error.bind_eq_ok, demand_eq_ok]
  constructor
  · intro given
    rcases given with ⟨header, ⟨headerSize, front⟩, run⟩
    split at run
    next => cases run
    next natural =>
      obtain ⟨size, whole⟩ := demand_eq_ok.mp run
      have start : header <+: operands := List.prefix_of_prefix_length_le front whole (by omega)
      rw [headerWord_of_start start (by omega)] at size natural
      obtain ⟨padding, words, padded, two, spelt⟩ := exists_padded (switchPadding pc) 2
        (operands.take (switchPadding pc + 8)) (by rw [List.length_take]; omega)
      obtain ⟨pairs, count, rest⟩ := exists_pairs
        (headerWord operands (switchPadding pc + 4)).toInt.toNat
        (operands.drop (switchPadding pc + 8)) (by rw [List.length_drop]; omega)
      match words, two with
      | [default, number], _ =>
        have joined := List.take_append_drop (switchPadding pc + 8) operands
        rw [spelt, rest] at joined
        simp only [List.flatMap_cons, List.flatMap_nil, List.append_nil, List.append_assoc] at joined
        rw [← joined, ← padded, second_headerWord] at count natural
        have many : number.toInt = pairs.length := by
          rw [Int32.lt_iff_toInt_lt] at natural
          simp only [Int32.toInt_zero] at natural
          omega
        have bound : pairs.length < 0x80000000 := by
          have := number.toInt_lt
          omega
        have same : number = Int32.ofNat pairs.length := by
          rw [← Int32.toInt_inj, many, Int32.toInt_ofNat_of_lt bound]
        exact ⟨padding, default, pairs, ⟨padded, bound⟩, by rw [← joined, same]; rfl, whole⟩
  · intro given
    rcases given with ⟨padding, default, pairs, ⟨padded, count⟩, rfl, whole⟩
    simp only [Form.operands] at whole ⊢
    have front := List.IsPrefix.trans (List.take_prefix (padding.length + 8) _) whole
    have number : (Int32.ofNat pairs.length).toInt = pairs.length :=
      Int32.toInt_ofNat_of_lt count
    refine ⟨_, ⟨?_, front⟩, ?_⟩
    · simp [← padded]
      omega
    · rw [headerWord_of_start (List.take_prefix _ _) (by simp; omega), ← padded, second_headerWord,
        if_neg (by rw [Int32.lt_iff_toInt_lt, number]; simp)]
      refine demand_eq_ok.mpr ⟨?_, whole⟩
      simp only [List.length_append, Word.length_toBytes, Word.width_i4, length_pairs]
      omega

end Operands

/-- The instruction at the cursor is read as the form that its bytes spell. -/
theorem decodeAt_eq_ok (declared : Nat) {byte : UInt8} {cursor : Cursor} {rest : Bytes}
    {instruction : Instruction} (next : cursor.rest = byte :: rest) :
    decodeAt declared byte cursor = .ok instruction ↔
      ∃ form : Form, form.Fits cursor.position ∧
        instruction = form.placed cursor.base cursor.position ∧
        form.opcode :: form.operands <+: cursor.rest := by
  unfold decodeAt
  have behind : (cursor.advance 1).rest = rest := by simp [Cursor.advance, next]
  have same {opcode : UInt8} {operands : Bytes} :
      opcode :: operands <+: cursor.rest ↔ opcode = byte ∧ operands <+: rest := by
    rw [next, List.cons_prefix_cons]
  simp only [same]
  constructor
  · intro run
    split at run
    next => cases run
    next opcode known =>
      obtain ⟨wide, table, lookup⟩ := special_opcode known
      obtain ⟨operands, read, rfl⟩ : ∃ operands, readOperands declared cursor.position
          (fun opcode => .unknownOpcode opcode cursor.position cursor.offset) (cursor.advance 1)
          opcode.operands = .ok operands ∧ _ = instruction := by
        obtain ⟨operands, read, done⟩ := Error.bind_eq_ok.mp run
        exact ⟨operands, read, Except.ok.inj done⟩
      cases kind : opcode.operands with
      | fixed n =>
        rw [kind] at read
        obtain ⟨size, whole⟩ := demand_eq_ok.mp read
        rw [behind] at whole
        subst size
        obtain ⟨mnemonic, _⟩ := opcode
        exact ⟨.plain byte operands, ⟨mnemonic, by rw [known]; simpa using kind⟩, rfl, rfl, whole⟩
      | wide =>
        rw [kind] at read
        obtain ⟨widened, rest, rfl, fits, size, whole⟩ := readOperands_wide.mp read
        rw [behind] at whole
        cases wide kind
        exact ⟨.widened widened rest, ⟨fits, size⟩, rfl, rfl, whole⟩
      | tableSwitch =>
        rw [kind] at read
        obtain ⟨padding, default, low, high, jumps, fits, rfl, whole⟩ :=
          readOperands_tableSwitch.mp read
        rw [behind] at whole
        cases table kind
        refine ⟨.tableSwitch padding default low high jumps, fits, ?_, rfl, whole⟩
        rw [Form.placed, Form.padding, fits.1]
        rfl
      | lookupSwitch =>
        rw [kind] at read
        obtain ⟨padding, default, pairs, fits, rfl, whole⟩ := readOperands_lookupSwitch.mp read
        rw [behind] at whole
        cases lookup kind
        refine ⟨.lookupSwitch padding default pairs, fits, ?_, rfl, whole⟩
        rw [Form.placed, Form.padding, fits.1]
        rfl
  · intro given
    rcases given with ⟨form, fits, rfl, rfl, whole⟩
    rw [← behind] at whole
    cases form with
    | plain opcode operands =>
      obtain ⟨mnemonic, known⟩ := fits
      have read : demand declared operands.length (cursor.advance 1) = .ok operands :=
        demand_eq_ok.mpr ⟨rfl, whole⟩
      simp only [Form.opcode, known, readOperands]
      rw [read]
      rfl
    | widened opcode operands =>
      simp only [Form.opcode, show Opcode.ofByte? Opcode.wide = some ⟨"wide", .wide⟩ from rfl]
      rw [readOperands_wide.mpr ⟨opcode, operands, rfl, fits.1, fits.2, whole⟩]
      rfl
    | tableSwitch padding default low high jumps =>
      simp only [Form.opcode,
        show Opcode.ofByte? Opcode.tableSwitch = some ⟨"tableswitch", .tableSwitch⟩ from rfl]
      rw [readOperands_tableSwitch.mpr ⟨padding, default, low, high, jumps, fits, rfl, whole⟩,
        ← fits.1]
      rfl
    | lookupSwitch padding default pairs =>
      simp only [Form.opcode,
        show Opcode.ofByte? Opcode.lookupSwitch = some ⟨"lookupswitch", .lookupSwitch⟩ from rfl]
      rw [readOperands_lookupSwitch.mpr ⟨padding, default, pairs, fits, rfl, whole⟩, ← fits.1]
      rfl

/-- What decodes at the cursor is what is written there, and the rest follows it. -/
theorem decodeAt_eq_ok_iff_grammar (declared : Nat) {cursor : Cursor} {instruction : Instruction}
    (left : cursor.rest ≠ []) :
    decodeAt declared (cursor.rest.head left) cursor = .ok instruction ↔
      ∃ bytes, grammar cursor.base cursor.position instruction bytes ∧
        bytes.length = instruction.width ∧
        cursor.rest = bytes ++ (cursor.advance instruction.width).rest := by
  rw [decodeAt_eq_ok declared (List.cons_head_tail left).symm]
  constructor
  · intro given
    rcases given with ⟨form, fits, rfl, rest, whole⟩
    refine ⟨_, ⟨form, fits, rfl, rfl⟩, Nat.add_comm _ _, ?_⟩
    have size : (form.placed cursor.base cursor.position).width =
        (form.opcode :: form.operands).length := Nat.add_comm _ _
    rw [Cursor.advance, size, ← whole, List.drop_left]
  · intro given
    rcases given with ⟨_, ⟨form, fits, rfl, rfl⟩, _, whole⟩
    exact ⟨form, fits, rfl, _, whole.symm⟩

/-- The instructions at the cursor are appended to those before it. -/
theorem decodeFrom_eq_ok {declared : Nat} {decoded instructions : Array Instruction}
    {cursor : Cursor} :
    decodeFrom declared decoded cursor = .ok instructions ↔
      ∃ later : List Instruction, instructions = decoded ++ later.toArray ∧
        (grammar cursor.base).each cursor.position later cursor.rest := by
  induction decoded, cursor using decodeFrom.induct declared with
  | case1 decoded cursor done =>
    rw [decodeFrom, dif_pos done, done]
    constructor
    · intro run
      cases run
      exact ⟨[], by simp, rfl⟩
    · intro given
      rcases given with ⟨later, rfl, spelt⟩
      cases later with
      | nil => simp
      | cons first later =>
        obtain ⟨xs, ys, split, ⟨form, _, _, rfl⟩, _⟩ := spelt
        cases split
  | case2 decoded cursor left instruction here ih =>
    rw [decodeFrom, dif_neg left, here]
    simp only [ih]
    obtain ⟨bytes, written, size, whole⟩ := (decodeAt_eq_ok_iff_grammar declared left).mp here
    constructor
    · intro given
      rcases given with ⟨later, rfl, spelt⟩
      refine ⟨instruction :: later, by simp, bytes, _, whole, written, ?_⟩
      rw [size]
      exact spelt
    · intro given
      rcases given with ⟨later, rfl, spelt⟩
      cases later with
      | nil => exact absurd spelt left
      | cons first later =>
        obtain ⟨xs, ys, split, head, tail⟩ := spelt
        have width : xs.length = first.width := by
          obtain ⟨form, _, rfl, rfl⟩ := head
          exact Nat.add_comm _ _
        have rest : (cursor.advance first.width).rest = ys := by
          rw [Cursor.advance, split, ← width, List.drop_left]
        have same := (decodeAt_eq_ok_iff_grammar declared left).mpr
          ⟨xs, head, width, by rw [rest, split]⟩
        obtain rfl : instruction = first := Except.ok.inj (here.symm.trans same)
        refine ⟨later, by simp, ?_⟩
        rw [rest]
        rw [width] at tail
        exact tail
  | case3 decoded cursor left cause here =>
    rw [decodeFrom, dif_neg left, here]
    constructor
    · intro run
      cases run
    · intro given
      rcases given with ⟨later, rfl, spelt⟩
      cases later with
      | nil => exact absurd spelt left
      | cons first later =>
        obtain ⟨xs, ys, split, ⟨form, fits, rfl, rfl⟩, _⟩ := spelt
        have same := (decodeAt_eq_ok declared (List.cons_head_tail left).symm).mpr
          ⟨form, fits, rfl, ys, split.symm⟩
        rw [here] at same
        cases same

theorem decodeAll_eq_ok {declared base : Nat} {bytes : Bytes} {instructions : Array Instruction} :
    decodeAll declared base bytes = .ok instructions ↔
      (grammar base).each 0 instructions.toList bytes := by
  unfold decodeAll
  rw [decodeFrom_eq_ok]
  constructor
  · intro given
    rcases given with ⟨later, rfl, spelt⟩
    simpa [Cursor.startingAt] using spelt
  · intro spelt
    exact ⟨instructions.toList, by simp, by simpa [Cursor.startingAt] using spelt⟩

end ClassFormat.Instruction
