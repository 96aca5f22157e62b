import ClassFormat.Proofs.Placing

/-! A decoded class file says of its bytes what they are. Whatever can be reached in it is
recorded with the offset at which the bytes spell it. -/
namespace ClassFormat

/-- The bytes from one offset up to another. -/
def Bytes.between (bytes : Bytes) (start stop : Nat) : Bytes :=
  (bytes.drop start).take (stop - start)

theorem Bytes.between_append {front content back : Bytes} {start stop : Nat}
    (first : start = front.length) (last : stop = front.length + content.length) :
    between (front ++ (content ++ back)) start stop = content := by
  subst first last
  rw [between, List.drop_left, Nat.add_sub_cancel_left, List.take_left]

/-- Whether the bytes in the place of a part spell what was decoded. -/
def Part.Says (held : Bytes) : Part → Prop
  | unsigned _ _ number => Bytes.toNat held = number
  | signed _ width number => (Bytes.toNat held : Int).bmod (Nat.pow 256 width) = number
  | selector byte number => Bytes.toNat held = byte.toNat ∧ byte.toNat = number
  | flags set word => UInt16.ofNat (Bytes.toNat held) &&& set.mask = word.value.bits
  | index word _ | name word _ => Bytes.toNat held = word.toNat
  | text _ _ content =>
    ∃ chars, Text.Modified.decode? held = some chars ∧ content = .ofList chars
  | looseText _ _ content =>
    content = .ofList ((Text.Modified.decode? held).getD (Text.Utf8.decodeLossily held))
  -- The bytes of instructions and tables are those of their own parts.
  | code .. | passed .. | table _ => True

/-- Whether an instruction is what the bytes say at its place in the code array behind `length`. -/
structure Instruction.FaithfulTo (bytes : Bytes) (length : U4) (instruction : Instruction) : Prop where
  place : instruction.offset = length.stop + instruction.pc
  inside : instruction.offset + instruction.width ≤ length.stop + length.toNat
  opcode : bytes.between instruction.offset (instruction.offset + 1) = [instruction.opcode]
  operands : bytes.between (instruction.offset + 1) (instruction.offset + instruction.width) =
    instruction.operands

/-- Whether all that a class file consists of is what the bytes say in its place. -/
structure ClassFile.FaithfulTo (bytes : Bytes) (file : ClassFile) : Prop where
  inside : ∀ part, file.HasPart part → part.offset ≤ part.stop ∧ part.stop ≤ bytes.length
  spelt : ∀ part, file.HasPart part → part.Says (bytes.between part.offset part.stop)
  instructions : ∀ length instructions, file.HasPart (.code length instructions) →
    ∀ instruction ∈ instructions, instruction.FaithfulTo bytes length

theorem Part.says_of_grammar {pool : Pool} {offset : Nat} {part : Part} {bytes : Bytes}
    (written : Part.grammar pool offset part bytes) : part.Says bytes := by
  obtain ⟨rfl, rest⟩ := written
  cases part with
  | unsigned | signed | text | looseText => exact rest.2
  | selector byte number =>
    obtain ⟨rfl, same⟩ := rest
    exact ⟨Nat.zero_add _, same⟩
  | flags set word =>
    obtain ⟨bits, rfl, kept⟩ := rest
    rw [Part.Says, Word.toNat_toBytes, kept]
    exact congrArg (· &&& set.mask) (Word.ofNat_toNat bits)
  | index word | name word =>
    rw [rest.1]
    exact Word.toNat_toBytes _
  | code | passed | table => trivial

/-- The parts of a file are found where they were recorded. -/
theorem Part.between_of_within {pool : Pool} {part : Part} {bytes : Bytes}
    (within : (Part.grammar pool).Within 0 bytes part) :
    part.offset ≤ part.stop ∧ part.stop ≤ bytes.length ∧
      Part.grammar pool part.offset part (bytes.between part.offset part.stop) := by
  obtain ⟨front, content, back, rfl, written⟩ := within
  have start := Part.start_of_grammar written
  have stop := Part.stop_of_grammar written
  rw [Nat.zero_add] at start stop written
  refine ⟨by omega, by simp only [List.length_append]; omega, ?_⟩
  rw [Bytes.between_append start stop, start]
  exact written

theorem Instruction.faithful_of_within {pool : Pool} {bytes : Bytes} {length : U4}
    {instructions : Array Instruction} {instruction : Instruction}
    (within : (Part.grammar pool).Within 0 bytes (.code length instructions))
    (member : instruction ∈ instructions) : instruction.FaithfulTo bytes length := by
  obtain ⟨before, code, after, rfl, start, size, cut⟩ := within
  obtain ⟨front, _, back, rfl, form, _, rfl, rfl⟩ :=
    Grammar.within_of_mem cut (Array.mem_toList_iff.mpr member)
  have place : length.stop = before.length := start.trans (Nat.zero_add _)
  have behind : (form.placed before.length front.length).offset = before.length + front.length := rfl
  have width : (form.placed before.length front.length).width = 1 + form.operands.length := rfl
  simp only [Nat.zero_add]
  simp only [List.length_append, List.length_cons] at size
  refine ⟨?_, ?_, ?_, ?_⟩
  · rw [behind, place]
    rfl
  · rw [behind, width]
    omega
  · have whole : before ++ (front ++ (form.opcode :: form.operands ++ back) ++ after) =
        (before ++ front) ++ ([form.opcode] ++ (form.operands ++ back ++ after)) := by simp
    rw [whole, Bytes.between_append (by simp [behind]) (by simp [behind])]
    rfl
  · have whole : before ++ (front ++ (form.opcode :: form.operands ++ back) ++ after) =
        (before ++ front ++ [form.opcode]) ++ (form.operands ++ (back ++ after)) := by simp
    rw [whole, Bytes.between_append (by simp [behind]; omega) (by simp [behind, width]; omega)]
    rfl

theorem ClassFile.decode_faithful {bytes : Bytes} {file : ClassFile}
    (decoded : decode bytes = .ok file) : file.FaithfulTo bytes where
  inside part has := by
    obtain ⟨forward, bound, _⟩ := Part.between_of_within (has.within decoded)
    exact ⟨forward, bound⟩
  spelt part has := Part.says_of_grammar (Part.between_of_within (has.within decoded)).2.2
  instructions length instructions has instruction member :=
    Instruction.faithful_of_within (has.within decoded) member

/-- A class whose pool holds a `long` and whose method loads a far local and returns. -/
def ClassFile.wideSample : Bytes :=
  [0xca, 0xfe, 0xba, 0xbe, 0, 0, 0, 52, 0, 8, 1, 0, 1, 0x43, 7, 0, 1, 1, 0, 4, 0x43, 0x6f, 0x64, 0x65] ++
  [1, 0, 1, 0x6d, 1, 0, 3, 0x28, 0x29, 0x56, 5, 0xff, 0xff, 0xff, 0xff, 0xff, 0xff, 0xff, 0xfe] ++
  [0, 0x21, 0, 2, 0, 0, 0, 0, 0, 0, 0, 1, 0xf0, 1, 0, 4, 0, 5, 0, 1, 0, 3, 0, 0, 0, 17] ++
  [0, 1, 1, 2, 0, 0, 0, 5, 0xc4, 0x15, 1, 1, 0xb1, 0, 0, 0, 0, 0, 0]

theorem ClassFile.decode_wideSample :
    ∃ file, decode wideSample = .ok file ∧ file.FaithfulTo wideSample := by
  obtain ⟨file, decoded⟩ : ∃ file, decode wideSample = .ok file := exists_of_isOk (by decide +kernel)
  exact ⟨file, decoded, decode_faithful decoded⟩

end ClassFormat
