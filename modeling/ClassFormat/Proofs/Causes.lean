import ClassFormat.Proofs.FileGrammar
import ClassFormat.Proofs.Linking
import ClassFormat.Proofs.Misfits
import ClassFormat.Proofs.Slots

/-! What complaints are about. Each says what was found and where; it is real if that is what the
bytes hold there and if it really is no part of a class file. -/
namespace ClassFormat

/-- One more than the number of slots that the heading of a file declares for its pool. -/
def Bytes.declaredCount (bytes : Bytes) : Nat := Bytes.toNat ((bytes.drop 8).take 2)

/-- A pool whose entries are written behind the heading of a file, wherever their references lead. -/
structure Pool.StandsIn (bytes : Bytes) (pool : Pool) : Prop where
  heading : 10 ≤ bytes.length
  count : pool.count = bytes.declaredCount
  slots : pool.slots.toList = slotsOf pool.entries
  written : ∃ content, content <+: bytes.drop 10 ∧ entriesFrom 1 10 pool.entries content

/-- Whether an attribute of that name and length starts at a place. -/
def Bytes.HoldsHead (bytes : Bytes) (place : Nat) (name : String) (length : Nat) : Prop :=
  ∃ (pool : Pool) (index : UInt16) (size : UInt32), pool.StandsIn bytes ∧
    pool.text index.toNat = .ok name ∧ size.toNat = length ∧
      Word.toBytes index ++ Word.toBytes size <+: bytes.drop place

/-- Whether a code attribute that starts at a place has been come to and holds that code, which lies
behind two limits for its frames and its own length. -/
def Bytes.HoldsCode (bytes : Bytes) (events : List Event) (place : Nat) (code : Bytes) : Prop :=
  ∃ (length : Nat) (stack locals : UInt16) (size : UInt32), .decoding "Code" length place ∈ events ∧
    bytes.HoldsHead place "Code" length ∧ size.toNat = code.length ∧
      Word.toBytes stack ++ Word.toBytes locals ++ Word.toBytes size ++ code <+: bytes.drop (place + 6)

namespace Error

/-- Whether a complaint is about what the bytes really hold; `events` are those recorded up to it. -/
def Real (bytes : Bytes) (events : List Event) : Error → Prop
  | endOfInput => True
  | tooFewBytes needed offset left => offset + left = bytes.length ∧ left < needed
  | wrongMagic found => bytes.take 4 = Word.toBytes found ∧ found ≠ ClassFile.magicNumber
  | unknownConstant tag _ offset => bytes[offset]? = some tag ∧ Tag.ofByte? tag = none
  | unknownTarget type offset => bytes[offset]? = some type ∧ TargetKind.ofByte? type = none
  | unknownFrame type offset => bytes[offset]? = some type ∧ FrameKind.ofByte? type = none
  | unknownVerification tag offset => bytes[offset]? = some tag ∧ VerificationKind.ofByte? tag = none
  | unknownElement tag offset => bytes[offset]? = some tag ∧ ElementKind.ofByte? tag = none
  | unknownPathStep kind offset => bytes[offset]? = some kind ∧ PathKind.ofByte? kind = none
  -- All code before `pc` can be cut, and there the opcode is undefined or `wide` cannot widen it.
  | unknownOpcode opcode pc offset => ∃ (place : Nat) (code : Bytes) (earlier : List Instruction),
      bytes.HoldsCode events place code ∧ (Instruction.grammar (place + 14)).each 0 earlier (code.take pc) ∧
      offset = place + 14 + pc ∧
        ((pc < code.length ∧ bytes[offset]? = some opcode ∧ Opcode.ofByte? opcode = none) ∨
          (pc + 1 < code.length ∧ bytes[offset]? = some Opcode.wide ∧ bytes[offset + 1]? = some opcode ∧
            Opcode.isWidenable opcode = false))
  -- The instruction that does not fit would only have ended behind the code.
  | codeLength declared consumed => ∃ (place : Nat) (code : Bytes) (stop : Nat),
      bytes.HoldsCode events place code ∧ declared = code.length ∧ code.length < stop ∧
        consumed = min stop 0xffffffff
  | switchRange pc low high => ∃ (place : Nat) (code : Bytes), bytes.HoldsCode events place code ∧
      Word.toBytes low ++ Word.toBytes high <+: code.drop (pc + 1 + switchPadding pc + 4) ∧ high < low
  | switchPairs pc pairs => ∃ (place : Nat) (code : Bytes), bytes.HoldsCode events place code ∧
      Word.toBytes pairs <+: code.drop (pc + 1 + switchPadding pc + 4) ∧ pairs < 0
  | unknownReferenceKind kind index => ∃ (pool : Pool) (entry : Entry) (place : Nat) (target : U2),
      pool.StandsIn bytes ∧ pool.get index = .ok entry ∧ entry.constant = .methodHandle ⟨kind, place⟩ target ∧
      bytes[place]? = some kind ∧ ¬ (1 ≤ kind ∧ kind ≤ 9)
  | mismatch index expected found => ∃ (pool : Pool) (entry : Entry), pool.StandsIn bytes ∧
      pool.get index = .ok entry ∧ entry.constant.tag = found ∧ found ∉ expected
  | upperHalf index => ∃ (pool : Pool) (before : Nat) (entry : Entry), pool.StandsIn bytes ∧
      index = before + 1 ∧ pool.slot? index = some none ∧ pool.get before = .ok entry ∧
      entry.constant.tag ∈ [Tag.long, Tag.double]
  | indexOutOfRange index count => 10 ≤ bytes.length ∧ count = bytes.declaredCount ∧
      (index = 0 ∨ count ≤ index)
  | attributeLength name declared consumed =>
    (∃ place, bytes.HoldsHead place name declared) ∧ declared ≠ consumed
  | malformedText _ => ∃ (size : UInt16) (content : Bytes) (place : Nat),
      Word.toBytes size ++ content <+: bytes.drop place ∧ content.length = size.toNat ∧
      Text.Modified.decode? content = none
  | tooDeep limit _ => limit = 64
  | trailingBytes offset remaining => offset + remaining = bytes.length ∧ 0 < remaining
  -- Neither is about bytes.
  | sourceFailed _ | endlessHandle _ => False

/-- What is recorded later makes no difference. -/
theorem Real.mono {bytes : Bytes} {events others : List Event} {cause : Error}
    (kept : ∀ event ∈ events, event ∈ others) (real : cause.Real bytes events) : cause.Real bytes others := by
  have code {place : Nat} {code : Bytes} (holds : bytes.HoldsCode events place code) :
      bytes.HoldsCode others place code := by
    obtain ⟨length, stack, locals, size, met, rest⟩ := holds
    exact ⟨length, stack, locals, size, kept _ met, rest⟩
  cases cause with
  | unknownOpcode =>
    obtain ⟨place, bytes, earlier, holds, rest⟩ := real
    exact ⟨place, bytes, earlier, code holds, rest⟩
  | codeLength =>
    obtain ⟨place, bytes, stop, holds, rest⟩ := real
    exact ⟨place, bytes, stop, code holds, rest⟩
  | switchRange | switchPairs =>
    obtain ⟨place, bytes, holds, rest⟩ := real
    exact ⟨place, bytes, code holds, rest⟩
  | _ => exact real

end Error

section Pool

variable {bytes : Bytes} {events : List Event} {pool : Pool} {index : Nat} {cause : Error}

namespace Pool.StandsIn

theorem slot? (stands : pool.StandsIn bytes) (k : Nat) :
    pool.slot? (k + 1) = (slotsOf pool.entries)[k]? := by
  rw [← stands.slots, Array.getElem?_toList]
  rfl

theorem get_upper (stands : pool.StandsIn bytes) (upper : pool.slot? index = some none) :
    (Error.upperHalf index).Real bytes events := by
  cases index with
  | zero => cases upper
  | succ k =>
    have none := upper
    rw [stands.slot?] at none
    obtain ⟨before, entry, rfl, found, wide⟩ := slotsOf_upper.mp none
    refine ⟨pool, before + 1, entry, stands, rfl, upper, ?_, Tag.isWide_iff.mp wide⟩
    exact Pool.get_eq_ok.mpr ((stands.slot? before).trans found)

theorem get_outside (stands : pool.StandsIn bytes) (outside : pool.slot? index = none) :
    (Error.indexOutOfRange index pool.count).Real bytes events := by
  refine ⟨stands.heading, stands.count, ?_⟩
  cases index with
  | zero => exact .inl rfl
  | succ k =>
    have far : pool.slots.size ≤ k := Array.getElem?_eq_none_iff.mp outside
    exact .inr (Nat.succ_le_succ far)

theorem get_real (stands : pool.StandsIn bytes) (failed : pool.get index = .error cause) :
    cause.Real bytes events := by
  unfold Pool.get at failed
  split at failed
  next => cases failed
  next upper =>
    cases failed
    exact stands.get_upper upper
  next outside =>
    cases failed
    exact stands.get_outside outside

theorem getOf_real (stands : pool.StandsIn bytes) {kinds : List Tag}
    (failed : pool.getOf index kinds = .error cause) : cause.Real bytes events := by
  rcases Instruction.bind_eq_error.mp failed with missing | ⟨entry, got, other⟩
  · exact stands.get_real missing
  · by_cases expected : entry.constant.tag ∈ kinds
    · rw [if_pos expected] at other
      cases other
    · rw [if_neg expected] at other
      cases other
      exact ⟨pool, entry, stands, got, rfl, expected⟩

theorem text_real (stands : pool.StandsIn bytes) (failed : pool.text index = .error cause) :
    cause.Real bytes events := by
  rcases Instruction.bind_eq_error.mp failed with missing | ⟨entry, got, other⟩
  · exact stands.get_real missing
  · split at other
    next => cases other
    next constant different =>
      cases other
      refine ⟨pool, entry, stands, got, rfl, ?_⟩
      cases kind : entry.constant with
      | utf8 length text => exact absurd kind (different length text)
      | _ => simp [Constant.tag]

theorem check_real (stands : pool.StandsIn bytes) {target : Target}
    (failed : target.check pool index = .error cause) : cause.Real bytes events := by
  have mapped {β : Type} {outcome : Except Error β} (same : (outcome.map fun _ => ()) = .error cause) :
      outcome = .error cause := by
    cases outcome with
    | ok value => cases same
    | error found =>
      cases same
      rfl
  cases target with
  | oneOf kinds => exact stands.getOf_real (mapped failed)
  | noneOr kind =>
    by_cases none : index = 0
    · rw [Target.check, if_pos none] at failed
      cases failed
    · rw [Target.check, if_neg none] at failed
      exact stands.getOf_real (mapped failed)
  | anyEntry => exact stands.get_real (mapped failed)
  | ownClass =>
    by_cases asked : index = 0 ∨ 1 < pool.count
    · rw [Target.check, if_pos asked] at failed
      exact stands.getOf_real (mapped failed)
    · rw [Target.check, if_neg asked] at failed
      cases failed

/-- An entry is found under its own index, and the bytes of its constant are in the file. -/
theorem get_listed (stands : pool.StandsIn bytes) {entry : Entry} (member : entry ∈ pool.entries) :
    pool.get entry.index = .ok entry := by
  obtain ⟨content, -, written⟩ := stands.written
  obtain ⟨i, found⟩ := Pool.mem_entries.mp member
  cases i with
  | zero => cases found
  | succ k =>
    have own := found
    rw [stands.slot?] at own
    obtain ⟨here, -⟩ := slotsOf_entry written own
    rw [here, Nat.add_comm]
    exact Pool.get_eq_ok.mpr found

end Pool.StandsIn

/-- The byte of a method handle that says what it does. -/
theorem Pool.kind_of_entriesFrom {entries : List Entry} {index offset : Nat} {content : Bytes}
    (written : entriesFrom index offset entries content) {entry : Entry} (member : entry ∈ entries)
    {kind : U1} {target : U2} (handle : entry.constant = .methodHandle kind target) :
    offset ≤ kind.offset ∧ content[kind.offset - offset]? = some kind.value := by
  induction entries generalizing index offset content with
  | nil => cases member
  | cons first rest ih =>
    obtain ⟨xs, ys, rfl, head, others⟩ := written
    rcases List.mem_cons.mp member with rfl | deeper
    · obtain ⟨payload, -, -, rfl, inner⟩ := Entry.writes_iff.mp head
      rw [handle] at inner
      obtain ⟨⟨number, place⟩, same, _, back, rfl, ⟨here, rfl⟩, -⟩ := inner
      cases same
      have place : kind.offset = offset + 1 := here
      refine ⟨by omega, ?_⟩
      rw [place, Nat.add_sub_cancel_left, Word.toBytes_u1]
      rfl
    · obtain ⟨front, found⟩ := ih others deeper
      refine ⟨by omega, ?_⟩
      rw [List.getElem?_append_right (by omega), Nat.sub_sub]
      exact found

theorem ReferenceKind.not_between_of_ofByte? {number : UInt8} (unknown : ofByte? number = none) :
    ¬ (1 ≤ number ∧ number ≤ 9) := by
  have every : ∀ place : Fin 256, 1 ≤ UInt8.ofFin place ∧ UInt8.ofFin place ≤ 9 →
    (ofByte? (UInt8.ofFin place)).isSome = true := by decide +kernel
  intro between
  have known := every number.toFin between
  change (ofByte? number).isSome = true at known
  rw [unknown] at known
  cases known

theorem firstError_eq_error {check : α → Except Error Unit} {items : List α}
    (failed : firstError check items = .error cause) : ∃ item ∈ items, check item = .error cause := by
  induction items with
  | nil => cases failed
  | cons item rest ih =>
    rw [firstError] at failed
    cases outcome : check item with
    | ok =>
      rw [outcome] at failed
      obtain ⟨found, member, same⟩ := ih failed
      exact ⟨found, List.mem_cons_of_mem item member, same⟩
    | error found =>
      rw [outcome] at failed
      cases failed
      exact ⟨item, List.mem_cons_self, outcome⟩

namespace Pool.StandsIn

theorem references_real (stands : pool.StandsIn bytes) {references : List (Nat × List Tag)}
    (failed : firstError pool.checkReference references = .error cause) : cause.Real bytes events := by
  obtain ⟨⟨index, kinds⟩, -, same⟩ := firstError_eq_error failed
  have checked : (Target.oneOf kinds).check pool index = .error cause := same
  exact stands.check_real checked

theorem validate_real (stands : pool.StandsIn bytes) (failed : pool.validate = .error cause) :
    cause.Real bytes events := by
  obtain ⟨entry, member, failed⟩ := firstError_eq_error failed
  unfold Pool.checkEntry at failed
  split at failed
  next kind target handle =>
    by_cases unknown : (ReferenceKind.ofByte? kind.value).isNone
    · rw [if_pos unknown] at failed
      cases failed
      obtain ⟨content, front, written⟩ := stands.written
      obtain ⟨behind, spelt⟩ := Pool.kind_of_entriesFrom written member handle
      have here := List.prefix_iff_getElem?.mp front
      refine ⟨pool, entry, kind.offset, target, stands, stands.get_listed member, handle, ?_, ?_⟩
      · obtain ⟨inside, same⟩ := List.getElem?_eq_some_iff.mp spelt
        have there := here _ inside
        rw [List.getElem?_drop, same] at there
        have place : 10 + (kind.offset - 10) = kind.offset := by omega
        rwa [place] at there
      · exact ReferenceKind.not_between_of_ofByte? (Option.isNone_iff_eq_none.mp unknown)
    · rw [if_neg unknown] at failed
      exact stands.references_real failed
  next => exact stands.references_real failed

end Pool.StandsIn
end Pool

/-! ### Misfits -/

section Code

variable {bytes : Bytes} {events : List Event} {place : Nat} {code front rest : Bytes} {cause : Error}

theorem Bytes.HoldsCode.getElem? (holds : bytes.HoldsCode events place code) {i : Nat} {byte : UInt8}
    (found : code[i]? = some byte) : bytes[place + 14 + i]? = some byte := by
  obtain ⟨_, stack, locals, size, -, -, -, rest, whole⟩ := holds
  have eight : (Word.toBytes stack ++ Word.toBytes locals ++ Word.toBytes size).length = 8 := by simp
  have inside : i < code.length := (List.getElem?_eq_some_iff.mp found).1
  rw [← List.getElem?_drop, show place + 14 = place + 6 + 8 from rfl, ← List.drop_drop, ← whole,
    List.append_assoc, List.drop_left' eight, List.getElem?_append_left inside]
  exact found

/-- What follows the default jump of a switch. -/
theorem Instruction.drop_default {padding words : Bytes} {opcode : UInt8} (default : Int32) {width : Nat}
    (padded : padding.length = width) :
    (front ++ opcode :: (padding ++ (Word.toBytes default ++ words))).drop (front.length + 1 + width + 4) =
      words := by
  have head : front ++ opcode :: (padding ++ (Word.toBytes default ++ words)) =
      (front ++ opcode :: (padding ++ Word.toBytes default)) ++ words := by simp
  have size : (front ++ opcode :: (padding ++ Word.toBytes default)).length = front.length + 1 + width + 4 := by
    simp [padded]
    omega
  rw [head, List.drop_left' size]

theorem Instruction.misfit_real (holds : bytes.HoldsCode events place (front ++ rest))
    {earlier : List Instruction} (cut : (grammar (place + 14)).each 0 earlier front)
    (misfit : Misfit (front ++ rest).length (place + 14) front.length rest cause) :
    cause.Real bytes events := by
  have past {stop : Nat} (far : (front ++ rest).length < stop) :
      (overrun (front ++ rest).length stop).Real bytes events :=
    ⟨place, _, stop, holds, rfl, far, rfl⟩
  have before : (front ++ rest).take front.length = front := List.take_left
  cases misfit with
  | undefined unknown =>
    refine ⟨place, _, earlier, holds, before.symm ▸ cut, rfl, .inl ⟨by simp, ?_, unknown⟩⟩
    exact holds.getElem? (by simp)
  | @unwidenable opcode rest fixed =>
    refine ⟨place, _, earlier, holds, before.symm ▸ cut, rfl, .inr ⟨by simp, ?_, ?_, fixed⟩⟩
    · exact holds.getElem? (by simp)
    · have next : (front ++ Opcode.wide :: opcode :: rest)[front.length + 1]? = some opcode := by simp
      exact holds.getElem? next
  | @range padding rest default low high padded inverted =>
    refine ⟨place, _, holds, ⟨rest, ?_⟩, inverted⟩
    rw [drop_default default padded, List.append_assoc]
  | @count padding rest default pairs padded negative =>
    refine ⟨place, _, holds, ⟨rest, ?_⟩, negative⟩
    rw [drop_default default padded]
  | operands known short => exact past (by simp; omega)
  | wide => exact past (by simp)
  | widened widenable short => exact past (by simp; omega)
  | tableHeader short => exact past (by simp; omega)
  | jumps padded ordered short => exact past (by simp; omega)
  | lookupHeader short => exact past (by simp; omega)
  | pairs padded natural short =>
    refine past ?_
    simp only [List.length_append, List.length_cons, Word.length_toBytes, Word.width_i4, padded]
    omega

end Code
end ClassFormat
