import ClassFormat.ClassFile.Decode

/-! Decoding with the words of a machine, which hold so many values and no more. A number that does not
fit its word, a difference below zero and a slice beyond its buffer have no result here, so a run that
has a result is one in which nothing wraps, is cut off or lies out of bounds. -/
namespace ClassFormat

namespace Machine

/-- A number that a word of so many values can hold. -/
def fit? (size n : Nat) : Option Nat := if n < size then some n else none

/-- A number that a signed word of eight bytes can hold. -/
def signed? (n : Int) : Option Int :=
  if -0x8000000000000000 ≤ n ∧ n < 0x8000000000000000 then some n else none

/-- A signed number that is the same without its sign. -/
def unsigned? (n : Int) : Option Nat := if 0 ≤ n then some n.toNat else none

def minus? (a b : Nat) : Option Nat := if b ≤ a then some (a - b) else none

/-- What lies between two places of a buffer. -/
def slice? (buffer : Bytes) (start stop : Nat) : Option Bytes :=
  if start ≤ stop ∧ stop ≤ buffer.length then some ((buffer.drop start).take (stop - start)) else none

/-- How far a switch at `pc` is from the next multiple of four. -/
def padding? (pc : Nat) : Option Nat := do
  let behind ← fit? UInt32.size (pc + 1)
  let missing ← minus? 4 (behind % 4)
  fit? UInt8.size (missing % 4)

/-- The number at a place in the header of a switch. -/
def headerWord? (header : Bytes) (start : Nat) : Option Int32 := do
  let rest ← slice? header start header.length
  let word ← slice? rest 0 4
  return Word.ofBytes word

/-- How many bytes the jumps of a table switch fill. -/
def jumpsWidth? (low high : Int32) : Option Nat := do
  let distance ← signed? (high.toInt - low.toInt)
  let count ← unsigned? (← signed? (distance + 1))
  fit? UInt64.size (count * 4)

/-- How many bytes the pairs of a lookup switch fill. -/
def pairsWidth? (pairs : Int32) : Option Nat := do
  let count ← unsigned? pairs.toInt
  fit? UInt64.size (count * 8)

end Machine

/-- A buffer that lies at `base` in the file and a place in it, how many levels of nesting are open,
and what has been recorded. -/
structure Registers where
  buffer : Bytes
  base : Nat
  position : Nat
  depth : Nat
  trace : Array Event

namespace Registers

def remaining (r : Registers) : Nat := r.buffer.length - r.position

/-- The same place for a decoder. -/
def state (r : Registers) : State := ⟨⟨r.base, r.position, r.buffer.drop r.position⟩, r.trace⟩

/-- The registers behind a level of nesting. -/
def closed? (r : Registers) : Option Registers := do
  let depth ← Machine.minus? r.depth 1
  return { r with depth, trace := r.trace.push .closed }

end Registers

/-- A decoder on a machine. It has no result if some number would not be exact. -/
def Guarded (α : Type) : Type := Registers → Option (EStateM.Result Error Registers α)

namespace Guarded

open Machine

protected def bind (first : Guarded α) (next : α → Guarded β) : Guarded β := fun r =>
  match first r with
  | some (.ok value after) => next value after
  | some (.error cause after) => some (.error cause after)
  | none => none

instance : Monad Guarded where
  pure value := fun r => some (.ok value r)
  bind := Guarded.bind

/-- A result that must be there. -/
def need (result : Option α) : Guarded α := fun r => result.map fun value => .ok value r

def fail (cause : Error) : Guarded α := fun r => some (.error cause r)

def registers : Guarded Registers := fun r => some (.ok r r)

def demand : Except Error α → Guarded α
  | .ok value => pure value
  | .error cause => fail cause

def record (event : Event) : Guarded Unit := fun r =>
  some (.ok () { r with trace := r.trace.push event })

def goto (place : Nat) : Guarded Unit := fun r => some (.ok () { r with position := place })

/-- The place in the file. -/
def offset : Guarded Nat := do
  let r ← registers
  need (fit? UInt64.size (r.base + r.position))

/-- Passes bytes that are there. -/
def pass (n : Nat) : Guarded Bytes := do
  let r ← registers
  let stop ← need (fit? UInt64.size (r.position + n))
  let bytes ← need (slice? r.buffer r.position stop)
  goto stop
  return bytes

def read [Word α] : Guarded (Scalar α) := do
  let place ← offset
  let r ← registers
  if Word.width α ≤ r.remaining then
    let bytes ← pass (Word.width α)
    return ⟨Word.ofBytes bytes, place⟩
  else
    goto r.buffer.length
    fail .endOfInput

def take (n : Nat) : Guarded Bytes := do
  let r ← registers
  if n ≤ r.remaining then pass n
  else
    let place ← offset
    fail (.tooFewBytes n place r.remaining)

def skip (n : Nat) : Guarded Unit := do
  let _ ← take n
  return ()

def timesFrom (item : Guarded α) : Nat → List α → Guarded (List α)
  | 0, decoded => pure decoded.reverse
  | n + 1, decoded => do
    let value ← item
    timesFrom item n (value :: decoded)

/-- A level is closed again however its contents end. -/
def closing? : EStateM.Result Error Registers α → Option (EStateM.Result Error Registers α)
  | .ok value after => after.closed?.map (.ok value)
  | .error cause after => after.closed?.map (.error cause)

/-- A level is only opened below the limit. -/
def nested (inner : Guarded α) : Guarded α := fun r => do
  let place ← fit? UInt64.size (r.base + r.position)
  let depth ← fit? UInt16.size (r.depth + 1)
  if ClassFile.maxNesting < depth then none
  else
    let result ← inner { r with depth, trace := r.trace.push (.opened place) }
    closing? result

/-- A question to a pool, which may have to tell its count in two bytes. -/
def ask (pool : Pool) (answer : Except Error α) : Guarded α := do
  let _ ← need (fit? UInt16.size pool.count)
  demand answer

/-! ### Code -/

/-- The next bytes of a code array. -/
def takeOperands (declared n : Nat) : Guarded Bytes := do
  let r ← registers
  if n ≤ r.remaining then take n
  else
    let consumed ← need (fit? UInt64.size (r.position + n))
    fail (.codeLength declared (min consumed 0xffffffff))

/-- The operands of an instruction and how many of their bytes are padding. -/
def operands (declared pc : Nat) (unknown : UInt8 → Error) : Operands → Guarded (Bytes × Nat)
  | .fixed n => do
    let bytes ← takeOperands declared n
    return (bytes, 0)
  | .wide => do
    let front ← takeOperands declared 1
    let widened ← need front[0]?
    if Opcode.isWidenable widened then
      let back ← takeOperands declared (Opcode.widenedWidth widened)
      return (widened :: back, 0)
    else fail (unknown widened)
  | .tableSwitch => do
    let padding ← need (padding? pc)
    let size ← need (fit? UInt64.size (padding + 12))
    let header ← takeOperands declared size
    let low ← need (headerWord? header (padding + 4))
    let high ← need (headerWord? header (padding + 8))
    if high < low then fail (.switchRange pc low high)
    else
      let width ← need (jumpsWidth? low high)
      let jumps ← takeOperands declared width
      return (header ++ jumps, padding)
  | .lookupSwitch => do
    let padding ← need (padding? pc)
    let size ← need (fit? UInt64.size (padding + 8))
    let header ← takeOperands declared size
    let count ← need (headerWord? header (padding + 4))
    if count < 0 then fail (.switchPairs pc count)
    else
      let width ← need (pairsWidth? count)
      let pairs ← takeOperands declared width
      return (header ++ pairs, padding)

def instruction (declared : Nat) : Guarded Instruction := do
  let r ← registers
  let pc ← need (fit? UInt32.size r.position)
  let opcode : U1 ← read
  let unknown (byte : UInt8) : Error := .unknownOpcode byte pc opcode.offset
  match Opcode.ofByte? opcode.value with
  | none => fail (unknown opcode.value)
  | some known =>
    let (bytes, padding) ← operands declared pc unknown known.operands
    return ⟨pc, opcode.offset, opcode.value, bytes, padding⟩

/-- Instructions until the buffer is empty, in no more turns than it has bytes. -/
def instructions (declared : Nat) : Nat → Array Instruction → Guarded (Array Instruction)
  | 0, decoded => do
    let r ← registers
    if r.remaining = 0 then return decoded else need none
  | turns + 1, decoded => do
    let r ← registers
    if r.remaining = 0 then return decoded
    else
      let next ← instruction declared
      instructions declared turns (decoded.push next)

/-- What is done in a buffer of its own leaves the registers alone. -/
def within (base : Nat) (buffer : Bytes) (inner : Guarded α) : Guarded α := fun r =>
  (inner ⟨buffer, base, 0, 0, r.trace⟩).map fun
    | .ok value _ => .ok value r
    | .error cause _ => .error cause r

def code : Guarded (U4 × Array Instruction) := do
  let length : U4 ← read
  let base ← offset
  let bytes ← take length.toNat
  let decoded ← within base bytes (instructions length.toNat bytes.length #[])
  record (.codeDecoded decoded.size length.toNat base)
  return (length, decoded)

/-! ### Layouts -/

def text (slot : Nat) : Guarded (U2 × String) := do
  let length : U2 ← read
  let bytes ← take length.toNat
  match Text.Modified.decode? bytes with
  | some chars => return (length, .ofList chars)
  | none => fail (.malformedText slot)

def looseText (length : Nat) : Guarded String := do
  let bytes ← take length
  return .ofList ((Text.Modified.decode? bytes).getD (Text.Utf8.decodeLossily bytes))

def entry (pool : Pool) (payload : AttributeKind → Nat → Guarded Payload) : Guarded Attribute := do
  let nameIndex : U2 ← read
  let name ← ask pool (pool.text nameIndex.toNat)
  let length : U4 ← read
  match AttributeKind.ofName? name with
  | some kind =>
    record (.decoding name length.toNat nameIndex.offset)
    let before ← registers
    let payload ← payload kind length.toNat
    let after ← registers
    let consumed ← need (minus? after.position before.position)
    if consumed = length.toNat then return ⟨nameIndex, name, length, payload⟩
    else fail (.attributeLength name length.toNat consumed)
  | none =>
    record (.skipping name length.toNat nameIndex.offset)
    skip length.toNat
    return ⟨nameIndex, name, length, .unknown⟩

def entries (item : Guarded Attribute) : Nat → List Attribute → Guarded (List Attribute)
  | 0, known => pure known
  | n + 1, known => do
    let later ← item
    match known.find? (·.name = later.name) with
    | some earlier => record (.replaced earlier.name earlier.nameIndex.offset)
    | none => pure ()
    entries item n (Table.insert later known)

end Guarded

open Guarded in
/-- Decodes on a machine what a layout describes. -/
def Layout.guarded (pool : Pool) : Layout α → Guarded α
  | nothing => pure ()
  | word width => @read _ width
  | flags set => do
    let bits ← read
    return bits.map (Flags.truncate set)
  | index target => do
    let a : U2 ← read
    ask pool (target.check pool a.toNat)
    return a
  | indexPair first second => do
    let a : U2 ← read
    let b : U2 ← read
    ask pool (first.check pool a.toNat)
    ask pool (second.check pool b.toNat)
    return (a, b)
  | seq first second => do
    let a ← first.guarded pool
    let b ← second.guarded pool
    return (a, b)
  | as shape parts => do
    let whole ← parts.guarded pool
    return shape.make whole
  | times n item => timesFrom (item.guarded pool) n []
  | counted width item => do
    let count ← @read _ width
    let items ← timesFrom (item.guarded pool) (width.toNat count.value) []
    return ⟨count, items⟩
  | tagged tagging body => do
    let tag : U1 ← read
    match tagging.ofByte? tag.value with
    | some kind =>
      let rest ← (body kind).guarded pool
      return (tag, rest)
    | none => fail (tagging.unknown tag.value tag.offset)
  | text slot => Guarded.text slot
  | looseText length => Guarded.looseText length
  | code => Guarded.code
  | entry payload => Guarded.entry pool fun kind length => (payload kind length).guarded pool
  | table item => do
    let count : U2 ← read
    let known ← entries (item.guarded pool) count.toNat []
    return ⟨count, known⟩
  | nested inner => Guarded.nested (inner.guarded pool)
  -- A level is only refused where the limit is reached.
  | tooDeep limit => do
    let place ← offset
    let r ← registers
    if r.depth = limit then fail (.tooDeep limit place) else need none

namespace Guarded

open Machine

/-- Slots are numbered in two bytes. -/
def fill (count : Nat) : Nat → Array (Option Entry) → Guarded Pool
  | 0, slots => return ⟨slots⟩
  | 1, slots => do
    let index ← need (fit? UInt16.size (slots.size + 1))
    let entry ← (Entry.layout index).guarded .empty
    if entry.constant.tag.isWide then
      let asked ← need (fit? UInt16.size count)
      fail (.indexOutOfRange asked count)
    else return ⟨slots.push (some entry)⟩
  | room + 2, slots => do
    let index ← need (fit? UInt16.size (slots.size + 1))
    let entry ← (Entry.layout index).guarded .empty
    if entry.constant.tag.isWide then fill count room ((slots.push (some entry)).push none)
    else fill count (room + 1) (slots.push (some entry))

def pool : Nat → Guarded Pool
  | 0 => fail (.indexOutOfRange 0 0)
  | room + 1 => do
    let pool ← fill (room + 1) room #[]
    ask pool pool.validate
    return pool

def contents : Guarded ClassFile := do
  let magic : U4 ← read
  if magic.value ≠ ClassFile.magicNumber then fail (.wrongMagic magic.value)
  let minor ← read
  let major ← read
  let poolCount : U2 ← read
  let pool ← pool poolCount.toNat
  let place ← offset
  record (.poolDecoded pool.entries.length place)
  let body ← (Body.layout (Table.layout ClassFile.maxNesting ClassFile.maxNesting)).guarded pool
  return { body with magic, minor, major, poolCount, pool }

def finish (file : ClassFile) : Guarded ClassFile := do
  let place ← offset
  let r ← registers
  if r.remaining ≠ 0 then fail (.trailingBytes place r.remaining)
  record (.classDecoded file.version file.fields.items.length file.methods.items.length
    file.attributes.size)
  return file

/-- Decodes a whole class file on a machine. -/
def classFile : Guarded ClassFile := do
  let file ← contents
  finish file

end Guarded

namespace Machine

/-! ### Questions to a decoded file -/

/-- The count of a pool, told in two bytes. -/
def count? (pool : Pool) : Option Nat := fit? UInt16.size pool.count

/-- Some is taken off a major version only where that much is there. -/
def release? (version : Version) : Option (Option String) :=
  if version.major < 45 then some none
  else do
    let number ← minus? version.major.toNat 44
    if version.major < 49 then some (some ("1." ++ toString number)) else some (some (toString number))

def entryWidth? (entry : Entry) : Option Nat := do
  let payload ← fit? UInt64.size entry.constant.width
  fit? UInt64.size (1 + payload)

def instructionWidth? (instruction : Instruction) : Option Nat :=
  fit? UInt64.size (1 + instruction.operands.length)

/-- The distance of a frame from the one before, told in two bytes. -/
def delta? (frame : Frame) : Option Nat :=
  match frame.body with
  | .same => fit? UInt16.size frame.type.toNat
  | .oneItem _ => minus? frame.type.toNat 64
  | .oneItemExtended delta _ | .chop delta | .sameExtended delta | .append delta _
  | .full delta _ _ => fit? UInt16.size delta.toNat

/-- The place behind a word. -/
def stop? [Word α] (scalar : Scalar α) : Option Nat :=
  fit? UInt64.size (scalar.offset + Word.width α)

def attributeStop? (item : Attribute) : Option Nat := do
  let start ← stop? item.length
  fit? UInt64.size (start + item.length.toNat)

/-- The place behind a table, which is that behind the attribute that reaches furthest. -/
def tableStop? (held : Table) : Option Nat := do
  let stops ← held.entries.mapM attributeStop?
  match stops.max? with
  | some furthest => some furthest
  | none => stop? held.count

end Machine

/-- The start of a file, with no level open and nothing recorded. -/
def Registers.start (bytes : Bytes) : Registers := ⟨bytes, 0, 0, 0, #[]⟩

end ClassFormat
