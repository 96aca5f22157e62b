import ClassFormat.Code.Stream
import ClassFormat.Decoder
import ClassFormat.Layout.Basic
import ClassFormat.Pool.Basic
import ClassFormat.Text.Modified

/-! Decoding what a layout describes. Parts are read in the order in which they are
written, and each is checked as soon as it is read, against the pool where it refers
to one. -/
namespace ClassFormat

def Target.check (pool : Pool) (index : Nat) : Target → Except Error Unit
  | oneOf kinds => (pool.getOf index kinds).map fun _ => ()
  | noneOr kind => if index = 0 then .ok () else (pool.getOf index [kind]).map fun _ => ()
  | anyEntry => (pool.get index).map fun _ => ()
  | ownClass =>
    if index = 0 ∨ 1 < pool.count then (pool.getOf index [.classRef]).map fun _ => ()
    else .ok ()

namespace Layout

open Decoder

def decodeText (slot : Nat) : Decoder (U2 × String) := do
  let length : U2 ← read
  let bytes ← take length.toNat
  match Text.Modified.decode? bytes with
  | some chars => return (length, .ofList chars)
  | none => throw (.malformedText slot)

def decodeLooseText (length : Nat) : Decoder String := do
  let bytes ← take length
  return .ofList ((Text.Modified.decode? bytes).getD (Text.Utf8.decodeLossily bytes))

/-- All bytes of the array are passed before the first instruction is looked at. -/
def decodeCode : Decoder (U4 × Array Instruction) := do
  let length : U4 ← read
  let base ← offset
  let bytes ← take length.toNat
  let instructions ← demand (Instruction.decodeAll length.toNat base bytes)
  record (.codeDecoded instructions.size length.toNat base)
  return (length, instructions)

/-- The length is not a limit on the payload: a payload is decoded as its kind demands and
its size compared afterwards. Only an attribute without a meaning is passed by length. -/
def decodeEntry (pool : Pool) (payload : AttributeKind → Nat → Decoder Payload) :
    Decoder Attribute := do
  let nameIndex : U2 ← read
  let name ← demand (pool.text nameIndex.toNat)
  let length : U4 ← read
  match AttributeKind.ofName? name with
  | some kind =>
    record (.decoding name length.toNat nameIndex.offset)
    let start ← offset
    let payload ← payload kind length.toNat
    let consumed := (← offset) - start
    if consumed = length.toNat then return ⟨nameIndex, name, length, payload⟩
    else throw (.attributeLength name length.toNat consumed)
  | none =>
    record (.skipping name length.toNat nameIndex.offset)
    skip length.toNat
    return ⟨nameIndex, name, length, .unknown⟩

/-- Decodes `n` more entries into a table that holds some already. -/
def decodeEntries (entry : Decoder Attribute) : Nat → List Attribute → Decoder (List Attribute)
  | 0, entries => pure entries
  | n + 1, entries => do
    let later ← entry
    match entries.find? (·.name = later.name) with
    | some earlier => record (.replaced earlier.name earlier.nameIndex.offset)
    | none => pure ()
    decodeEntries entry n (Table.insert later entries)

def decode (pool : Pool) : Layout α → Decoder α
  | nothing => pure ()
  | word width => @read _ width
  | flags set => return (← read).map (Flags.truncate set)
  | index target => do
    let a : U2 ← read
    demand (target.check pool a.toNat)
    return a
  | indexPair first second => do
    let a : U2 ← read
    let b : U2 ← read
    demand (first.check pool a.toNat)
    demand (second.check pool b.toNat)
    return (a, b)
  | seq first second => do
    let a ← first.decode pool
    let b ← second.decode pool
    return (a, b)
  | as shape parts => return shape.make (← parts.decode pool)
  | times n item => Decoder.times n (item.decode pool)
  | counted width item => do
    let count ← @read _ width
    return ⟨count, ← Decoder.times (width.toNat count.value) (item.decode pool)⟩
  | tagged tagging body => do
    let tag : U1 ← read
    match tagging.ofByte? tag.value with
    | some kind => return (tag, ← (body kind).decode pool)
    | none => throw (tagging.unknown tag.value tag.offset)
  | text slot => decodeText slot
  | looseText length => decodeLooseText length
  | code => decodeCode
  | entry payload => decodeEntry pool fun kind length => (payload kind length).decode pool
  | table item => do
    let count : U2 ← read
    return ⟨count, ← decodeEntries (item.decode pool) count.toNat []⟩
  | nested inner => Decoder.nested (inner.decode pool)
  | tooDeep limit => do throw (.tooDeep limit (← offset))

end Layout
end ClassFormat
