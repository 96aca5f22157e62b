import ClassFormat.Layout.Decode
import ClassFormat.Pool.Layout
import ClassFormat.Pool.Validate

/-! Decoding the constant pool. The declared count says how many slots to fill, not how
many entries follow, and is one too large. -/
namespace ClassFormat.Pool

/-- Fills the given number of slots after those already filled. An eight-byte number in the
last one has no room for its upper half. -/
def fill (count : Nat) : Nat → Array (Option Entry) → Decoder Pool
  | 0, slots => return ⟨slots⟩
  | 1, slots => do
    let entry ← (Entry.layout (slots.size + 1)).decode .empty
    if entry.constant.tag.isWide then throw (.indexOutOfRange count count)
    else return ⟨slots.push (some entry)⟩
  | room + 2, slots => do
    let entry ← (Entry.layout (slots.size + 1)).decode .empty
    if entry.constant.tag.isWide then
      fill count room ((slots.push (some entry)).push none)
    else fill count (room + 1) (slots.push (some entry))

/-- The pool of a declared count. References are checked once all entries are known. -/
def decode : Nat → Decoder Pool
  | 0 => throw (.indexOutOfRange 0 0)
  | room + 1 => do
    let pool ← fill (room + 1) room #[]
    Decoder.demand pool.validate
    return pool

end ClassFormat.Pool
