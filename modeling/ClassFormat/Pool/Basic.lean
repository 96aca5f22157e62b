import ClassFormat.Error
import ClassFormat.Pool.Constant

/-! The constant pool. Slots are numbered from 1; an eight-byte number occupies two of
them and only the first may be referred to. -/
namespace ClassFormat

/-- The slots from number 1 on; an empty one is the upper half of the number before it. -/
structure Pool where
  slots : Array (Option Entry)
  deriving Repr

namespace Pool

def empty : Pool := ⟨#[]⟩

/-- One more than the number of slots, as a file declares it. -/
def count (pool : Pool) : Nat := pool.slots.size + 1

/-- The slot of a number, if there is such a slot. -/
def slot? (pool : Pool) : Nat → Option (Option Entry)
  | 0 => none
  | index + 1 => pool.slots[index]?

def isUpperHalf (pool : Pool) (index : Nat) : Bool := pool.slot? index = some none

/-- The numbers of the slots that may not be referred to, in increasing order. -/
def upperHalves (pool : Pool) : List Nat := (List.range pool.count).filter pool.isUpperHalf

/-- All entries, by increasing index. -/
def entries (pool : Pool) : List Entry := pool.slots.toList.filterMap id

def get (pool : Pool) (index : Nat) : Except Error Entry :=
  match pool.slot? index with
  | some (some entry) => .ok entry
  | some none => .error (.upperHalf index)
  | none => .error (.indexOutOfRange index pool.count)

/-- The entry, if it is of one of the expected kinds. -/
def getOf (pool : Pool) (index : Nat) (expected : List Tag) : Except Error Entry := do
  let entry ← pool.get index
  if entry.constant.tag ∈ expected then return entry
  else throw (.mismatch index expected entry.constant.tag)

/-- The text of a `Utf8` entry. -/
def text (pool : Pool) (index : Nat) : Except Error String := do
  match (← pool.get index).constant with
  | .utf8 _ text => return text
  | other => throw (.mismatch index [.utf8] other.tag)

/-- The name that a `Class` entry refers to. -/
def className (pool : Pool) (index : Nat) : Except Error String := do
  match (← pool.get index).constant with
  | .classRef name => pool.text name.toNat
  | other => throw (.mismatch index [.classRef] other.tag)

/-- The name and the descriptor that a `NameAndType` entry refers to. -/
def nameAndType (pool : Pool) (index : Nat) : Except Error (String × String) := do
  match (← pool.get index).constant with
  | .nameAndType name descriptor =>
    return (← pool.text name.toNat, ← pool.text descriptor.toNat)
  | other => throw (.mismatch index [.nameAndType] other.tag)

end Pool
end ClassFormat
