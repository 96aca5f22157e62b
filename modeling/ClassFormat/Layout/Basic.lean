import ClassFormat.Attribute.Basic
import ClassFormat.Pool.Constant

/-! How the parts of a class file are laid out. A layout describes, once, what is written
for the values of a type; how to decode them is then a single definition over layouts,
and what holds of all decoding is proved by one induction over them. -/
namespace ClassFormat

/-- What an index stored in the file may lead to. -/
inductive Target where
  | oneOf (kinds : List Tag)
  /-- Zero stands for none. -/
  | noneOr (kind : Tag)
  | anyEntry
  /-- The class that the file itself describes. Zero is never allowed, but nothing is asked
  of another index if the pool is empty. -/
  | ownClass
  deriving DecidableEq, Repr

/-- How a value is put together from its parts and taken apart again. Not every value
needs to have such parts, but one that has them is put together from no others. -/
structure Shape (α β : Type) where
  make : α → β
  parts? : β → Option α
  parts?_make : ∀ parts, parts? (make parts) = some parts := by intro parts; rfl
  make_of_parts? : ∀ parts value, parts? value = some parts → make parts = value := by
    intro parts value h; cases value <;> cases h <;> rfl

/-- How a leading byte selects one of several kinds, and the complaint about a byte that
selects none, given with its offset. -/
structure Tagging (κ : Type) where
  ofByte? : UInt8 → Option κ
  unknown : UInt8 → Nat → Error

inductive Layout : Type → Type 1 where
  | nothing : Layout Unit
  | word {κ : Type} (width : Word κ) : Layout (Scalar κ)
  | flags (set : FlagSet) : Layout (Scalar (Flags set))
  | index (target : Target) : Layout U2
  /-- Both are read before either is checked. -/
  | indexPair (first second : Target) : Layout (U2 × U2)
  | seq {α β : Type} (first : Layout α) (second : Layout β) : Layout (α × β)
  | as {α β : Type} (shape : Shape α β) (parts : Layout α) : Layout β
  | times {α : Type} (n : Nat) (item : Layout α) : Layout (List α)
  | counted {κ α : Type} (width : Word κ) (item : Layout α) : Layout (Counted κ α)
  | tagged {κ α : Type} (tagging : Tagging κ) (body : κ → Layout α) : Layout (U1 × α)
  /-- Text in modified UTF-8 behind its length, for the pool entry `index`. -/
  | text (index : Nat) : Layout (U2 × String)
  /-- Text that fills `length` bytes; what is not modified UTF-8 is read as best it can be. -/
  | looseText (length : Nat) : Layout String
  /-- A code array behind its length. -/
  | code : Layout (U4 × Array Instruction)
  /-- A name, a length, and a payload chosen by the name; the length is given to the payload
  but otherwise only compared with what the payload used. -/
  | entry (payload : AttributeKind → Nat → Layout Payload) : Layout Attribute
  | table (entry : Layout Attribute) : Layout Table
  /-- One level of nesting further down. -/
  | nested {α : Type} (inner : Layout α) : Layout α
  /-- What stands where no level of nesting is left. -/
  | tooDeep {α : Type} (limit : Nat) : Layout α

namespace Layout

def u1 : Layout U1 := word inferInstance
def u2 : Layout U2 := word inferInstance

/-- A list behind a two-byte count. -/
def list (item : Layout α) : Layout (Counted UInt16 α) := counted inferInstance item

/-- A list behind a one-byte count. -/
def shortList (item : Layout α) : Layout (Counted UInt8 α) := counted inferInstance item

/-- An index that must lead to an entry of one kind. -/
def reference (kind : Tag) : Layout U2 := index (.oneOf [kind])

/-- An index that may be 0 for none. -/
def optional (kind : Tag) : Layout U2 := index (.noneOr kind)

end Layout

/-- Nothing but the value itself is written for it. -/
def Shape.constant [DecidableEq α] (value : α) : Shape Unit α where
  make _ := value
  parts? other := if other = value then some () else none
  parts?_make _ := by simp
  make_of_parts? _ other h := by
    split at h
    · exact (by assumption : other = value).symm
    · contradiction

end ClassFormat
