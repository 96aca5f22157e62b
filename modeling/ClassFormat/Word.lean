/-! Fixed-width words as a class file stores them: most significant byte first,
two's complement for signed ones, the bare bit pattern for floating point ones. A
word type is the range of natural numbers that `width` bytes can spell, under another
name; `toNat` and `ofNat` are inverse on that range. -/
namespace ClassFormat

abbrev Bytes := List UInt8

namespace Bytes

/-- The first byte carries the most weight. -/
def toNat (bytes : Bytes) : Nat :=
  bytes.foldl (fun value byte => value * 256 + byte.toNat) 0

/-- The `width` lowest bytes of `value`, the most significant first. -/
def ofNat : Nat → Nat → Bytes
  | 0, _ => []
  | width + 1, value => ofNat width (value / 256) ++ [UInt8.ofNat value]

@[simp] theorem length_ofNat (width value : Nat) : (ofNat width value).length = width := by
  induction width generalizing value with
  | zero => rfl
  | succ width ih => simp [ofNat, ih]

end Bytes

/-- A type whose values fill exactly `width` bytes. -/
class Word (α : Type) where
  width : Nat
  ofNat : Nat → α
  toNat : α → Nat
  toNat_lt : ∀ word, toNat word < Nat.pow 256 width
  ofNat_toNat : ∀ word, ofNat (toNat word) = word
  toNat_ofNat : ∀ n, n < Nat.pow 256 width → toNat (ofNat n) = n

/-- The bit pattern of a single precision number. NaN patterns stay apart. -/
structure Binary32 where
  bits : UInt32
  deriving DecidableEq, Repr

/-- The bit pattern of a double precision number. -/
structure Binary64 where
  bits : UInt64
  deriving DecidableEq, Repr

namespace Word

instance : Word UInt8 where
  width := 1
  ofNat := UInt8.ofNat
  toNat := UInt8.toNat
  toNat_lt := UInt8.toNat_lt
  ofNat_toNat _ := UInt8.ofNat_toNat
  toNat_ofNat n h := by simpa using Nat.mod_eq_of_lt h

instance : Word UInt16 where
  width := 2
  ofNat := UInt16.ofNat
  toNat := UInt16.toNat
  toNat_lt := UInt16.toNat_lt
  ofNat_toNat _ := UInt16.ofNat_toNat
  toNat_ofNat n h := by simpa using Nat.mod_eq_of_lt h

instance : Word UInt32 where
  width := 4
  ofNat := UInt32.ofNat
  toNat := UInt32.toNat
  toNat_lt := UInt32.toNat_lt
  ofNat_toNat _ := UInt32.ofNat_toNat
  toNat_ofNat n h := by simpa using Nat.mod_eq_of_lt h

instance : Word UInt64 where
  width := 8
  ofNat := UInt64.ofNat
  toNat := UInt64.toNat
  toNat_lt := UInt64.toNat_lt
  ofNat_toNat _ := UInt64.ofNat_toNat
  toNat_ofNat n h := by simpa using Nat.mod_eq_of_lt h

/-- Words of one width under another name are words of that width. -/
@[reducible] def rename [base : Word α] (wrap : α → β) (unwrap : β → α)
    (wrap_unwrap : ∀ word, wrap (unwrap word) = word)
    (unwrap_wrap : ∀ word, unwrap (wrap word) = word) : Word β where
  width := base.width
  ofNat n := wrap (base.ofNat n)
  toNat word := base.toNat (unwrap word)
  toNat_lt word := base.toNat_lt (unwrap word)
  ofNat_toNat word := by rw [base.ofNat_toNat, wrap_unwrap]
  toNat_ofNat n h := by rw [unwrap_wrap, base.toNat_ofNat n h]

instance : Word Int32 := rename UInt32.toInt32 Int32.toUInt32 (fun _ => rfl) (fun _ => rfl)
instance : Word Int64 := rename UInt64.toInt64 Int64.toUInt64 (fun _ => rfl) (fun _ => rfl)
instance : Word Binary32 := rename Binary32.mk Binary32.bits (fun _ => rfl) (fun _ => rfl)
instance : Word Binary64 := rename Binary64.mk Binary64.bits (fun _ => rfl) (fun _ => rfl)

/-- The word that a run of bytes spells. -/
def ofBytes [Word α] (bytes : Bytes) : α := ofNat bytes.toNat

/-- The bytes that spell a word, `width` many. -/
def toBytes [Word α] (word : α) : Bytes := .ofNat (width α) (toNat word)

@[simp] theorem length_toBytes [Word α] (word : α) : (toBytes word).length = width α :=
  Bytes.length_ofNat _ _

end Word
end ClassFormat
