import ClassFormat.Scalar

/-! Numbers and the bytes that spell them. Both directions are exact: a run of bytes is
spelt by its number at its own length, and a number that fits is spelt by its bytes. -/
namespace ClassFormat

namespace Bytes

theorem foldl_eq (bytes : Bytes) (value : Nat) :
    bytes.foldl (fun value byte => value * 256 + byte.toNat) value =
      value * Nat.pow 256 bytes.length + toNat bytes := by
  induction bytes generalizing value with
  | nil => simp [toNat]
  | cons byte rest ih =>
    rw [toNat, List.foldl_cons, List.foldl_cons, ih, ih (0 * 256 + byte.toNat)]
    have grows : Nat.pow 256 (byte :: rest).length = Nat.pow 256 rest.length * 256 := rfl
    rw [grows]
    simp only [Nat.zero_mul, Nat.zero_add, Nat.add_mul]
    rw [Nat.mul_assoc, Nat.mul_comm 256, Nat.add_assoc]

theorem toNat_append (first second : Bytes) :
    toNat (first ++ second) = toNat first * Nat.pow 256 second.length + toNat second := by
  rw [toNat, List.foldl_append]
  exact foldl_eq second _

theorem toNat_cons (byte : UInt8) (rest : Bytes) :
    toNat (byte :: rest) = byte.toNat * Nat.pow 256 rest.length + toNat rest := by
  rw [toNat, List.foldl_cons, foldl_eq, Nat.zero_mul, Nat.zero_add]

theorem toNat_concat (front : Bytes) (last : UInt8) :
    toNat (front ++ [last]) = toNat front * 256 + last.toNat := by
  rw [toNat_append]
  simp [toNat]

theorem toNat_lt (bytes : Bytes) : toNat bytes < Nat.pow 256 bytes.length := by
  induction bytes with
  | nil => exact Nat.one_pos
  | cons byte rest ih =>
    have grows : Nat.pow 256 (byte :: rest).length = 256 * Nat.pow 256 rest.length :=
      Nat.mul_comm _ 256
    have bound : byte.toNat + 1 ≤ 256 := byte.toNat_lt
    have scaled := Nat.mul_le_mul_right (Nat.pow 256 rest.length) bound
    rw [toNat_cons, grows]
    rw [Nat.add_mul] at scaled
    omega

theorem toNat_ofNat (width value : Nat) (bound : value < Nat.pow 256 width) :
    toNat (ofNat width value) = value := by
  induction width generalizing value with
  | zero =>
    have : value = 0 := Nat.lt_one_iff.mp bound
    subst value
    rfl
  | succ width ih =>
    have grows : Nat.pow 256 (width + 1) = Nat.pow 256 width * 256 := rfl
    have small : value / 256 < Nat.pow 256 width := by omega
    have low : (UInt8.ofNat value).toNat = value % 256 := rfl
    rw [ofNat, toNat_concat, ih _ small, low]
    omega

theorem ofNat_toNat (bytes : Bytes) : ofNat bytes.length (toNat bytes) = bytes := by
  generalize size : bytes.length = width
  induction width generalizing bytes with
  | zero =>
    rw [List.length_eq_zero_iff.mp size]
    rfl
  | succ width ih =>
    have nonempty : bytes ≠ [] := List.ne_nil_of_length_eq_add_one size
    obtain ⟨front, last, rfl⟩ : ∃ front last, bytes = front ++ [last] :=
      ⟨_, _, (List.dropLast_concat_getLast nonempty).symm⟩
    have shorter : front.length = width := by simpa using size
    have bound := last.toNat_lt
    have high : (toNat front * 256 + last.toNat) / 256 = toNat front := by omega
    have low : UInt8.ofNat (toNat front * 256 + last.toNat) = last := by
      apply UInt8.toNat_inj.mp
      have value : (UInt8.ofNat (toNat front * 256 + last.toNat)).toNat =
        (toNat front * 256 + last.toNat) % 256 := rfl
      omega
    rw [toNat_concat, ofNat, high, low, ih front shorter]

end Bytes

namespace Word

@[simp] theorem width_u2 : width UInt16 = 2 := rfl
@[simp] theorem width_u4 : width UInt32 = 4 := rfl
@[simp] theorem width_i4 : width Int32 = 4 := rfl

/-- A byte spells itself. -/
@[simp] theorem toBytes_u1 (byte : UInt8) : toBytes byte = [byte] := by
  change Bytes.ofNat 1 byte.toNat = [byte]
  simp [Bytes.ofNat]

variable {κ : Type} [Word κ]

theorem toNat_ofBytes (bytes : Bytes) (size : bytes.length = width κ) :
    toNat (ofBytes bytes : κ) = Bytes.toNat bytes :=
  toNat_ofNat _ (size ▸ Bytes.toNat_lt bytes)

theorem toBytes_ofBytes (bytes : Bytes) (size : bytes.length = width κ) :
    toBytes (ofBytes bytes : κ) = bytes := by
  rw [toBytes, toNat_ofBytes bytes size, ← size, Bytes.ofNat_toNat]

@[simp] theorem toNat_toBytes (word : κ) : Bytes.toNat (toBytes word) = toNat word :=
  Bytes.toNat_ofNat _ _ (toNat_lt word)

@[simp] theorem ofBytes_toBytes (word : κ) : (ofBytes (toBytes word) : κ) = word := by
  rw [ofBytes, toNat_toBytes, ofNat_toNat]

end Word
end ClassFormat
