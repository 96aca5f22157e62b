import ClassFormat.Proofs.Words
import ClassFormat.Text.Modified

/-! Writing modified UTF-8, and that reading undoes it. The bytes are first tried as UTF-8:
either that gives the same text or it fails, because a zero or a surrogate is in the way. -/
namespace ClassFormat.Text

namespace Multibyte

theorem scanFrom_eq (form? : UInt8 → Option Form) (numbers : List (Option Nat)) (bytes : Bytes) :
    scanFrom form? numbers bytes = numbers.reverse ++ scan form? bytes := by
  -- What has been collected is arbitrary, since it grows with every part.
  induction size : bytes.length using Nat.strongRecOn generalizing numbers bytes with
  | ind n ih =>
    cases bytes with
    | nil => simp [scan, scanFrom]
    | cons first rest =>
      have shorter : (next form? first rest).2.length < n := by
        subst size
        exact Nat.lt_succ_of_le (length_next_le form? first rest)
      rw [scan, scanFrom, scanFrom, ih _ shorter _ _ rfl, ih _ shorter _ _ rfl]
      simp

theorem scan_nil (form? : UInt8 → Option Form) : scan form? [] = [] := by
  simp [scan, scanFrom]

theorem scan_cons (form? : UInt8 → Option Form) (first : UInt8) (rest : Bytes) :
    scan form? (first :: rest) =
      (next form? first rest).1 :: scan form? (next form? first rest).2 := by
  rw [scan, scanFrom, scanFrom_eq]
  rfl

/-- A following byte that is in its range contributes its six low bits. -/
theorem complete_cons {value n : Nat} {range : Range} {ranges : List Range} {rest : Bytes}
    (low : range.1.toNat ≤ 0x80 + n) (high : 0x80 + n ≤ range.2.toNat) (small : n < 64) :
    complete value (range :: ranges) (.ofNat (0x80 + n) :: rest) =
      complete (value * 64 + n) ranges rest := by
  have byte : (UInt8.ofNat (0x80 + n)).toNat = 0x80 + n := by
    rw [UInt8.toNat_ofNat']
    omega
  have within : range.contains (.ofNat (0x80 + n)) = true := by
    simp only [Range.contains, Bool.and_eq_true, decide_eq_true_eq, UInt8.le_iff_toNat_le, byte]
    exact ⟨low, high⟩
  have bits : (0x80 + n) % 64 = n := by omega
  rw [complete, if_pos within, byte, bits]

theorem complete_continuation {value n : Nat} {ranges : List Range} {rest : Bytes} (small : n < 64) :
    complete value (continuation :: ranges) (.ofNat (0x80 + n) :: rest) =
      complete (value * 64 + n) ranges rest := by
  refine complete_cons ?_ ?_ small
  · exact Nat.le_add_right _ _
  · change 0x80 + n ≤ 0xbf
    omega

section Scan

variable {form? : UInt8 → Option Form} {first : UInt8} {lead m n : Nat} {rest : Bytes}

theorem scan_one (known : form? first = some ⟨lead, []⟩) :
    scan form? (first :: rest) = some lead :: scan form? rest := by
  simp only [scan_cons, next, known, complete]

theorem scan_two (rest : Bytes) (known : form? first = some ⟨lead, [continuation]⟩) (small : n < 64) :
    scan form? (first :: .ofNat (0x80 + n) :: rest) = some (lead * 64 + n) :: scan form? rest := by
  have filled :
      complete lead [continuation] (.ofNat (0x80 + n) :: rest) = (some (lead * 64 + n), rest) := by
    rw [complete_continuation small, complete]
  simp only [scan_cons, next, known, filled]

theorem scan_three {range : Range} (rest : Bytes)
    (known : form? first = some ⟨lead, [range, continuation]⟩) (low : range.1.toNat ≤ 0x80 + m)
    (high : 0x80 + m ≤ range.2.toNat) (middle : m < 64) (small : n < 64) :
    scan form? (first :: .ofNat (0x80 + m) :: .ofNat (0x80 + n) :: rest) =
      some ((lead * 64 + m) * 64 + n) :: scan form? rest := by
  have filled : complete lead [range, continuation] (.ofNat (0x80 + m) :: .ofNat (0x80 + n) :: rest) =
      (some ((lead * 64 + m) * 64 + n), rest) := by
    rw [complete_cons low high middle, complete_continuation small, complete]
  simp only [scan_cons, next, known, filled]

end Scan

end Multibyte

namespace Modified

open Multibyte

/-- The bytes of a UTF-16 unit. -/
def encodeUnit (unit : Nat) : Bytes :=
  if unit = 0 then [0xc0, 0x80]
  else if unit < 0x80 then [.ofNat unit]
  else if unit < 0x800 then [.ofNat (0xc0 + unit / 64), .ofNat (0x80 + unit % 64)]
  else [.ofNat (0xe0 + unit / 4096), .ofNat (0x80 + unit / 64 % 64), .ofNat (0x80 + unit % 64)]

/-- A character beyond the first plane is written as two surrogates. -/
def unitsOf (char : Char) : List Nat :=
  if char.toNat < 0x10000 then [char.toNat]
  else [0xd800 + (char.toNat - 0x10000) / 0x400, 0xdc00 + (char.toNat - 0x10000) % 0x400]

def encode (text : List Char) : Bytes := (text.flatMap unitsOf).flatMap encodeUnit

/-- A unit that UTF-8 encodes alike. -/
def Plain (unit : Nat) : Prop := unit ≠ 0 ∧ (unit < 0xd800 ∨ 0xe000 ≤ unit) ∧ unit < 0x10000

theorem byte_toNat {n : Nat} (small : n < 256) : (UInt8.ofNat n).toNat = n := by
  rw [UInt8.toNat_ofNat']
  exact Nat.mod_eq_of_lt small

section Forms

variable {n : Nat}

theorem form?_one (low : 0 < n) (high : n < 0x80) : form? (.ofNat n) = some ⟨n, []⟩ := by
  have byte := byte_toNat (show n < 256 by omega)
  simp only [form?, UInt8.lt_iff_toNat_lt, ← UInt8.toNat_inj, UInt8.reduceToNat, byte]
  grind

theorem form?_two (low : 2 ≤ n) (high : n < 32) :
    form? (.ofNat (0xc0 + n)) = some ⟨n, [continuation]⟩ := by
  have byte := byte_toNat (show 0xc0 + n < 256 by omega)
  simp only [form?, UInt8.lt_iff_toNat_lt, ← UInt8.toNat_inj, UInt8.reduceToNat, byte]
  grind

theorem form?_three (low : 0 < n) (high : n < 16) :
    form? (.ofNat (0xe0 + n)) = some ⟨n, [continuation, continuation]⟩ := by
  have byte := byte_toNat (show 0xe0 + n < 256 by omega)
  simp only [form?, UInt8.lt_iff_toNat_lt, ← UInt8.toNat_inj, UInt8.reduceToNat, byte]
  grind

theorem utf8_one (high : n < 0x80) : Utf8.form? (.ofNat n) = some ⟨n, []⟩ := by
  have byte := byte_toNat (show n < 256 by omega)
  simp only [Utf8.form?, UInt8.lt_iff_toNat_lt, ← UInt8.toNat_inj, UInt8.reduceToNat, byte]
  grind

theorem utf8_two (low : 2 ≤ n) (high : n < 32) :
    Utf8.form? (.ofNat (0xc0 + n)) = some ⟨n, [continuation]⟩ := by
  have byte := byte_toNat (show 0xc0 + n < 256 by omega)
  simp only [Utf8.form?, UInt8.lt_iff_toNat_lt, ← UInt8.toNat_inj, UInt8.reduceToNat, byte]
  grind

theorem utf8_three (low : 0 < n) (high : n < 16) (other : n ≠ 13) :
    Utf8.form? (.ofNat (0xe0 + n)) = some ⟨n, [continuation, continuation]⟩ := by
  have byte := byte_toNat (show 0xe0 + n < 256 by omega)
  simp only [Utf8.form?, UInt8.lt_iff_toNat_lt, ← UInt8.toNat_inj, UInt8.reduceToNat, byte]
  grind

end Forms

/-- An encoding that knows the forms of a unit reads it as it was written. -/
theorem scan_encodeUnit_of_forms {form? : UInt8 → Option Form} {unit : Nat} (nonzero : unit ≠ 0)
    (bound : unit < 0x10000) (one : unit < 0x80 → form? (.ofNat unit) = some ⟨unit, []⟩)
    (two : 0x80 ≤ unit → unit < 0x800 →
      form? (.ofNat (0xc0 + unit / 64)) = some ⟨unit / 64, [continuation]⟩)
    (three : 0x800 ≤ unit → ∃ range : Range,
      form? (.ofNat (0xe0 + unit / 4096)) = some ⟨unit / 4096, [range, continuation]⟩ ∧
        range.1.toNat ≤ 0x80 + unit / 64 % 64 ∧ 0x80 + unit / 64 % 64 ≤ range.2.toNat) (rest : Bytes) :
    scan form? (encodeUnit unit ++ rest) = some unit :: scan form? rest := by
  unfold encodeUnit
  rw [if_neg nonzero]
  split
  next short => exact scan_one (one short)
  split
  next long short =>
    have value : unit / 64 * 64 + unit % 64 = unit := Nat.div_add_mod' unit 64
    have read := scan_two rest (two (by omega) short) (show unit % 64 < 64 by omega)
    rw [value] at read
    exact read
  next long =>
    obtain ⟨range, form, low, high⟩ := three (by omega)
    have value : (unit / 4096 * 64 + unit / 64 % 64) * 64 + unit % 64 = unit := by omega
    have read := scan_three rest form low high (by omega) (show unit % 64 < 64 by omega)
    rw [value] at read
    exact read

/-- Every unit is read as it was written, whatever follows. -/
theorem scan_encodeUnit {unit : Nat} (bound : unit < 0x10000) (rest : Bytes) :
    scan form? (encodeUnit unit ++ rest) = some unit :: scan form? rest := by
  by_cases zero : unit = 0
  · subst zero
    exact scan_cons form? 0xc0 (0x80 :: rest)
  refine scan_encodeUnit_of_forms zero bound (fun short => ?_) (fun long short => ?_)
    (fun long => ?_) rest
  · exact form?_one (by omega) short
  · exact form?_two (by omega) (by omega)
  · by_cases first : unit / 4096 = 0
    · refine ⟨(0xa0, 0xbf), by rw [first]; rfl, ?_, ?_⟩
      · change 0xa0 ≤ _
        omega
      · change _ ≤ 0xbf
        omega
    · refine ⟨continuation, form?_three (by omega) (by omega), Nat.le_add_right _ _, ?_⟩
      change _ ≤ 0xbf
      omega

/-- UTF-8 reads a unit alike, unless it is zero or a surrogate. -/
theorem utf8_scan_encodeUnit {unit : Nat} (plain : Plain unit) (rest : Bytes) :
    scan Utf8.form? (encodeUnit unit ++ rest) = some unit :: scan Utf8.form? rest := by
  obtain ⟨nonzero, outside, bound⟩ := plain
  refine scan_encodeUnit_of_forms nonzero bound (fun short => ?_) (fun long short => ?_)
    (fun long => ?_) rest
  · exact utf8_one short
  · exact utf8_two (by omega) (by omega)
  · by_cases first : unit / 4096 = 0
    · refine ⟨(0xa0, 0xbf), by rw [first]; rfl, ?_, ?_⟩
      · change 0xa0 ≤ _
        omega
      · change _ ≤ 0xbf
        omega
    by_cases last : unit / 4096 = 13
    · refine ⟨(0x80, 0x9f), by rw [last]; rfl, Nat.le_add_right _ _, ?_⟩
      change _ ≤ 0x9f
      omega
    · refine ⟨continuation, utf8_three (by omega) (by omega) last, Nat.le_add_right _ _, ?_⟩
      change _ ≤ 0xbf
      omega

/-- UTF-8 has no form for a zero of two bytes or for a surrogate. -/
theorem utf8_scan_broken {unit : Nat} (bound : unit < 0x10000) (special : ¬ Plain unit) (rest : Bytes) :
    none ∈ scan Utf8.form? (encodeUnit unit ++ rest) := by
  by_cases zero : unit = 0
  · subst zero
    rw [show encodeUnit 0 = [0xc0, 0x80] from rfl, List.cons_append, scan_cons]
    exact List.mem_cons_self
  · have surrogate : 0xd800 ≤ unit ∧ unit < 0xe000 := by
      unfold Plain at special
      omega
    have first : unit / 4096 = 13 := by omega
    have middle : (UInt8.ofNat (0x80 + unit / 64 % 64)).toNat = 0x80 + unit / 64 % 64 :=
      byte_toNat (by omega)
    have outside : Range.contains (0x80, 0x9f) (.ofNat (0x80 + unit / 64 % 64)) = false := by
      simp only [Range.contains, Bool.and_eq_false_iff, decide_eq_false_iff_not, UInt8.le_iff_toNat_le,
        middle]
      exact .inr (by change ¬ _ ≤ 0x9f; omega)
    have form : Utf8.form? 0xed = some ⟨0xd, [(0x80, 0x9f), continuation]⟩ := rfl
    unfold encodeUnit
    rw [if_neg zero, if_neg (by omega), if_neg (by omega), first, List.cons_append, scan_cons, next,
      show Utf8.form? (.ofNat (0xe0 + 13)) = _ from form]
    simp only [List.cons_append, complete, outside]
    exact List.mem_cons_self

section Units

theorem scan_encodeUnits {units : List Nat} (bound : ∀ unit ∈ units, unit < 0x10000) :
    scan form? (units.flatMap encodeUnit) = units.map some := by
  induction units with
  | nil => exact scan_nil form?
  | cons unit rest ih =>
    rw [List.flatMap_cons, scan_encodeUnit (bound unit List.mem_cons_self), List.map_cons,
      ih fun unit member => bound unit (List.mem_cons_of_mem _ member)]

/-- Read as UTF-8, units either come out unchanged or with a broken part among them. -/
theorem utf8_scan_encodeUnits {units : List Nat} (bound : ∀ unit ∈ units, unit < 0x10000) :
    ((∀ unit ∈ units, Plain unit) ∧ scan Utf8.form? (units.flatMap encodeUnit) = units.map some) ∨
      none ∈ scan Utf8.form? (units.flatMap encodeUnit) := by
  induction units with
  | nil => exact .inl ⟨by simp, scan_nil _⟩
  | cons unit rest ih =>
    rw [List.flatMap_cons]
    by_cases plain : Plain unit
    · rw [utf8_scan_encodeUnit plain]
      rcases ih fun unit member => bound unit (List.mem_cons_of_mem _ member) with ⟨all, same⟩ | broken
      · exact .inl ⟨List.forall_mem_cons.mpr ⟨plain, all⟩, by rw [same, List.map_cons]⟩
      · exact .inr (List.mem_cons_of_mem _ broken)
    · exact .inr (utf8_scan_broken (bound unit List.mem_cons_self) plain _)

theorem mapM_id_some (numbers : List Nat) : (numbers.map some).mapM id = some numbers := by
  induction numbers with
  | nil => rfl
  | cons number rest ih => simp [ih]

theorem mapM_id_none {numbers : List (Option Nat)} (broken : none ∈ numbers) :
    numbers.mapM id = none := by
  induction numbers with
  | nil => cases broken
  | cons number rest ih =>
    cases number with
    | none => simp
    | some number =>
      have deeper : none ∈ rest := by simpa using broken
      simp [ih deeper]

end Units

section Characters

/-- No character is a surrogate. -/
theorem char_cases (char : Char) :
    char.toNat < 0xd800 ∨ (0xe000 ≤ char.toNat ∧ char.toNat < 0x110000) := by
  rcases char.valid with low | ⟨above, below⟩
  · exact .inl low
  · exact .inr ⟨above, below⟩

theorem unitsOf_lt {char : Char} {unit : Nat} (member : unit ∈ unitsOf char) : unit < 0x10000 := by
  have range := char_cases char
  unfold unitsOf at member
  split at member
  next first =>
    rw [List.mem_singleton.mp member]
    exact first
  next beyond =>
    simp only [List.mem_cons, List.not_mem_nil, or_false] at member
    omega

theorem ofUnitsFrom_unitsOf (char : Char) (rest : List Nat) (decoded : List Char) :
    ofUnitsFrom (unitsOf char ++ rest) decoded = ofUnitsFrom rest (char :: decoded) := by
  have range := char_cases char
  unfold unitsOf
  split
  next first =>
    have high : isHigh char.toNat = false := by
      simp only [isHigh, Bool.and_eq_false_iff, decide_eq_false_iff_not]
      omega
    have low : isLow char.toNat = false := by
      simp only [isLow, Bool.and_eq_false_iff, decide_eq_false_iff_not]
      omega
    rw [List.singleton_append, ofUnitsFrom.eq_def]
    simp only [high, low, Bool.false_eq_true, ↓reduceIte, Char.ofNat_toNat]
  next beyond =>
    have high : isHigh (0xd800 + (char.toNat - 0x10000) / 0x400) = true := by
      simp only [isHigh, Bool.and_eq_true, decide_eq_true_eq]
      omega
    have low : isLow (0xdc00 + (char.toNat - 0x10000) % 0x400) = true := by
      simp only [isLow, Bool.and_eq_true, decide_eq_true_eq]
      omega
    have joined : join (0xd800 + (char.toNat - 0x10000) / 0x400)
        (0xdc00 + (char.toNat - 0x10000) % 0x400) = char := by
      have code : 0x10000 + (0xd800 + (char.toNat - 0x10000) / 0x400 - 0xd800) * 0x400 +
          (0xdc00 + (char.toNat - 0x10000) % 0x400 - 0xdc00) = char.toNat := by omega
      rw [join, code, Char.ofNat_toNat]
    simp only [List.cons_append, List.nil_append, ofUnitsFrom, high, low, ↓reduceIte, joined]

theorem ofUnits?_unitsOf (text : List Char) : ofUnits? (text.flatMap unitsOf) = some text := by
  have collected (decoded : List Char) :
      ofUnitsFrom (text.flatMap unitsOf) decoded = some (decoded.reverse ++ text) := by
    induction text generalizing decoded with
    | nil => simp [ofUnitsFrom]
    | cons char rest ih => rw [List.flatMap_cons, ofUnitsFrom_unitsOf, ih]; simp
  exact collected []

theorem map_ofNat_unitsOf {text : List Char} (plain : ∀ unit ∈ text.flatMap unitsOf, Plain unit) :
    (text.flatMap unitsOf).map Char.ofNat = text := by
  induction text with
  | nil => rfl
  | cons char rest ih =>
    rw [List.flatMap_cons] at plain
    rw [List.flatMap_cons, List.map_append,
      ih fun unit member => plain unit (List.mem_append_right _ member)]
    by_cases first : char.toNat < 0x10000
    · rw [unitsOf, if_pos first, List.map_singleton, Char.ofNat_toNat, List.singleton_append]
    · have range := char_cases char
      have high : 0xd800 + (char.toNat - 0x10000) / 0x400 ∈ unitsOf char := by simp [unitsOf, first]
      have := plain _ (List.mem_append_left _ high)
      unfold Plain at this
      omega

end Characters

/-- Decoding undoes encoding. -/
theorem decode?_encode (text : List Char) : decode? (encode text) = some text := by
  have bound : ∀ unit ∈ text.flatMap unitsOf, unit < 0x10000 := by
    intro unit member
    obtain ⟨char, _, member⟩ := List.mem_flatMap.mp member
    exact unitsOf_lt member
  have units : (units? (encode text)).bind ofUnits? = some text := by
    rw [units?, encode, scan_encodeUnits bound, mapM_id_some]
    exact ofUnits?_unitsOf text
  unfold decode?
  rcases utf8_scan_encodeUnits bound with ⟨plain, same⟩ | broken
  · have read : Utf8.decode? (encode text) = some text := by
      rw [Utf8.decode?, encode, same, mapM_id_some, Option.map_some, map_ofNat_unitsOf plain]
    rw [read]
  · have failed : Utf8.decode? (encode text) = none := by
      rw [Utf8.decode?, encode, mapM_id_none broken, Option.map_none]
    rw [failed]
    exact units

end Modified
end ClassFormat.Text
