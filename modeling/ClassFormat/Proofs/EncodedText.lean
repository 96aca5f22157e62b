import ClassFormat.Proofs.ModifiedText

/-! The two encodings of a text. Bytes that are decoded can be had back from what they were decoded to
if it is known which encoding they are in, and a text that is not encoded alike by both is longer in
modified UTF-8. -/
namespace ClassFormat.Text

namespace Multibyte

/-- A range of bytes that all begin with the bits `10`. -/
def Range.Follows (range : Range) : Prop := 0x80 ≤ range.1.toNat ∧ range.2.toNat ≤ 0xbf

section Complete

variable {lead number : Nat} {range : Range} {bytes tail : Bytes}

/-- A byte that was announced brings its six low bits. -/
theorem complete_eq_some {ranges : List Range} (follows : range.Follows)
    (found : complete lead (range :: ranges) bytes = (some number, tail)) :
    ∃ low rest, bytes = .ofNat (0x80 + low) :: rest ∧ low < 64 ∧ range.1.toNat ≤ 0x80 + low ∧
      0x80 + low ≤ range.2.toNat ∧ complete (lead * 64 + low) ranges rest = (some number, tail) := by
  rcases follows with ⟨above, below⟩
  cases bytes with
  | nil => simp [complete] at found
  | cons byte rest =>
    rw [complete] at found
    split at found
    next within =>
      simp only [Range.contains, Bool.and_eq_true, decide_eq_true_eq, UInt8.le_iff_toNat_le] at within
      have same : 0x80 + byte.toNat % 64 = byte.toNat := by omega
      refine ⟨byte.toNat % 64, rest, ?_, Nat.mod_lt _ (by decide), ?_, ?_, found⟩
      · rw [same, UInt8.ofNat_toNat]
      · rw [same]
        exact within.1
      · rw [same]
        exact within.2
    next => simp at found

theorem follows_continuation : continuation.Follows := ⟨Nat.le_refl _, Nat.le_refl _⟩

theorem complete_two (found : complete lead [continuation] bytes = (some number, tail)) :
    ∃ low, low < 64 ∧ number = lead * 64 + low ∧ bytes = .ofNat (0x80 + low) :: tail := by
  rcases complete_eq_some follows_continuation found with ⟨low, rest, rfl, small, -, -, found⟩
  cases found
  exact ⟨low, small, rfl, rfl⟩

theorem complete_three (follows : range.Follows)
    (found : complete lead [range, continuation] bytes = (some number, tail)) :
    ∃ middle low, middle < 64 ∧ low < 64 ∧ range.1.toNat ≤ 0x80 + middle ∧ 0x80 + middle ≤ range.2.toNat ∧
      number = (lead * 64 + middle) * 64 + low ∧
      bytes = .ofNat (0x80 + middle) :: .ofNat (0x80 + low) :: tail := by
  rcases complete_eq_some follows found with ⟨middle, rest, rfl, fits, above, below, found⟩
  rcases complete_two found with ⟨low, small, rfl, rfl⟩
  exact ⟨middle, low, fits, small, above, below, rfl, rfl⟩

theorem complete_four (follows : range.Follows)
    (found : complete lead [range, continuation, continuation] bytes = (some number, tail)) :
    ∃ second third low, second < 64 ∧ third < 64 ∧ low < 64 ∧ range.1.toNat ≤ 0x80 + second ∧
      0x80 + second ≤ range.2.toNat ∧ number = ((lead * 64 + second) * 64 + third) * 64 + low ∧
      bytes = .ofNat (0x80 + second) :: .ofNat (0x80 + third) :: .ofNat (0x80 + low) :: tail := by
  rcases complete_eq_some follows found with ⟨second, rest, rfl, fits, above, below, found⟩
  rcases complete_three follows_continuation found with ⟨third, low, also, small, -, -, rfl, rfl⟩
  exact ⟨second, third, low, fits, also, small, above, below, rfl, rfl⟩

end Complete

/-- What comes out is a number that can be encoded, and was. -/
def Spells (form? : UInt8 → Option Form) (encode : Nat → Bytes) (valid : Nat → Prop) : Prop :=
  ∀ first rest number tail, next form? first rest = (some number, tail) →
    valid number ∧ first :: rest = encode number ++ tail

theorem Spells.eq_flatMap {form? : UInt8 → Option Form} {encode : Nat → Bytes} {valid : Nat → Prop}
    (spells : Spells form? encode valid) {bytes : Bytes} {numbers : List Nat}
    (scanned : scan form? bytes = numbers.map some) :
    (∀ number ∈ numbers, valid number) ∧ bytes = numbers.flatMap encode := by
  induction numbers generalizing bytes with
  | nil =>
    cases bytes with
    | nil => simp
    | cons first rest => simp [scan_cons] at scanned
  | cons number others ih =>
    cases bytes with
    | nil => simp [scan_nil] at scanned
    | cons first rest =>
      rw [scan_cons, List.map_cons] at scanned
      injection scanned with same scanned
      rcases spells first rest number _ (Prod.ext same rfl) with ⟨ok, head⟩
      rcases ih scanned with ⟨all, tail⟩
      refine ⟨List.forall_mem_cons.mpr ⟨ok, all⟩, ?_⟩
      rw [head, List.flatMap_cons, ← tail]

theorem map_some_of_mapM {outcomes : List (Option Nat)} {numbers : List Nat}
    (all : outcomes.mapM id = some numbers) : outcomes = numbers.map some := by
  induction outcomes generalizing numbers with
  | nil =>
    cases all
    rfl
  | cons outcome rest ih =>
    cases outcome with
    | none => simp at all
    | some number =>
      cases others : rest.mapM id with
      | none => simp [others] at all
      | some found =>
        obtain rfl : number :: found = numbers := by simpa [others] using all
        rw [ih others, List.map_cons]

end Multibyte

open Multibyte

section Standard

/-- The bytes of a number in UTF-8. -/
def Utf8.encodeNumber (number : Nat) : Bytes :=
  if number < 0x80 then [.ofNat number]
  else if number < 0x800 then [.ofNat (0xc0 + number / 64), .ofNat (0x80 + number % 64)]
  else if number < 0x10000 then
    [.ofNat (0xe0 + number / 4096), .ofNat (0x80 + number / 64 % 64), .ofNat (0x80 + number % 64)]
  else
    [.ofNat (0xf0 + number / 262144), .ofNat (0x80 + number / 4096 % 64), .ofNat (0x80 + number / 64 % 64),
      .ofNat (0x80 + number % 64)]

theorem Utf8.encodeNumber_toNat (char : Char) : Utf8.encodeNumber char.toNat = String.utf8EncodeChar char := by
  have range := Modified.char_cases char
  have code : char.val.toNat = char.toNat := rfl
  unfold encodeNumber String.utf8EncodeChar
  simp only [code, ← Nat.lt_succ_iff]
  -- The first byte has room for all bits that are left.
  split
  next => rfl
  split
  next => simp only [Nat.mod_eq_of_lt (show char.toNat / 64 < 32 by omega), Nat.add_comm]
  split
  next => simp only [Nat.mod_eq_of_lt (show char.toNat / 4096 < 16 by omega), Nat.add_comm]
  next => simp only [Nat.mod_eq_of_lt (show char.toNat / 262144 < 8 by omega), Nat.add_comm]

/-- UTF-8 and modified UTF-8 differ in zeros and beyond the first plane. -/
theorem Modified.encodeUnit_eq {unit : Nat} (nonzero : unit ≠ 0) (bound : unit < 0x10000) :
    encodeUnit unit = Utf8.encodeNumber unit := by
  unfold encodeUnit Utf8.encodeNumber
  rw [if_neg nonzero, if_pos bound]

theorem Utf8.encodeNumber_two {lead low : Nat} (long : 2 ≤ lead) (short : lead < 32) (small : low < 64) :
    encodeNumber (lead * 64 + low) = [.ofNat (0xc0 + lead), .ofNat (0x80 + low)] := by
  have high : (lead * 64 + low) / 64 = lead := by omega
  have rest : (lead * 64 + low) % 64 = low := by omega
  rw [encodeNumber, if_neg (by omega), if_pos (by omega), high, rest]

theorem Utf8.encodeNumber_three {lead middle low : Nat} (long : 0x800 ≤ (lead * 64 + middle) * 64 + low)
    (short : lead < 16) (fits : middle < 64) (small : low < 64) :
    encodeNumber ((lead * 64 + middle) * 64 + low) =
      [.ofNat (0xe0 + lead), .ofNat (0x80 + middle), .ofNat (0x80 + low)] := by
  generalize number : (lead * 64 + middle) * 64 + low = n at *
  have one : n / 4096 = lead := by omega
  have two : n / 64 % 64 = middle := by omega
  have three : n % 64 = low := by omega
  rw [encodeNumber, if_neg (by omega), if_neg (by omega), if_pos (by omega), one, two, three]

theorem Utf8.encodeNumber_four {lead second third low : Nat}
    (long : 0x10000 ≤ ((lead * 64 + second) * 64 + third) * 64 + low)
    (fits : second < 64) (also : third < 64) (small : low < 64) :
    encodeNumber (((lead * 64 + second) * 64 + third) * 64 + low) =
      [.ofNat (0xf0 + lead), .ofNat (0x80 + second), .ofNat (0x80 + third), .ofNat (0x80 + low)] := by
  generalize number : ((lead * 64 + second) * 64 + third) * 64 + low = n at *
  have one : n / 262144 = lead := by omega
  have two : n / 4096 % 64 = second := by omega
  have three : n / 64 % 64 = third := by omega
  have four : n % 64 = low := by omega
  rw [encodeNumber, if_neg (by omega), if_neg (by omega), if_neg (by omega), one, two, three, four]

section Announced

variable {first : UInt8} {lead number : Nat} {range : Range} {rest tail : Bytes}

theorem eq_ofNat {byte : UInt8} {value : Nat} (same : byte.toNat = value) : byte = .ofNat value := by
  rw [← same, UInt8.ofNat_toNat]

theorem spelt_two (announced : first.toNat = 0xc0 + lead) (long : 2 ≤ lead) (short : lead < 32)
    (found : complete lead [continuation] rest = (some number, tail)) :
    0x80 ≤ number ∧ number < 0x800 ∧ first :: rest = Utf8.encodeNumber number ++ tail := by
  rcases complete_two found with ⟨low, small, rfl, rfl⟩
  refine ⟨by omega, by omega, ?_⟩
  rw [Utf8.encodeNumber_two long short small, eq_ofNat announced]
  rfl

/-- What three bytes can spell follows from the range of the second. -/
theorem spelt_three (announced : first.toNat = 0xe0 + lead) (short : lead < 16) (follows : range.Follows)
    (long : 0x800 ≤ (lead * 64 + (range.1.toNat - 0x80)) * 64)
    (found : complete lead [range, continuation] rest = (some number, tail)) :
    (lead * 64 + (range.1.toNat - 0x80)) * 64 ≤ number ∧
      number < (lead * 64 + (range.2.toNat - 0x80) + 1) * 64 ∧
      first :: rest = Utf8.encodeNumber number ++ tail := by
  rcases complete_three follows found with ⟨middle, low, fits, small, above, below, rfl, rfl⟩
  refine ⟨by omega, by omega, ?_⟩
  rw [Utf8.encodeNumber_three (by omega) short fits small, eq_ofNat announced]
  rfl

theorem spelt_four (announced : first.toNat = 0xf0 + lead) (follows : range.Follows)
    (long : 0x10000 ≤ (lead * 64 + (range.1.toNat - 0x80)) * 4096)
    (found : complete lead [range, continuation, continuation] rest = (some number, tail)) :
    0x10000 ≤ number ∧ number < (lead * 64 + (range.2.toNat - 0x80) + 1) * 4096 ∧
      first :: rest = Utf8.encodeNumber number ++ tail := by
  rcases complete_four follows found with ⟨second, third, low, fits, also, small, above, below, rfl, rfl⟩
  refine ⟨by omega, by omega, ?_⟩
  rw [Utf8.encodeNumber_four (by omega) fits also small, eq_ofNat announced]
  rfl

end Announced

theorem Utf8.spells : Spells form? encodeNumber Nat.isValidChar := by
  intro first rest number tail found
  have bound := first.toNat_lt
  rw [next] at found
  revert found
  fun_cases form? first
  all_goals
    intro found
    simp +zetaDelta only [UInt8.lt_iff_toNat_lt, ← UInt8.toNat_inj, UInt8.reduceToNat] at *
  case case1 short =>
    cases found
    refine ⟨.inl (by omega), ?_⟩
    rw [encodeNumber, if_pos short, UInt8.ofNat_toNat]
    rfl
  case case3 =>
    have lead : first.toNat = 0xc0 + (first.toNat - 0xc0) := by omega
    rcases spelt_two lead (by omega) (by omega) found with ⟨low, high, same⟩
    exact ⟨.inl (by omega), same⟩
  case case4 =>
    have lead : first.toNat = 0xe0 := by assumption
    rcases spelt_three lead (by decide) ⟨by decide, by decide⟩ (by decide) found with ⟨low, high, same⟩
    exact ⟨.inl (Nat.lt_of_lt_of_le high (by decide)), same⟩
  case case5 =>
    have lead : first.toNat = 0xe0 + 13 := by assumption
    rcases spelt_three lead (by decide) ⟨by decide, by decide⟩ (by decide) found with ⟨low, high, same⟩
    exact ⟨.inl high, same⟩
  case case6 =>
    have lead : first.toNat = 0xe0 + (first.toNat - 0xe0) := by omega
    rcases spelt_three lead (by omega) follows_continuation (by simp [continuation]; omega) found with
      ⟨low, high, same⟩
    simp [continuation] at low high
    refine ⟨?_, same⟩
    rw [Nat.isValidChar]
    omega
  case case7 =>
    have lead : first.toNat = 0xf0 := by assumption
    rcases spelt_four lead ⟨by decide, by decide⟩ (by decide) found with ⟨low, high, same⟩
    exact ⟨.inr ⟨Nat.lt_of_lt_of_le (by decide) low, Nat.lt_of_lt_of_le high (by decide)⟩, same⟩
  case case8 =>
    have lead : first.toNat = 0xf0 + (first.toNat - 0xf0) := by omega
    rcases spelt_four lead follows_continuation (by simp [continuation]; omega) found with ⟨low, high, same⟩
    simp [continuation] at high
    exact ⟨.inr ⟨by omega, by omega⟩, same⟩
  case case9 =>
    have lead : first.toNat = 0xf0 + 4 := by assumption
    rcases spelt_four lead ⟨by decide, by decide⟩ (by decide) found with ⟨low, high, same⟩
    exact ⟨.inr ⟨Nat.lt_of_lt_of_le (by decide) low, high⟩, same⟩
  all_goals cases found

theorem Modified.spells : Spells form? encodeUnit (· < 0x10000) := by
  intro first rest number tail found
  have bound := first.toNat_lt
  rw [next] at found
  revert found
  fun_cases form? first
  all_goals
    intro found
    simp +zetaDelta only [UInt8.lt_iff_toNat_lt, ← UInt8.toNat_inj, UInt8.reduceToNat] at *
  case case2 =>
    cases found
    have short : first.toNat < 0x80 := by assumption
    refine ⟨by omega, ?_⟩
    rw [encodeUnit, if_neg (by assumption), if_pos short, UInt8.ofNat_toNat]
    rfl
  case case3 =>
    have lead : first = .ofNat 0xc0 := eq_ofNat (by assumption)
    rcases complete_eq_some ⟨by decide, by decide⟩ found with ⟨low, others, rfl, -, -, below, found⟩
    have zero : low = 0 := by
      change 0x80 + low ≤ 0x80 at below
      omega
    subst zero lead
    cases found
    exact ⟨by decide, rfl⟩
  case case5 =>
    have lead : first.toNat = 0xc0 + (first.toNat - 0xc0) := by omega
    rcases spelt_two lead (by omega) (by omega) found with ⟨low, high, same⟩
    exact ⟨by omega, by rw [encodeUnit_eq (by omega) (by omega), same]⟩
  case case6 =>
    have lead : first.toNat = 0xe0 := by assumption
    rcases spelt_three lead (by decide) ⟨by decide, by decide⟩ (by decide) found with ⟨low, high, same⟩
    have above : 0x800 ≤ number := low
    have below : number < 0x1000 := high
    exact ⟨by omega, by rw [encodeUnit_eq (by omega) (by omega), same]⟩
  case case7 =>
    have lead : first.toNat = 0xe0 + (first.toNat - 0xe0) := by omega
    rcases spelt_three lead (by omega) follows_continuation (by simp [continuation]; omega) found with
      ⟨low, high, same⟩
    simp [continuation] at low high
    exact ⟨by omega, by rw [encodeUnit_eq (by omega) (by omega), same]⟩
  all_goals cases found

end Standard

section Decoding

theorem toNat_ofNat {number : Nat} (valid : number.isValidChar) : (Char.ofNat number).toNat = number := by
  rw [Char.ofNat, dif_pos valid]
  rfl

theorem Utf8.eq_of_decode? {bytes : Bytes} {text : List Char} (decoded : decode? bytes = some text) :
    bytes = text.flatMap String.utf8EncodeChar := by
  rw [decode?, Option.map_eq_some_iff] at decoded
  rcases decoded with ⟨numbers, all, rfl⟩
  rcases Utf8.spells.eq_flatMap (map_some_of_mapM all) with ⟨valid, same⟩
  have alike : numbers.map (fun number => String.utf8EncodeChar (Char.ofNat number)) =
      numbers.map encodeNumber := by
    apply List.map_congr_left
    intro number member
    rw [← encodeNumber_toNat, toNat_ofNat (valid number member)]
  rw [same, List.flatMap_map, List.flatMap_def, List.flatMap_def, alike]

namespace Modified

theorem unitsOf_join {high low : Nat} (first : isHigh high = true) (second : isLow low = true) :
    unitsOf (join high low) = [high, low] := by
  simp only [isHigh, isLow, Bool.and_eq_true, decide_eq_true_eq] at first second
  have code : (join high low).toNat = 0x10000 + (high - 0xd800) * 0x400 + (low - 0xdc00) :=
    toNat_ofNat (.inr ⟨by omega, by omega⟩)
  have beyond : ¬ (join high low).toNat < 0x10000 := by omega
  have upper : 0xd800 + ((join high low).toNat - 0x10000) / 0x400 = high := by omega
  have lower : 0xdc00 + ((join high low).toNat - 0x10000) % 0x400 = low := by omega
  rw [unitsOf, if_neg beyond, upper, lower]

theorem unitsOf_ofNat {unit : Nat} (bound : unit < 0x10000) (high : ¬ isHigh unit = true)
    (low : ¬ isLow unit = true) : unitsOf (Char.ofNat unit) = [unit] := by
  simp only [isHigh, isLow, Bool.and_eq_true, decide_eq_true_eq] at high low
  have code : (Char.ofNat unit).toNat = unit := by
    apply toNat_ofNat
    rw [Nat.isValidChar]
    omega
  rw [unitsOf, code, if_pos bound]

theorem ofUnitsFrom_eq_some {units : List Nat} {decoded text : List Char}
    (bound : ∀ unit ∈ units, unit < 0x10000) (spelt : ofUnitsFrom units decoded = some text) :
    ∃ rest, text = decoded.reverse ++ rest ∧ units = rest.flatMap unitsOf := by
  fun_induction ofUnitsFrom units decoded with
  | case1 decoded =>
    cases spelt
    exact ⟨[], by simp, rfl⟩
  | case2 code decoded high low rest isLow ih =>
    have others : ∀ unit ∈ rest, unit < 0x10000 := fun unit member =>
      bound unit (List.mem_cons_of_mem _ (List.mem_cons_of_mem _ member))
    rcases ih others spelt with ⟨chars, rfl, rfl⟩
    exact ⟨join code low :: chars, by simp, by rw [List.flatMap_cons, unitsOf_join high isLow]; rfl⟩
  | case3 | case4 | case5 => cases spelt
  | case6 code rest decoded high low ih =>
    rcases ih (fun unit member => bound unit (List.mem_cons_of_mem _ member)) spelt with ⟨chars, rfl, rfl⟩
    have first : code < 0x10000 := bound code List.mem_cons_self
    exact ⟨Char.ofNat code :: chars, by simp, by rw [List.flatMap_cons, unitsOf_ofNat first high low]; rfl⟩

end Modified

theorem Modified.eq_of_ofUnits? {units : List Nat} {text : List Char}
    (bound : ∀ unit ∈ units, unit < 0x10000) (spelt : ofUnits? units = some text) : units = text.flatMap unitsOf := by
  rcases ofUnitsFrom_eq_some bound spelt with ⟨rest, rfl, same⟩
  simpa using same

theorem Modified.eq_of_units? {bytes : Bytes} {text : List Char}
    (decoded : (units? bytes).bind ofUnits? = some text) : bytes = encode text := by
  rcases Option.bind_eq_some_iff.mp decoded with ⟨units, all, spelt⟩
  rcases Modified.spells.eq_flatMap (map_some_of_mapM all) with ⟨bound, same⟩
  rw [same, encode, ← eq_of_ofUnits? bound spelt]

end Decoding

section Encoding

theorem Multibyte.scan_four {form? : UInt8 → Option Form} {first : UInt8} {lead k m n : Nat} {range : Range}
    (rest : Bytes) (known : form? first = some ⟨lead, [range, continuation, continuation]⟩)
    (low : range.1.toNat ≤ 0x80 + k) (high : 0x80 + k ≤ range.2.toNat) (second : k < 64) (third : m < 64)
    (small : n < 64) :
    scan form? (first :: .ofNat (0x80 + k) :: .ofNat (0x80 + m) :: .ofNat (0x80 + n) :: rest) =
      some (((lead * 64 + k) * 64 + m) * 64 + n) :: scan form? rest := by
  have filled : complete lead [range, continuation, continuation]
      (.ofNat (0x80 + k) :: .ofNat (0x80 + m) :: .ofNat (0x80 + n) :: rest) =
        (some (((lead * 64 + k) * 64 + m) * 64 + n), rest) := by
    rw [complete_cons low high second, complete_continuation third, complete_continuation small, complete]
  simp only [scan_cons, next, known, filled]

/-- The second of four bytes has fewer values at both ends. -/
theorem Utf8.form?_four {number : Nat} (beyond : 0x10000 ≤ number) (bound : number < 0x110000) :
    ∃ range : Range, form? (.ofNat (0xf0 + number / 262144)) =
        some ⟨number / 262144, [range, continuation, continuation]⟩ ∧
      range.1.toNat ≤ 0x80 + number / 4096 % 64 ∧ 0x80 + number / 4096 % 64 ≤ range.2.toNat := by
  have five : number / 262144 = 0 ∨ number / 262144 = 4 ∨ number / 262144 = 1 ∨ number / 262144 = 2 ∨
      number / 262144 = 3 := by omega
  rcases five with lead | lead | lead
  · refine ⟨(0x90, 0xbf), by rw [lead]; rfl, ?_, ?_⟩
    · change 0x90 ≤ _
      omega
    · change _ ≤ 0xbf
      omega
  · refine ⟨(0x80, 0x8f), by rw [lead]; rfl, Nat.le_add_right _ _, ?_⟩
    change _ ≤ 0x8f
    omega
  · have known : form? (.ofNat (0xf0 + number / 262144)) =
        some ⟨number / 262144, [continuation, continuation, continuation]⟩ := by
      rcases lead with lead | lead | lead <;> rw [lead] <;> rfl
    refine ⟨continuation, known, Nat.le_add_right _ _, ?_⟩
    change _ ≤ 0xbf
    omega

theorem Utf8.scan_encodeNumber {number : Nat} (valid : number.isValidChar) (rest : Bytes) :
    scan form? (encodeNumber number ++ rest) = some number :: scan form? rest := by
  by_cases zero : number = 0
  · subst zero
    exact scan_one rfl
  by_cases first : number < 0x10000
  · have plain : Modified.Plain number := by
      rw [Nat.isValidChar] at valid
      exact ⟨zero, by omega, first⟩
    rw [← Modified.encodeUnit_eq zero first]
    exact Modified.utf8_scan_encodeUnit plain rest
  · have bound : number < 0x110000 := by
      rw [Nat.isValidChar] at valid
      omega
    rcases form?_four (by omega) bound with ⟨range, known, low, high⟩
    have value : ((number / 262144 * 64 + number / 4096 % 64) * 64 + number / 64 % 64) * 64 + number % 64 =
        number := by omega
    have read := scan_four rest known low high (by omega) (show number / 64 % 64 < 64 by omega)
      (show number % 64 < 64 by omega)
    rw [value] at read
    rw [encodeNumber, if_neg (by omega), if_neg (by omega), if_neg first]
    exact read

theorem Utf8.decode?_encode (text : List Char) : decode? (text.flatMap String.utf8EncodeChar) = some text := by
  have scanned : scan form? (text.flatMap String.utf8EncodeChar) = (text.map Char.toNat).map some := by
    induction text with
    | nil => exact scan_nil form?
    | cons char rest ih =>
      have valid : char.toNat.isValidChar := char.valid
      rw [List.flatMap_cons, ← encodeNumber_toNat, scan_encodeNumber valid, ih]
      rfl
  have chars : Char.ofNat ∘ Char.toNat = id := funext Char.ofNat_toNat
  rw [decode?, scanned, Modified.mapM_id_some, Option.map_some, List.map_map, chars, List.map_id]

/-- Bytes are decoded to the text that they encode in either way, and others are not decoded. -/
theorem Modified.decode?_eq_some {bytes : Bytes} {text : List Char} :
    decode? bytes = some text ↔ bytes = text.flatMap String.utf8EncodeChar ∨ bytes = encode text := by
  constructor
  · intro decoded
    rw [decode?] at decoded
    split at decoded
    next standard =>
      cases decoded
      exact .inl (Utf8.eq_of_decode? standard)
    next => exact .inr (eq_of_units? decoded)
  · rintro (rfl | rfl)
    · rw [decode?, Utf8.decode?_encode]
    · exact decode?_encode text

end Encoding

section Lengths

namespace Modified

theorem encode_cons (char : Char) (rest : List Char) :
    encode (char :: rest) = (unitsOf char).flatMap encodeUnit ++ encode rest := by
  simp [encode]

/-- A surrogate takes three bytes. -/
theorem length_encodeUnit {unit : Nat} (large : 0x800 ≤ unit) : (encodeUnit unit).length = 3 := by
  rw [encodeUnit, if_neg (by omega), if_neg (by omega), if_neg (by omega)]
  rfl

theorem encodeChar_eq_or_longer (char : Char) :
    (unitsOf char).flatMap encodeUnit = String.utf8EncodeChar char ∨
      (String.utf8EncodeChar char).length < ((unitsOf char).flatMap encodeUnit).length := by
  rw [← Utf8.encodeNumber_toNat]
  by_cases first : char.toNat < 0x10000
  · rw [unitsOf, if_pos first, List.flatMap_singleton]
    by_cases zero : char.toNat = 0
    · rw [zero]
      exact .inr (by decide)
    · exact .inl (encodeUnit_eq zero first)
  · have four : (Utf8.encodeNumber char.toNat).length = 4 := by
      rw [Utf8.encodeNumber, if_neg (by omega), if_neg (by omega), if_neg first]
      rfl
    have six : ((unitsOf char).flatMap encodeUnit).length = 6 := by
      rw [unitsOf, if_neg first, List.flatMap_cons, List.flatMap_singleton, List.length_append,
        length_encodeUnit (by omega), length_encodeUnit (by omega)]
    exact .inr (by omega)

theorem encode_eq_or_longer (text : List Char) :
    encode text = text.flatMap String.utf8EncodeChar ∨
      (text.flatMap String.utf8EncodeChar).length < (encode text).length := by
  induction text with
  | nil => exact .inl rfl
  | cons char rest ih =>
    rw [encode_cons, List.flatMap_cons, List.length_append, List.length_append]
    rcases encodeChar_eq_or_longer char with same | longer <;> rcases ih with alike | more
    · exact .inl (by rw [same, alike])
    · exact .inr (by rw [same]; omega)
    · exact .inr (by rw [alike]; omega)
    · exact .inr (by omega)

/-- Which of its two encodings a text was read from shows in how long it is. -/
theorem eq_of_decode? {one two : Bytes} {text : List Char} (read : decode? one = some text)
    (also : decode? two = some text) (sized : one.length = two.length) : one = two := by
  rcases decode?_eq_some.mp read with rfl | rfl <;> rcases decode?_eq_some.mp also with rfl | rfl
  · rfl
  · rcases encode_eq_or_longer text with same | longer
    · exact same.symm
    · omega
  · rcases encode_eq_or_longer text with same | longer
    · exact same
    · omega
  · rfl

end Modified

end Lengths

end ClassFormat.Text
