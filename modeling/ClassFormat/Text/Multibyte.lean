import ClassFormat.Word

/-! Encodings in which the first byte of a character announces how many bytes follow and
in which ranges they lie. All of UTF-8 and modified UTF-8 that differs between the two
is in those announcements. -/
namespace ClassFormat.Text.Multibyte

/-- The lowest and the highest byte allowed. -/
abbrev Range := UInt8 × UInt8

/-- Every byte that begins with the bits `10`. -/
def continuation : Range := (0x80, 0xbf)

def Range.contains (range : Range) (byte : UInt8) : Bool := range.1 ≤ byte && byte ≤ range.2

/-- The bits that the first byte contributes and the ranges of those that follow. -/
structure Form where
  lead : Nat
  follow : List Range

/-- Collects the bytes that were announced, each contributing its six low bits. If one is
missing, what was read so far counts as one broken part and reading goes on after it. -/
def complete : Nat → List Range → Bytes → Option Nat × Bytes
  | value, [], rest => (some value, rest)
  | _, _ :: _, [] => (none, [])
  | value, range :: ranges, byte :: rest =>
    if range.contains byte then complete (value * 64 + byte.toNat % 64) ranges rest
    else (none, byte :: rest)

theorem length_complete_le (value : Nat) (ranges : List Range) (bytes : Bytes) :
    (complete value ranges bytes).2.length ≤ bytes.length := by
  induction ranges generalizing value bytes with
  | nil => simp [complete]
  | cons range ranges ih =>
    cases bytes with
    | nil => simp [complete]
    | cons byte rest =>
      simp only [complete]
      split
      · exact Nat.le_succ_of_le (ih _ rest)
      · exact Nat.le_refl _

/-- The first number, or `none` for a broken part, and what is left. -/
def next (form? : UInt8 → Option Form) (first : UInt8) (rest : Bytes) : Option Nat × Bytes :=
  match form? first with
  | some form => complete form.lead form.follow rest
  | none => (none, rest)

theorem length_next_le (form? : UInt8 → Option Form) (first : UInt8) (rest : Bytes) :
    (next form? first rest).2.length ≤ rest.length := by
  unfold next
  split
  · exact length_complete_le _ _ _
  · exact Nat.le_refl _

def scanFrom (form? : UInt8 → Option Form) (numbers : List (Option Nat)) :
    Bytes → List (Option Nat)
  | [] => numbers.reverse
  | first :: rest =>
    let part := next form? first rest
    scanFrom form? (part.1 :: numbers) part.2
termination_by bytes => bytes.length
decreasing_by exact Nat.lt_succ_of_le (length_next_le _ _ _)

/-- The numbers that the bytes encode, in order, with `none` for each broken part. -/
def scan (form? : UInt8 → Option Form) (bytes : Bytes) : List (Option Nat) :=
  scanFrom form? [] bytes

end ClassFormat.Text.Multibyte
