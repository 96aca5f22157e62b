import ClassFormat.Proofs.Described
import ClassFormat.Proofs.Stepwise

/-! What a cursor answers, whatever it has been asked before. A request that is granted passes exactly the
bytes it gives; one that is refused passes none or, where a word was asked for, all that are left. -/
namespace ClassFormat.Cursor

/-- What can be asked of a cursor: a word of some width, or a run of bytes to be given or to be skipped. -/
inductive Request : Type 1 where
  | word {κ : Type} (width : Word κ)
  | take (n : Nat)
  | skip (n : Nat)

namespace Request

/-- How many bytes are asked for. -/
def size : Request → Nat
  | word width => width.width
  | take n | skip n => n

/-- The cursor after the request, granted or not. -/
def after : Request → Cursor → Cursor
  | word width, cursor => (@Cursor.read _ width cursor).2
  | take n, cursor => (cursor.take n).2
  | skip n, cursor => (cursor.skip n).2

def Granted : Request → Cursor → Prop
  | word width, cursor => (@Cursor.read _ width cursor).1.isOk
  | take n, cursor => (cursor.take n).1.isOk
  | skip n, cursor => (cursor.skip n).1.isOk

end Request

/-- One request after the other, those that are refused included. -/
def serve : List Request → Cursor → Cursor
  | [], cursor => cursor
  | request :: later, cursor => serve later (request.after cursor)

/-- A cursor over `bytes`, which lie at `base`. -/
structure Over (base : Nat) (bytes : Bytes) (cursor : Cursor) : Prop where
  base : cursor.base = base
  inside : cursor.position ≤ bytes.length
  rest : cursor.rest = bytes.drop cursor.position

section Requests

variable {base n : Nat} {bytes : Bytes} {cursor : Cursor} {request : Request}

/-! ### One request -/

section Outcomes

variable {κ : Type} [Word κ]

theorem read_of_le (enough : Word.width κ ≤ cursor.remaining) : cursor.read (α := κ) =
    (.ok ⟨Word.ofBytes (cursor.rest.take (Word.width κ)), cursor.offset⟩, cursor.advance (Word.width κ)) := by
  simp only [read, peek?_of_le enough]

theorem read_of_lt (few : cursor.remaining < Word.width κ) :
    cursor.read (α := κ) = (.error .endOfInput, cursor.advance cursor.remaining) := by
  simp only [read, peek?_of_lt few]

theorem take_of_le (enough : n ≤ cursor.remaining) :
    cursor.take n = (.ok (cursor.rest.take n), cursor.advance n) := by
  simp only [take, peek?_of_le enough]

theorem take_of_lt (few : cursor.remaining < n) :
    cursor.take n = (.error (.tooFewBytes n cursor.offset cursor.remaining), cursor) := by
  simp only [take, peek?_of_lt few]

theorem skip_of_le (enough : n ≤ cursor.remaining) : cursor.skip n = (.ok (), cursor.advance n) := by
  simp only [skip, take_of_le (n := n) enough, Except.map]

theorem skip_of_lt (few : cursor.remaining < n) :
    cursor.skip n = (.error (.tooFewBytes n cursor.offset cursor.remaining), cursor) := by
  simp only [skip, take_of_lt few, Except.map]

end Outcomes

namespace Request

/-- A request is granted if there are enough bytes, of whatever kind it is. -/
theorem granted_iff : request.Granted cursor ↔ request.size ≤ cursor.remaining := by
  by_cases enough : request.size ≤ cursor.remaining
  · cases request with
    | word width => simp [Granted, read_of_le enough, Except.isOk, Except.toBool, enough]
    | take n => simp [Granted, take_of_le (n := n) enough, Except.isOk, Except.toBool, enough]
    | skip n => simp [Granted, skip_of_le (n := n) enough, Except.isOk, Except.toBool, enough]
  · have few := Nat.lt_of_not_le enough
    cases request with
    | word width => simp [Granted, read_of_lt few, Except.isOk, Except.toBool, enough]
    | take n => simp [Granted, take_of_lt (n := n) few, Except.isOk, Except.toBool, enough]
    | skip n => simp [Granted, skip_of_lt (n := n) few, Except.isOk, Except.toBool, enough]

theorem after_of_le (enough : request.size ≤ cursor.remaining) :
    request.after cursor = cursor.advance request.size := by
  cases request with
  | word width => simp only [after, read_of_le enough, size]
  | take n => simp only [after, take_of_le (n := n) enough, size]
  | skip n => simp only [after, skip_of_le (n := n) enough, size]

/-- Only a word that does not fit moves a cursor on which too few bytes are left. -/
theorem after_of_lt (few : cursor.remaining < request.size) :
    request.after cursor = cursor.advance cursor.remaining ∨ request.after cursor = cursor := by
  cases request with
  | word width => exact .inl (by simp only [after, read_of_lt few])
  | take n => exact .inr (by simp only [after, take_of_lt (n := n) few])
  | skip n => exact .inr (by simp only [after, skip_of_lt (n := n) few])

/-- Whatever is asked, a cursor only goes on, and not beyond what is left. -/
theorem exists_advance (request : Request) (cursor : Cursor) :
    ∃ n, n ≤ cursor.remaining ∧ request.after cursor = cursor.advance n := by
  by_cases enough : request.size ≤ cursor.remaining
  · exact ⟨request.size, enough, after_of_le enough⟩
  · rcases after_of_lt (Nat.lt_of_not_le enough) with moved | stays
    · exact ⟨cursor.remaining, Nat.le_refl _, moved⟩
    · exact ⟨0, Nat.zero_le _, stays⟩

end Request

/-! ### Runs of requests -/

theorem startingAt_over (base : Nat) (bytes : Bytes) : (startingAt base bytes).Over base bytes :=
  ⟨rfl, Nat.zero_le _, rfl⟩

namespace Over

variable (lies : cursor.Over base bytes)
include lies

theorem remaining : cursor.remaining = bytes.length - cursor.position := by
  simp [Cursor.remaining, lies.rest]

theorem advance (enough : n ≤ cursor.remaining) : (cursor.advance n).Over base bytes where
  base := lies.base
  inside := by
    have left := lies.remaining
    have inside := lies.inside
    simp only [Cursor.advance]
    omega
  rest := by simp [Cursor.advance, lies.rest]

theorem after (request : Request) : (request.after cursor).Over base bytes := by
  obtain ⟨n, enough, moved⟩ := request.exists_advance cursor
  rw [moved]
  exact lies.advance enough

theorem serve (requests : List Request) : (serve requests cursor).Over base bytes := by
  induction requests generalizing cursor with
  | nil => exact lies
  | cons request later ih => exact ih (lies.after request)

end Over

/-- Where nothing is left nothing is ever granted again, but for requests that ask for nothing. -/
theorem remaining_serve (requests : List Request) (empty : cursor.remaining = 0) :
    (serve requests cursor).remaining = 0 := by
  induction requests generalizing cursor with
  | nil => exact empty
  | cons request later ih =>
    obtain ⟨n, enough, moved⟩ := request.exists_advance cursor
    apply ih
    rw [moved]
    simp only [remaining, Cursor.advance, List.length_drop] at empty ⊢
    omega

/-- What holds of a cursor over `bytes` that lie at `base`, and of the next request that is made of it. -/
structure Accounts (base : Nat) (bytes : Bytes) (cursor : Cursor) : Prop where
  inside : cursor.position ≤ bytes.length
  whole : cursor.position + cursor.remaining = bytes.length
  empty : cursor.isEmpty = true ↔ cursor.remaining = 0
  place : cursor.offset = base + cursor.position
  onward : ∀ request : Request, cursor.position ≤ (request.after cursor).position
  /-- A word has the value of the next bytes, the first of which carries the most weight. -/
  word : ∀ {κ : Type} [Word κ] (scalar : Scalar κ) (after : Cursor), cursor.read = (.ok scalar, after) →
    Word.toNat scalar.value = Bytes.toNat ((bytes.drop cursor.position).take (Word.width κ)) ∧
      scalar.offset = cursor.offset ∧ scalar.stop = after.offset
  signed : ∀ (scalar : Scalar Int32) (after : Cursor), cursor.read = (.ok scalar, after) →
    scalar.value.toInt = (Bytes.toNat ((bytes.drop cursor.position).take 4) : Int).bmod (Nat.pow 256 4)
  signedLong : ∀ (scalar : Scalar Int64) (after : Cursor), cursor.read = (.ok scalar, after) →
    scalar.value.toInt = (Bytes.toNat ((bytes.drop cursor.position).take 8) : Int).bmod (Nat.pow 256 8)
  wordRefused : ∀ {κ : Type} [Word κ], (∃ cause, (cursor.read (α := κ)).1 = .error cause) ↔
    cursor.remaining < Word.width κ
  /-- After a word that did not fit nothing is granted but requests for no bytes at all. -/
  exhausted : ∀ {κ : Type} [Word κ] (cause : Error) (after : Cursor),
    cursor.read (α := κ) = (.error cause, after) → after.position = bytes.length ∧
      ∀ requests (request : Request), 0 < request.size → ¬ request.Granted (serve requests after)
  taken : ∀ n given after, cursor.take n = (.ok given, after) → given.length = n ∧
    given = (bytes.drop cursor.position).take n ∧ after.position = cursor.position + n
  takeRefused : ∀ n, (∃ cause, (cursor.take n).1 = .error cause) ↔ cursor.remaining < n
  skipped : ∀ n after, cursor.skip n = (.ok (), after) → after.position = cursor.position + n
  skipRefused : ∀ n, (∃ cause, (cursor.skip n).1 = .error cause) ↔ cursor.remaining < n
  /-- Bytes that are not all there are left where they are. -/
  untouched : ∀ n cause after,
    cursor.take n = (.error cause, after) ∨ cursor.skip n = (.error cause, after) → after = cursor

namespace Over

variable (lies : cursor.Over base bytes)
include lies

theorem word {κ : Type} [Word κ] {scalar : Scalar κ} {after : Cursor}
    (run : cursor.read = (.ok scalar, after)) :
    Word.toBytes scalar.value = (bytes.drop cursor.position).take (Word.width κ) ∧
      scalar.offset = cursor.offset ∧ scalar.stop = after.offset := by
  obtain ⟨place, passed⟩ := read_eq_ok.mp run
  refine ⟨?_, place, ?_⟩
  · rw [← lies.rest, passed.rest, ← Word.length_toBytes scalar.value]
    simp
  · simp [Scalar.stop, Scalar.width, place, passed.offset]

theorem exhausted_word {κ : Type} [Word κ] {cause : Error} {after : Cursor}
    (run : cursor.read (α := κ) = (.error cause, after)) :
    after.position = bytes.length ∧ after.remaining = 0 := by
  by_cases enough : Word.width κ ≤ cursor.remaining
  · simp [read_of_le enough] at run
  · simp only [read_of_lt (Nat.lt_of_not_le enough), Prod.mk.injEq] at run
    obtain ⟨-, rfl⟩ := run
    have left := lies.remaining
    have inside := lies.inside
    simp only [Cursor.advance, Cursor.remaining, List.length_drop] at left ⊢
    omega

theorem accounts : cursor.Accounts base bytes where
  inside := lies.inside
  whole := by
    have left := lies.remaining
    have inside := lies.inside
    omega
  empty := by simp [isEmpty, Cursor.remaining]
  place := by rw [offset, lies.base]
  onward request := by
    obtain ⟨n, -, moved⟩ := request.exists_advance cursor
    rw [moved]
    exact Nat.le_add_right _ _
  word scalar after run := by
    obtain ⟨spelt, place, stop⟩ := lies.word run
    exact ⟨by rw [← spelt, Word.toNat_toBytes], place, stop⟩
  signed scalar after run := by
    rw [int32_toInt, (lies.word run).1]
    rfl
  signedLong scalar after run := by
    rw [int64_toInt, (lies.word run).1]
    rfl
  wordRefused {κ _} := by
    by_cases enough : Word.width κ ≤ cursor.remaining
    · simp [read_of_le enough, enough]
    · have few := Nat.lt_of_not_le enough
      simp [read_of_lt few, few]
  exhausted cause after run := by
    obtain ⟨atEnd, empty⟩ := lies.exhausted_word run
    refine ⟨atEnd, fun requests request some granted => ?_⟩
    have enough := Request.granted_iff.mp granted
    rw [remaining_serve requests empty] at enough
    omega
  taken n given after run := by
    obtain ⟨size, passed⟩ := take_eq_ok.mp run
    refine ⟨size, ?_, by rw [passed.position, size]⟩
    rw [← lies.rest, passed.rest, ← size]
    simp
  takeRefused n := by
    by_cases enough : n ≤ cursor.remaining
    · simp [take_of_le enough, enough]
    · have few := Nat.lt_of_not_le enough
      simp [take_of_lt few, few]
  skipped n after run := by
    obtain ⟨passed, rfl, moved⟩ := skip_eq_ok.mp run
    exact moved.position
  skipRefused n := by
    by_cases enough : n ≤ cursor.remaining
    · simp [skip_of_le enough, enough]
    · have few := Nat.lt_of_not_le enough
      simp [skip_of_lt few, few]
  untouched n cause after run := by
    by_cases enough : n ≤ cursor.remaining
    · simp [take_of_le enough, skip_of_le enough] at run
    · have few := Nat.lt_of_not_le enough
      simp only [take_of_lt few, skip_of_lt few, Prod.mk.injEq] at run
      rcases run with ⟨-, rfl⟩ | ⟨-, rfl⟩ <;> rfl

end Over

/-- Whatever is asked of a cursor, and in whatever order, what it has passed and what is left add up. -/
theorem serve_accounts (base : Nat) (bytes : Bytes) (requests : List Request) :
    (serve requests (startingAt base bytes)).Accounts base bytes :=
  ((startingAt_over base bytes).serve requests).accounts

end Requests
end ClassFormat.Cursor
