import ClassFormat.Proofs.Stepwise

/-! The limit on nesting. It is compared with a decoder that has more levels left, by the levels
that one opens and closes: up to the first level beyond the limit the two run alike. -/
namespace ClassFormat

namespace Event

/-- How many levels are open behind an event. -/
def step (levels : Nat) : Event → Nat
  | opened _ => levels + 1
  | closed => levels - 1
  | _ => levels

/-- The largest number of levels that are open at once, where some are open before. -/
def deepest : Nat → List Event → Nat
  | levels, [] => levels
  | levels, event :: rest => max levels (deepest (step levels event) rest)

/-- Where a level beyond the limit is first opened. -/
def firstBeyond? (limit : Nat) : Nat → List Event → Option Nat
  | _, [] => none
  | levels, opened offset :: rest =>
    if limit ≤ levels then some offset else firstBeyond? limit (levels + 1) rest
  | levels, event :: rest => firstBeyond? limit (step levels event) rest

theorem le_deepest (levels : Nat) (events : List Event) : levels ≤ deepest levels events := by
  cases events with
  | nil => exact Nat.le_refl levels
  | cons event rest => exact Nat.le_max_left _ _

theorem deepest_cons_le {limit levels : Nat} {event : Event} {rest : List Event}
    (within : levels ≤ limit) :
    deepest levels (event :: rest) ≤ limit ↔ deepest (step levels event) rest ≤ limit := by
  rw [deepest, Nat.max_le, and_iff_right within]

theorem firstBeyond?_eq_none {limit levels : Nat} {events : List Event} (within : levels ≤ limit) :
    firstBeyond? limit levels events = none ↔ deepest levels events ≤ limit := by
  induction events generalizing levels with
  | nil => simpa [firstBeyond?, deepest] using within
  | cons event rest ih =>
    rw [deepest_cons_le within]
    cases event with
    | opened offset =>
      by_cases last : limit ≤ levels
      · have beyond := le_deepest (levels + 1) rest
        simp only [firstBeyond?, last, ↓reduceIte, step, reduceCtorEq, false_iff]
        omega
      · simp only [firstBeyond?, last, ↓reduceIte, step]
        exact ih (by omega)
    | closed => exact ih (by simp only [step]; omega)
    | _ => exact ih within

theorem firstBeyond?_append (limit levels : Nat) (before after : List Event) :
    firstBeyond? limit levels (before ++ after) = (firstBeyond? limit levels before).or
      (firstBeyond? limit (before.foldl step levels) after) := by
  induction before generalizing levels with
  | nil => rfl
  | cons event rest ih =>
    cases event with
    | opened offset =>
      by_cases last : limit ≤ levels
      · simp [firstBeyond?, last]
      · simpa [firstBeyond?, last, step] using ih (levels + 1)
    | _ => simpa [firstBeyond?, step] using ih _

end Event

namespace Decoder

/-- How the result of a run that is cut off compares with that of one that is not, which recorded
`later`. -/
inductive Cut (limit levels : Nat) (later : List Event) :
    EStateM.Result Error State α → EStateM.Result Error State α → Prop where
  | same (result : EStateM.Result Error State α) : Event.firstBeyond? limit levels later = none →
    later.foldl Event.step levels = levels → Cut limit levels later result result
  | stopped (offset : Nat) (after : State) (result : EStateM.Result Error State α) :
    Event.firstBeyond? limit levels later = some offset →
    Cut limit levels later (.error (.tooDeep limit offset) after) result

/-- Whether the first decoder is the other one cut off at `limit` levels, where some are open. -/
def CutOff (limit levels : Nat) (first other : Decoder α) : Prop :=
  ∀ s, ∃ later, (other.reached s).trace.toList = s.trace.toList ++ later ∧
    Cut limit levels later (first s) (other s)

variable {limit levels : Nat}

theorem cutOff_onCursor (step : Cursor → Except Error α × Cursor) :
    CutOff limit levels (onCursor step) (onCursor step) := by
  intro s
  refine ⟨[], ?_, .same _ rfl rfl⟩
  rw [reached_onCursor, List.append_nil]

theorem CutOff.bind {first other : Decoder α} {next further : α → Decoder β}
    (starts : CutOff limit levels first other)
    (goes : ∀ value, CutOff limit levels (next value) (further value)) :
    CutOff limit levels (first >>= next) (other >>= further) := by
  intro s
  obtain ⟨early, recorded, head⟩ := starts s
  cases run : other s with
  | error cause after =>
    rw [run] at head
    rw [reached_of_error run] at recorded
    rw [reached_of_error (bind_of_error run), bind_of_error run]
    refine ⟨early, recorded, ?_⟩
    generalize one : first s = result at head
    cases head with
    | same _ none balanced =>
      rw [bind_of_error one]
      exact .same _ none balanced
    | stopped offset reached _ found =>
      rw [bind_of_error one]
      exact .stopped offset reached _ found
  | ok value after =>
    rw [run] at head
    rw [reached_of_ok run] at recorded
    rw [reached_bind_of_ok run, bind_of_ok run]
    obtain ⟨late, more, tail⟩ := goes value after
    have beyond := Event.firstBeyond?_append limit levels early late
    refine ⟨early ++ late, by rw [more, recorded, List.append_assoc], ?_⟩
    generalize one : first s = result at head
    cases head with
    | same _ none balanced =>
      rw [none, balanced, Option.none_or] at beyond
      rw [bind_of_ok one]
      generalize next value after = one at tail ⊢
      generalize further value after = two at tail ⊢
      cases tail with
      | same _ noneLater kept =>
        exact .same _ (beyond.trans noneLater) (by rw [List.foldl_append, balanced, kept])
      | stopped offset reached _ found => exact .stopped offset reached _ (beyond.trans found)
    | stopped offset reached _ found =>
      rw [bind_of_error one]
      exact .stopped offset reached _ (by rw [beyond, found, Option.some_or])

theorem cutOff_steps (limit levels : Nat) : Stepwise fun _ => CutOff limit levels where
  pure value s := ⟨[], (List.append_nil _).symm, .same _ rfl rfl⟩
  throw _ cause _ s := ⟨[], (List.append_nil _).symm, .same _ rfl rfl⟩
  bind := CutOff.bind
  read := cutOff_onCursor _
  take n := cutOff_onCursor _
  skip n := cutOff_onCursor _
  offset s := ⟨[], (List.append_nil _).symm, .same _ rfl rfl⟩
  record event plain s := by
    refine ⟨[event], Array.toList_push, .same _ ?_ ?_⟩
    · cases event <;> first | rfl | cases plain
    · cases event <;> first | rfl | cases plain

/-- A level that the limit allows is opened by both. -/
theorem CutOff.nested {first other : Decoder α} (inner : CutOff limit (levels + 1) first other)
    (room : levels < limit) : CutOff limit levels (Decoder.nested first) (Decoder.nested other) := by
  intro s
  obtain ⟨later, recorded, cut⟩ := inner s.opened
  have beyond : Event.firstBeyond? limit levels (.opened s.cursor.offset :: (later ++ [.closed])) =
      Event.firstBeyond? limit (levels + 1) later := by
    rw [Event.firstBeyond?, if_neg (by omega), Event.firstBeyond?_append]
    exact Option.or_none
  refine ⟨_, nested_trace recorded, ?_⟩
  rw [nested_apply, nested_apply]
  generalize first s.opened = one at cut ⊢
  generalize other s.opened = two at cut ⊢
  cases cut with
  | same result none balanced =>
    refine .same _ (beyond.trans none) ?_
    simp only [List.foldl_cons, List.foldl_append, Event.step, balanced, List.foldl_nil]
    omega
  | stopped offset after result found => exact .stopped offset _ _ (beyond.trans found)

/-- The first level beyond the limit is where the one stops and the other goes on. -/
theorem cutOff_tooDeep (pool : Pool) {other : Decoder α} (forward : other.Forward) :
    CutOff limit limit ((Layout.tooDeep limit).decode pool) (Decoder.nested other) := by
  intro s
  obtain ⟨-, later, recorded⟩ := forward s.opened
  have beyond : Event.firstBeyond? limit limit (.opened s.cursor.offset :: (later ++ [.closed])) =
      some s.cursor.offset := by
    rw [Event.firstBeyond?, if_pos (Nat.le_refl limit)]
  exact ⟨_, nested_trace recorded, .stopped s.cursor.offset s _ beyond⟩

section Layouts

variable (pool : Pool) (other extra : Nat)

theorem cutOff_element (n : Nat) (enough : levels + n = limit) :
    CutOff limit levels ((Element.layout limit n).decode pool)
      ((Element.layout other (n + extra + 1)).decode pool) := by
  have steps := cutOff_steps limit
  induction n generalizing levels with
  | zero =>
    obtain rfl : levels = limit := enough
    have below := forward_of_plain pool (Element.layout_plain other (0 + extra))
    have inner := forward_of_plain pool
      ( Annotation.layoutWith_plain (Element.layout_plain other (0 + extra)))
    exact (steps levels).as _ <| (steps levels).tagged (fun _ _ => rfl) <|
      (steps levels).element (cutOff_tooDeep pool inner) (cutOff_tooDeep pool below)
  | succ n ih =>
    have below := ih (by omega : levels + 1 + n = limit)
    rw [show n + 1 + extra = n + extra + 1 by omega]
    have inner := ((steps (levels + 1)).annotationOf below).nested (by omega : levels < limit)
    exact (steps levels).as _ <| (steps levels).tagged (fun _ _ => rfl) <|
      (steps levels).element inner (below.nested (by omega))

theorem cutOff_table (n : Nat) (enough : levels + n = limit) :
    CutOff limit levels ((Table.layout limit n).decode pool)
      ((Table.layout other (n + extra + 1)).decode pool) := by
  have steps := cutOff_steps limit
  induction n generalizing levels with
  | zero =>
    obtain rfl : levels = limit := enough
    have values := cutOff_element pool other extra 0 (Nat.add_zero levels)
    have below := forward_of_plain pool (Table.layout_plain other (0 + extra))
    exact (steps levels).table <| (steps levels).decodeEntry pool <|
      (steps levels).payload values (cutOff_tooDeep pool below)
  | succ n ih =>
    have values := cutOff_element pool other extra (n + 1) enough
    have below := (ih (by omega : levels + 1 + n = limit)).nested (by omega)
    rw [show n + 1 + extra = n + extra + 1 by omega] at values ⊢
    exact (steps levels).table <| (steps levels).decodeEntry pool <|
      (steps levels).payload values below

end Layouts

/-- Whether two decoders do the same where no more than `n` bytes are left, and are not stopped by a
limit there. -/
def Ample (n : Nat) (first other : Decoder α) : Prop :=
  ∀ s, s.cursor.remaining ≤ n → first s = other s ∧
    (first.reached s).cursor.remaining ≤ s.cursor.remaining ∧
      ∀ limit offset after, first s ≠ .error (.tooDeep limit offset) after

variable {n : Nat}

theorem Ample.mono {m : Nat} {first other : Decoder α} (ample : Ample n first other) (fewer : m ≤ n) :
    Ample m first other :=
  fun s few => ample s (Nat.le_trans few fewer)

theorem ample_onCursor {step : Cursor → Except Error α × Cursor} (forward : (onCursor step).Forward)
    (here : ∀ cursor, LocalFailure (step cursor).1) : Ample n (onCursor step) (onCursor step) := by
  intro s _
  obtain ⟨⟨bytes, passed⟩, -⟩ := forward s
  refine ⟨rfl, passed.remaining_le, fun limit offset after failed => ?_⟩
  have failure := here s.cursor
  unfold onCursor at failed
  generalize step s.cursor = result at failed failure
  rcases result with ⟨cause | value, cursor⟩
  · cases failed
    cases failure _ rfl
  · cases failed

theorem Ample.bind {first other : Decoder α} {next further : α → Decoder β}
    (starts : Ample n first other)
    (goes : ∀ s value after, s.cursor.remaining ≤ n → first s = .ok value after →
      Ample after.cursor.remaining (next value) (further value)) :
    Ample n (first >>= next) (other >>= further) := by
  intro s few
  obtain ⟨same, moved, inside⟩ := starts s few
  cases run : first s with
  | error cause after =>
    rw [run] at inside same
    rw [reached_of_error run] at moved
    rw [reached_of_error (bind_of_error run), bind_of_error run, bind_of_error same.symm]
    refine ⟨rfl, moved, fun limit offset reached failed => ?_⟩
    cases failed
    exact inside limit offset after rfl
  | ok value after =>
    rw [run] at same
    rw [reached_of_ok run] at moved
    rw [reached_bind_of_ok run, bind_of_ok run, bind_of_ok same.symm]
    obtain ⟨alike, further, within⟩ := goes s value after few run after (Nat.le_refl _)
    exact ⟨alike, Nat.le_trans further moved, within⟩

theorem ample_steps (n : Nat) : Stepwise fun _ => Ample n where
  pure value s _ := ⟨rfl, Nat.le_refl _, fun _ _ _ same => by cases same⟩
  throw _ cause here s _ := ⟨rfl, Nat.le_refl _, fun _ _ _ same => by
    cases same
    cases here⟩
  bind {_ _ first _ _ _} starts goes := by
    refine starts.bind fun s value after few run => ?_
    have moved := (starts s few).2.1
    rw [reached_of_ok run] at moved
    exact (goes value).mono (Nat.le_trans moved few)
  read := ample_onCursor forward_steps.read LocalFailure.read
  take size := ample_onCursor (forward_steps.take size) (LocalFailure.take size)
  skip size := ample_onCursor (forward_steps.skip size) (LocalFailure.skip size)
  offset s _ := ⟨rfl, Nat.le_refl _, fun _ _ _ same => by cases same⟩
  record event _ s _ := ⟨rfl, Nat.le_refl _, fun _ _ _ same => by cases same⟩

/-- A word that is read leaves fewer bytes. -/
theorem ample_readThen {κ : Type} [Word κ] {next further : Scalar κ → Decoder α}
    (wide : 0 < Word.width κ)
    (goes : ∀ m < n, ∀ scalar, Ample m (next scalar) (further scalar)) :
    Ample n (Decoder.read >>= next) (Decoder.read >>= further) := by
  refine (ample_steps n).read.bind fun s scalar after few run => ?_
  obtain ⟨bytes, passed, -, spelt⟩ := Reads.read.sound run
  have whole := congrArg List.length passed.rest
  have size : bytes.length = Word.width κ := by
    rw [spelt, Word.length_toBytes]
  refine goes _ ?_ scalar
  unfold Cursor.remaining at few ⊢
  rw [List.length_append] at whole
  omega

theorem Ample.nested {first other : Decoder α} (inner : Ample n first other) :
    Ample n (Decoder.nested first) (Decoder.nested other) := by
  intro s few
  obtain ⟨same, moved, inside⟩ := inner s.opened few
  rw [reached_nested, nested_apply, nested_apply, ← same]
  refine ⟨rfl, moved, fun limit offset after failed => ?_⟩
  obtain ⟨middle, deep⟩ := closing_eq_error failed
  exact inside limit offset middle deep

section Layouts

variable (pool : Pool)

variable {pool} in
/-- The tag of an element value is read before anything is nested. -/
theorem ample_layoutWith {inner one : Layout Annotation} {element other : Layout Element}
    (annotated : ∀ m < n, Ample m (inner.decode pool) (one.decode pool))
    (values : ∀ m < n, Ample m (element.decode pool) (other.decode pool)) :
    Ample n ((Element.layoutWith inner element).decode pool)
      ((Element.layoutWith one other).decode pool) := by
  refine (ample_steps n).as _ ?_
  rw [Layout.decode, Layout.decode]
  refine ample_readThen Nat.one_pos fun m fewer tag => ?_
  have steps := ample_steps m
  split
  next kind known =>
    exact steps.bind (steps.element (annotated m fewer) (values m fewer) kind) fun _ => steps.pure _
  next => exact steps.throw _ _ rfl

variable {pool} in
/-- So is the number of attributes. -/
theorem ample_entries {element other : Layout Element} {attributes others : Layout Table}
    (values : ∀ m < n, Ample m (element.decode pool) (other.decode pool))
    (tables : ∀ m < n, Ample m (attributes.decode pool) (others.decode pool)) :
    Ample n ((Layout.table (.entry (Payload.layout element attributes))).decode pool)
      ((Layout.table (.entry (Payload.layout other others))).decode pool) := by
  refine ample_readThen Nat.two_pos fun m fewer count => ?_
  have steps := ample_steps m
  have entry := steps.decodeEntry pool (steps.payload (values m fewer) (tables m fewer))
  exact steps.bind (steps.decodeEntries entry _ _) fun _ => steps.pure _

/-- With as many levels left as there are bytes it does not matter how many there are. -/
theorem ample_element (n limit other : Nat) {levels more : Nat} (enough : n ≤ levels)
    (also : n ≤ more) :
    Ample n ((Element.layout limit levels).decode pool) ((Element.layout other more).decode pool) := by
  induction n generalizing levels more with
  | zero =>
    cases levels <;> cases more <;>
      exact ample_layoutWith (fun m none => absurd none (Nat.not_lt_zero m)) fun m none =>
        absurd none (Nat.not_lt_zero m)
  | succ n ih =>
    obtain ⟨levels, rfl⟩ := Nat.exists_eq_add_of_le' (Nat.le_trans (Nat.le_add_left 1 n) enough)
    obtain ⟨more, rfl⟩ := Nat.exists_eq_add_of_le' (Nat.le_trans (Nat.le_add_left 1 n) also)
    have below := ih (Nat.le_of_succ_le_succ enough) (Nat.le_of_succ_le_succ also)
    have inner := ((ample_steps n).annotationOf below).nested
    exact ample_layoutWith (fun m fewer => inner.mono (Nat.le_of_lt_succ fewer)) fun m fewer =>
      below.nested.mono (Nat.le_of_lt_succ fewer)

theorem ample_table (n limit other : Nat) {levels more : Nat} (enough : n ≤ levels)
    (also : n ≤ more) :
    Ample n ((Table.layout limit levels).decode pool) ((Table.layout other more).decode pool) := by
  induction n generalizing levels more with
  | zero =>
    cases levels <;> cases more <;>
      exact ample_entries (fun m none => absurd none (Nat.not_lt_zero m)) fun m none =>
        absurd none (Nat.not_lt_zero m)
  | succ n ih =>
    have values := ample_element pool (n + 1) limit other enough also
    obtain ⟨levels, rfl⟩ := Nat.exists_eq_add_of_le' (Nat.le_trans (Nat.le_add_left 1 n) enough)
    obtain ⟨more, rfl⟩ := Nat.exists_eq_add_of_le' (Nat.le_trans (Nat.le_add_left 1 n) also)
    have below := (ih (Nat.le_of_succ_le_succ enough) (Nat.le_of_succ_le_succ also)).nested
    exact ample_entries (fun m fewer => values.mono (Nat.le_of_lt fewer)) fun m fewer =>
      below.mono (Nat.le_of_lt_succ fewer)

end Layouts
end Decoder

namespace ClassFile

open Decoder

theorem finish_trace (file : ClassFile) (s : State) : ∃ later, (later = [] ∨ ∃ version fields methods
    attributes, later = [.classDecoded version fields methods attributes]) ∧
    ((finish file).reached s).trace.toList = s.trace.toList ++ later := by
  obtain ⟨⟨base, position, rest⟩, trace⟩ := s
  cases rest with
  | nil => exact ⟨_, .inr ⟨_, _, _, _, rfl⟩, Array.toList_push⟩
  | cons byte rest => exact ⟨[], .inl rfl, (List.append_nil _).symm⟩

theorem finish_cutOff (limit levels : Nat) (file : ClassFile) :
    CutOff limit levels (finish file) (finish file) := by
  intro s
  obtain ⟨later, plain, recorded⟩ := finish_trace file s
  refine ⟨later, recorded, .same _ ?_ ?_⟩
  · rcases plain with rfl | ⟨_, _, _, _, rfl⟩ <;> rfl
  · rcases plain with rfl | ⟨_, _, _, _, rfl⟩ <;> rfl

/-- A decoder that has more levels is cut off at the limit. -/
theorem decodeWithin_cutOff {limit other : Nat} (more : limit < other) :
    CutOff limit 0 (decodeWithin limit) (decodeWithin other) := by
  obtain ⟨extra, rfl⟩ := Nat.exists_eq_add_of_lt more
  rw [decodeWithin_eq, decodeWithin_eq]
  have steps := cutOff_steps limit 0
  have all := contents_related steps limit (limit + extra + 1) fun pool =>
    steps.body (cutOff_table pool (limit + extra + 1) extra limit (Nat.zero_add limit))
  exact all.bind (finish_cutOff limit 0)

theorem finish_ample (n : Nat) (file : ClassFile) : Ample n (finish file) (finish file) := by
  intro s _
  obtain ⟨⟨base, position, rest⟩, trace⟩ := s
  cases rest with
  | nil => exact ⟨rfl, Nat.le_refl _, fun _ _ _ same => by cases same⟩
  | cons byte rest => exact ⟨rfl, Nat.le_refl _, fun _ _ _ same => by cases same⟩

theorem decodeWithin_ample {n limit other : Nat} (enough : n ≤ limit) (also : n ≤ other) :
    Ample n (decodeWithin limit) (decodeWithin other) := by
  rw [decodeWithin_eq, decodeWithin_eq]
  have steps := ample_steps n
  exact steps.bind (contents_related steps limit other fun pool =>
    steps.body (ample_table pool n limit other enough also)) (finish_ample n)

/-- The decoder of these bytes that no limit stops: every level takes a byte at least. -/
def unlimited (bytes : Bytes) : Decoder ClassFile := decodeWithin bytes.length

def decodeUnlimited (bytes : Bytes) : Except Error ClassFile :=
  match unlimited bytes (start bytes) with
  | .ok file _ => .ok file
  | .error cause _ => .error cause

/-- What is recorded where no limit stops the decoder. -/
def unlimitedEvents (bytes : Bytes) : List Event := ((unlimited bytes).reached (start bytes)).trace.toList

/-- What the limit on nesting changes, and that it changes nothing else. -/
structure Limited (bytes : Bytes) : Prop where
  unlimited : ∀ limit, bytes.length ≤ limit →
    decodeWithin limit (start bytes) = unlimited bytes (start bytes)
  unstopped : ∀ limit offset, decodeUnlimited bytes ≠ .error (.tooDeep limit offset)
  within : Event.deepest 0 (unlimitedEvents bytes) ≤ maxNesting →
    run bytes = ClassFile.unlimited bytes (start bytes) ∧ decode bytes = decodeUnlimited bytes
  /-- The offset is that at which the level beyond the limit would first have been opened. -/
  beyond : maxNesting < Event.deepest 0 (unlimitedEvents bytes) → ∃ offset,
    Event.firstBeyond? maxNesting 0 (unlimitedEvents bytes) = some offset ∧
      decode bytes = .error (.tooDeep maxNesting offset)
  accepted : ∀ file after, run bytes = .ok file after →
    Event.deepest 0 after.trace.toList ≤ maxNesting

theorem decodeWithin_unlimited {bytes : Bytes} {limit : Nat} (enough : bytes.length ≤ limit) :
    decodeWithin limit (start bytes) = unlimited bytes (start bytes) :=
  (decodeWithin_ample enough (Nat.le_refl bytes.length) (start bytes) (Nat.le_refl _)).1

/-- The run of the decoder is that without a limit, cut off. -/
theorem run_cut (bytes : Bytes) :
    Cut maxNesting 0 (unlimitedEvents bytes) (run bytes) (unlimited bytes (start bytes)) := by
  have more : maxNesting < bytes.length + maxNesting + 1 := by omega
  obtain ⟨later, recorded, cut⟩ := decodeWithin_cutOff more (start bytes)
  have enough : bytes.length ≤ bytes.length + maxNesting + 1 := by omega
  have same := decodeWithin_unlimited enough
  rw [reached, same] at recorded
  rw [same] at cut
  obtain rfl : unlimitedEvents bytes = later := recorded
  exact cut

theorem decode_limited (bytes : Bytes) : Limited bytes where
  unlimited limit enough := decodeWithin_unlimited enough
  unstopped limit offset stopped := by
    have inside := (decodeWithin_ample (Nat.le_refl bytes.length) (Nat.le_refl bytes.length)
      (start bytes) (Nat.le_refl _)).2.2
    unfold decodeUnlimited at stopped
    split at stopped
    next => cases stopped
    next cause after run =>
      cases stopped
      exact inside limit offset after run
  within few := by
    have cut := run_cut bytes
    generalize result : ClassFile.run bytes = cutOff at cut ⊢
    unfold decode decodeUnlimited
    rw [result]
    cases cut with
    | same _ none balanced => exact ⟨rfl, rfl⟩
    | stopped offset after _ found =>
      have none := (Event.firstBeyond?_eq_none (Nat.zero_le maxNesting)).mpr few
      rw [none] at found
      cases found
  beyond many := by
    have cut := run_cut bytes
    generalize result : ClassFile.run bytes = cutOff at cut
    unfold decode
    rw [result]
    cases cut with
    | same _ none balanced =>
      have few := (Event.firstBeyond?_eq_none (Nat.zero_le maxNesting)).mp none
      omega
    | stopped offset after _ found => exact ⟨offset, found, rfl⟩
  accepted file after decoded := by
    have cut := run_cut bytes
    rw [decoded] at cut
    unfold unlimitedEvents reached at cut
    generalize ClassFile.unlimited bytes (start bytes) = result at cut
    cases cut with
    | same _ none balanced => exact (Event.firstBeyond?_eq_none (Nat.zero_le maxNesting)).mp none

end ClassFile
end ClassFormat
