import ClassFormat.Proofs.Moving
import ClassFormat.Proofs.Stepwise

/-! Decoding does not depend on where the bytes lie. Two runs on the same bytes in two places come to
the same, up to the offsets in what they return or complain about. -/
namespace ClassFormat

/-- The cursors stand before the same bytes, and `move` takes the places ahead of the first to those
ahead of the second. -/
structure Cursor.Elsewhere (move : Nat → Nat) (first second : Cursor) : Prop where
  rest : second.rest = first.rest
  places : ∀ n, move (first.offset + n) = second.offset + n

/-- How two runs end that differ in nothing but places: both succeed or both fail, and both have
passed the same bytes. -/
inductive Alike (move : Nat → Nat) (moved : α → α) (first second : State) :
    EStateM.Result Error State α → EStateM.Result Error State α → Prop where
  | ok {value : α} {after other : State} {bytes : Bytes} :
    first.cursor.Passes bytes after.cursor → second.cursor.Passes bytes other.cursor →
      Alike move moved first second (.ok value after) (.ok (moved value) other)
  | error {cause : Error} {after other : State} {bytes : Bytes} :
    first.cursor.Passes bytes after.cursor → second.cursor.Passes bytes other.cursor →
      Alike move moved first second (.error cause after) (.error (cause.moved move) other)

variable {move : Nat → Nat}

/-- From that place on every place is moved equally far. -/
def Steady (move : Nat → Nat) (place : Nat) : Prop := ∀ n, move (place + n) = move place + n

/-- How far one steady place lies behind another does not change. -/
theorem Steady.sub {start stop : Nat} (first : Steady move start) (second : Steady move stop) :
    move stop - move start = stop - start := by
  by_cases forward : start ≤ stop
  · obtain ⟨n, rfl⟩ := Nat.exists_eq_add_of_le forward
    rw [first n]
    omega
  · obtain ⟨n, rfl⟩ := Nat.exists_eq_add_of_le (Nat.le_of_not_le forward)
    rw [second n]
    omega

namespace Cursor.Elsewhere

variable {first second : Cursor}

theorem offset (apart : first.Elsewhere move second) : move first.offset = second.offset :=
  apart.places 0

theorem steady (apart : first.Elsewhere move second) : Steady move first.offset := by
  intro n
  rw [apart.places n, apart.offset]

theorem peek? (apart : first.Elsewhere move second) (n : Nat) : second.peek? n = first.peek? n := by
  rw [Cursor.peek?, Cursor.peek?, apart.rest]

/-- Cursors that pass the same bytes stay as far apart as they are. -/
theorem after {bytes : Bytes} {next other : Cursor} (apart : first.Elsewhere move second)
    (passed : first.Passes bytes next) (passes : second.Passes bytes other) :
    next.Elsewhere move other := by
  constructor
  · have both := apart.rest
    rw [passed.rest, passes.rest] at both
    exact List.append_cancel_left both
  · intro n
    rw [passed.offset, passes.offset, Nat.add_assoc, Nat.add_assoc]
    exact apart.places (bytes.length + n)

end Cursor.Elsewhere

/-- What an outcome would be elsewhere. -/
def movedOutcome (move : Nat → Nat) (moved : α → α) : Except Error α → Except Error α
  | .ok value => .ok (moved value)
  | .error cause => .error (cause.moved move)

/-- An outcome that names no place. -/
def Placeless (outcome : Except Error α) : Prop := ∀ move, movedOutcome move id outcome = outcome

/-- What is chained to an outcome that names no place moves with what follows. -/
theorem bind_moved {outcome : Except Error α} {next other : α → Except Error β} {moved : β → β}
    (still : movedOutcome move id outcome = outcome)
    (goes : ∀ value, other value = movedOutcome move moved (next value)) :
    (outcome >>= other) = movedOutcome move moved (outcome >>= next) := by
  cases outcome with
  | ok value => exact goes value
  | error cause =>
    simp only [movedOutcome, Except.error.injEq] at still
    exact congrArg Except.error still.symm

namespace Placeless

theorem ok (value : α) : Placeless (.ok value) := fun _ => rfl

theorem bind {outcome : Except Error α} {next : α → Except Error β} (starts : Placeless outcome)
    (goes : ∀ value, Placeless (next value)) : Placeless (outcome >>= next) :=
  fun move => (bind_moved (starts move) fun value => (goes value move).symm).symm

theorem map {α β : Type} {outcome : Except Error α} (inner : Placeless outcome) (f : α → β) :
    Placeless (outcome.map f) := by
  have chained : outcome.map f = outcome >>= fun value => .ok (f value) := by cases outcome <;> rfl
  rw [chained]
  exact inner.bind fun value => ok (f value)

theorem get (pool : Pool) (index : Nat) : Placeless (pool.get index) := by
  intro move
  unfold Pool.get
  split <;> rfl

theorem getOf (pool : Pool) (index : Nat) (kinds : List Tag) :
    Placeless (pool.getOf index kinds) := by
  refine bind (get pool index) fun entry move => ?_
  split <;> rfl

theorem text (pool : Pool) (index : Nat) : Placeless (pool.text index) := by
  refine bind (get pool index) fun entry move => ?_
  split <;> rfl

/-- Complaints about an index tell what it leads to and not where it stands. -/
theorem check (pool : Pool) (index : Nat) (target : Target) :
    Placeless (target.check pool index) := by
  cases target with
  | oneOf kinds => exact (getOf pool index kinds).map _
  | anyEntry => exact (get pool index).map _
  | noneOr kind =>
    by_cases none : index = 0
    · rw [Target.check, if_pos none]
      exact ok ()
    · rw [Target.check, if_neg none]
      exact (getOf pool index [kind]).map _
  | ownClass =>
    by_cases asked : index = 0 ∨ 1 < pool.count
    · rw [Target.check, if_pos asked]
      exact (getOf pool index [.classRef]).map _
    · rw [Target.check, if_neg asked]
      exact ok ()

end Placeless

/-! ### Code arrays -/

namespace Instruction

variable {declared : Nat} {cursor : Cursor}

/-- The same place in a code array that lies at `base`. -/
def rebased (base : Nat) (cursor : Cursor) : Cursor := { cursor with base }

@[simp] theorem rest_rebased (base : Nat) : (rebased base cursor).rest = cursor.rest := rfl

@[simp] theorem position_rebased (base : Nat) : (rebased base cursor).position = cursor.position := rfl

@[simp] theorem advance_rebased (base n : Nat) :
    (rebased base cursor).advance n = rebased base (cursor.advance n) := rfl

theorem offset_rebased (steady : Steady move cursor.base) :
    (rebased (move cursor.base) cursor).offset = move cursor.offset :=
  (steady cursor.position).symm

/-- Operands are measured by what they are and by their place in the code array. -/
theorem readOperands_rebased (move : Nat → Nat) (declared pc base : Nat) (cursor : Cursor)
    (unknown : UInt8 → Error) (operands : Operands) :
    readOperands declared pc (fun opcode => (unknown opcode).moved move) (rebased base cursor)
      operands = movedOutcome move id (readOperands declared pc unknown cursor operands) := by
  have same (n : Nat) : demand declared n (rebased base cursor) = demand declared n cursor := rfl
  have still (n : Nat) : movedOutcome move id (demand declared n cursor) = demand declared n cursor := by
    unfold demand
    split <;> rfl
  cases operands with
  | fixed n => exact (still n).symm
  | wide =>
    refine bind_moved (still 1) fun head => ?_
    simp only
    split
    next => exact (still _).symm
    next => rfl
  | tableSwitch =>
    refine bind_moved (still _) fun header => ?_
    simp only
    split
    next => rfl
    next => exact (still _).symm
  | lookupSwitch =>
    refine bind_moved (still _) fun header => ?_
    simp only
    split
    next => rfl
    next => exact (still _).symm

theorem decodeAt_rebased (declared : Nat) (byte : UInt8) (steady : Steady move cursor.base) :
    decodeAt declared byte (rebased (move cursor.base) cursor) =
      movedOutcome move (Instruction.moved move) (decodeAt declared byte cursor) := by
  unfold decodeAt
  simp only [position_rebased, advance_rebased, offset_rebased steady]
  cases Opcode.ofByte? byte with
  | none => rfl
  | some opcode =>
    have operands := readOperands_rebased move declared cursor.position (move cursor.base)
      (cursor.advance 1) (fun found => .unknownOpcode found cursor.position cursor.offset) opcode.operands
    simp only [Error.moved] at operands
    simp only [operands]
    cases readOperands declared cursor.position _ (cursor.advance 1) opcode.operands <;> rfl

theorem decodeFrom_rebased (declared : Nat) (decoded : Array Instruction) (cursor : Cursor)
    (steady : Steady move cursor.base) :
    decodeFrom declared (decoded.map (Instruction.moved move)) (rebased (move cursor.base) cursor) =
      movedOutcome move (Array.map (Instruction.moved move)) (decodeFrom declared decoded cursor) := by
  induction decoded, cursor using decodeFrom.induct declared with
  | case1 decoded cursor left =>
    rw [decodeFrom, decodeFrom]
    simp only [rest_rebased, left, ↓reduceDIte]
    rfl
  | case2 decoded cursor left instruction found ih =>
    have next := decodeAt_rebased declared (cursor.rest.head left) steady
    rw [found] at next
    have rest := ih steady
    rw [Array.map_push] at rest
    rw [decodeFrom, decodeFrom]
    simp only [rest_rebased, advance_rebased, left, ↓reduceDIte, next, found, movedOutcome]
    exact rest
  | case3 decoded cursor left cause found =>
    have next := decodeAt_rebased declared (cursor.rest.head left) steady
    rw [found] at next
    rw [decodeFrom, decodeFrom]
    simp only [rest_rebased, left, ↓reduceDIte, next, found, movedOutcome]

/-- A code array is cut in the same way wherever it lies. -/
theorem decodeAll_moved {base : Nat} (steady : Steady move base) (bytes : Bytes) :
    decodeAll declared (move base) bytes =
      movedOutcome move (Array.map (Instruction.moved move)) (decodeAll declared base bytes) := by
  have run := decodeFrom_rebased declared #[] (.startingAt base bytes) steady
  rw [Array.map_empty] at run
  exact run

end Instruction

/-! ### Decoders -/

namespace Decoder

/-- Whether the second decoder does elsewhere what the first one does. -/
def Moves (move : Nat → Nat) (moved : α → α) (decoder other : Decoder α) : Prop :=
  ∀ first second : State, first.cursor.Elsewhere move second.cursor →
    Alike move moved first second (decoder first) (other second)

namespace Moves

theorem pure (moved : α → α) (value : α) :
    Moves move moved (Pure.pure value) (Pure.pure (moved value)) :=
  fun _ _ _ => .ok (.refl _) (.refl _)

theorem throw (moved : α → α) (cause : Error) :
    Moves move moved (throw cause) (throw (cause.moved move)) :=
  fun _ _ _ => .error (.refl _) (.refl _)

theorem bind {moved : α → α} {movedNext : β → β} {first other : Decoder α}
    {next further : α → Decoder β} (starts : Moves move moved first other)
    (goes : ∀ value, Moves move movedNext (next value) (further (moved value))) :
    Moves move movedNext (first >>= next) (other >>= further) := by
  intro s t apart
  have head := starts s t apart
  generalize one : first s = result at head
  generalize two : other t = otherResult at head
  cases head with
  | error passed passes =>
    rw [bind_of_error one, bind_of_error two]
    exact .error passed passes
  | @ok value after reached bytes passed passes =>
    rw [bind_of_ok one, bind_of_ok two]
    have tail := goes value after reached (apart.after passed passes)
    generalize next value after = rest at tail
    generalize further (moved value) reached = otherRest at tail
    cases tail with
    | ok more moreToo => exact .ok (passed.trans more) (passes.trans moreToo)
    | error more moreToo => exact .error (passed.trans more) (passes.trans moreToo)

theorem map {moved : α → α} {movedNext : β → β} {first other : Decoder α} {f g : α → β}
    (starts : Moves move moved first other) (commutes : ∀ value, g (moved value) = movedNext (f value)) :
    Moves move movedNext (first >>= fun value => Pure.pure (f value))
      (other >>= fun value => Pure.pure (g value)) := by
  refine starts.bind fun value => ?_
  rw [commutes]
  exact pure movedNext (f value)

theorem record (event other : Event) : Moves move id (record event) (record other) :=
  fun _ _ _ => .ok (.refl _) (.refl _)

theorem demand {moved : α → α} {outcome other : Except Error α}
    (same : other = movedOutcome move moved outcome) :
    Moves move moved (demand outcome) (demand other) := by
  subst same
  cases outcome with
  | ok value => exact pure moved value
  | error cause => exact throw moved cause

/-- What goes on from the place it stands at goes on from the moved one elsewhere. -/
theorem offsetThen {moved : α → α} {next further : Nat → Decoder α}
    (goes : ∀ place, Steady move place → Moves move moved (next place) (further (move place))) :
    Moves move moved (Decoder.offset >>= next) (Decoder.offset >>= further) := by
  intro s t apart
  have run := goes s.cursor.offset apart.steady s t apart
  rw [apart.offset] at run
  exact run

theorem onCursor {moved : α → α} {step : Cursor → Except Error α × Cursor}
    (steps : ∀ first second : Cursor, first.Elsewhere move second →
      (step second).1 = movedOutcome move moved (step first).1 ∧
        ∃ bytes, first.Passes bytes (step first).2 ∧ second.Passes bytes (step second).2) :
    Moves move moved (onCursor step) (onCursor step) := by
  intro s t apart
  obtain ⟨same, bytes, passed, passes⟩ := steps s.cursor t.cursor apart
  unfold Decoder.onCursor
  generalize step s.cursor = one at same passed
  generalize step t.cursor = two at same passes
  obtain ⟨outcome, after⟩ := one
  obtain ⟨_, other⟩ := two
  simp only at same
  subst same
  cases outcome with
  | ok value => exact .ok passed passes
  | error cause => exact .error passed passes

theorem read {κ : Type} [Word κ] :
    Moves move (Scalar.moved move) (read : Decoder (Scalar κ)) read := by
  apply onCursor
  intro first second apart
  unfold Cursor.read
  rw [apart.peek?]
  cases seen : first.peek? (Word.width κ) with
  | some bytes =>
    refine ⟨?_, bytes, (Cursor.passes_of_peek? seen).2, ?_⟩
    · rw [← apart.offset]
      rfl
    · exact (Cursor.passes_of_peek? ((apart.peek? _).trans seen)).2
  | none =>
    refine ⟨rfl, first.rest, first.passes_rest, ?_⟩
    rw [← apart.rest]
    exact second.passes_rest

theorem take (n : Nat) : Moves move id (take n) (take n) := by
  apply onCursor
  intro first second apart
  unfold Cursor.take
  rw [apart.peek?]
  cases seen : first.peek? n with
  | some bytes =>
    refine ⟨rfl, bytes, (Cursor.passes_of_peek? seen).2, ?_⟩
    exact (Cursor.passes_of_peek? ((apart.peek? n).trans seen)).2
  | none =>
    refine ⟨?_, [], .refl first, .refl second⟩
    rw [← apart.offset, Cursor.remaining, apart.rest]
    rfl

theorem skip (n : Nat) : Moves move id (skip n) (skip n) := by
  rw [skip_eq]
  exact (take n).map fun _ => rfl

theorem nested {moved : α → α} {inner other : Decoder α} (within : Moves move moved inner other) :
    Moves move moved (Decoder.nested inner) (Decoder.nested other) := by
  intro s t apart
  have run := within s.opened t.opened apart
  rw [nested_apply, nested_apply]
  generalize inner s.opened = result at run
  generalize other t.opened = otherResult at run
  cases run with
  | ok passed passes => exact .ok passed passes
  | error passed passes => exact .error passed passes

theorem timesFrom {moved : α → α} {item other : Decoder α} (each : Moves move moved item other)
    (n : Nat) (decoded : List α) :
    Moves move (List.map moved) (timesFrom item n decoded) (timesFrom other n (decoded.map moved)) := by
  induction n generalizing decoded with
  | zero =>
    unfold Decoder.timesFrom
    rw [← List.map_reverse]
    exact pure _ _
  | succ n ih => exact each.bind fun value => ih (value :: decoded)

theorem decodeLooseText (length : Nat) :
    Moves move id (Layout.decodeLooseText length) (Layout.decodeLooseText length) :=
  (take length).map fun _ => rfl

/-- Only the place of the whole array goes into what is decoded of it. -/
theorem decodeCode :
    Moves move (Prod.map (Scalar.moved move) (Array.map (Instruction.moved move)))
      Layout.decodeCode Layout.decodeCode := by
  refine read.bind fun length => offsetThen fun base steady => (take _).bind fun bytes => ?_
  refine (demand (Instruction.decodeAll_moved steady bytes)).bind fun instructions => ?_
  exact (record _ _).bind fun _ => pure _ (length, instructions)

theorem decodeEntry (pool : Pool) {payload other : AttributeKind → Nat → Decoder Payload}
    (each : ∀ kind length, Moves move (Payload.moved move) (payload kind length) (other kind length)) :
    Moves move (Attribute.moved move) (Layout.decodeEntry pool payload)
      (Layout.decodeEntry pool other) := by
  refine read.bind fun nameIndex => (demand (Placeless.text pool _ move).symm).bind fun name =>
    read.bind fun length => ?_
  simp only [id]
  split
  next kind known =>
    refine (record _ _).bind fun _ => offsetThen fun start first => (each kind _).bind fun payload =>
      offsetThen fun stop second => ?_
    simp only [first.sub second, Scalar.toNat_moved]
    split
    next => exact pure (Attribute.moved move) ⟨nameIndex, name, length, payload⟩
    next => exact throw _ (.attributeLength name length.toNat (stop - start))
  next unknown =>
    exact (record _ _).bind fun _ => (skip _).bind fun _ =>
      pure (Attribute.moved move) ⟨nameIndex, name, length, .unknown⟩

theorem decodeEntries {entry other : Decoder Attribute}
    (each : Moves move (Attribute.moved move) entry other) (n : Nat) (entries : List Attribute) :
    Moves move (List.map (Attribute.moved move)) (Layout.decodeEntries entry n entries)
      (Layout.decodeEntries other n (entries.map (Attribute.moved move))) := by
  induction n generalizing entries with
  | zero => exact pure _ entries
  | succ n ih =>
    refine each.bind fun later => ?_
    have rest := ih (Table.insert later entries)
    rw [← Table.insert_moved] at rest
    have earlier : (entries.map (Attribute.moved move)).find? (·.name = (later.moved move).name) =
        (entries.find? (·.name = later.name)).map (Attribute.moved move) := by
      rw [List.find?_map]
      congr 2
      funext entry
      simp
    rw [earlier]
    cases entries.find? (·.name = later.name) with
    | some replaced =>
      refine (record _ _).bind fun _ => ?_
      exact rest
    | none => exact rest

end Moves
end Decoder

/-! ### Layouts -/

/-- Whether what a layout describes is decoded alike in all places. -/
def Layout.Moves (pool : Pool) (move : Nat → Nat) (layout : Layout α) (moved : α → α) : Prop :=
  Decoder.Moves move moved (layout.decode pool) (layout.decode pool)

namespace Layout.Moves

open Decoder.Moves (read demand offsetThen)

variable {pool : Pool}

theorem nothing : Layout.nothing.Moves pool move id := Decoder.Moves.pure id ()

theorem word {κ : Type} {width : Word κ} : (Layout.word width).Moves pool move (Scalar.moved move) :=
  read

theorem flags (set : FlagSet) : (Layout.flags set).Moves pool move (Scalar.moved move) :=
  read.map fun _ => rfl

theorem index (target : Target) : (Layout.index target).Moves pool move (Scalar.moved move) :=
  read.bind fun index => (demand (Placeless.check pool _ target move).symm).bind fun _ =>
    Decoder.Moves.pure _ index

theorem indexPair (first second : Target) : (Layout.indexPair first second).Moves pool move
    (Prod.map (Scalar.moved move) (Scalar.moved move)) :=
  read.bind fun one => read.bind fun two =>
    (demand (Placeless.check pool _ first move).symm).bind fun _ =>
      (demand (Placeless.check pool _ second move).symm).bind fun _ => Decoder.Moves.pure _ (one, two)

theorem seq {first : Layout α} {second : Layout β} {moved : α → α} {movedNext : β → β}
    (head : first.Moves pool move moved) (tail : second.Moves pool move movedNext) :
    (first.seq second).Moves pool move (Prod.map moved movedNext) :=
  head.bind fun one => tail.bind fun two => Decoder.Moves.pure (Prod.map moved movedNext) (one, two)

theorem as {shape : Shape α β} {parts : Layout α} {moved : α → α} {movedWhole : β → β}
    (inner : parts.Moves pool move moved)
    (commutes : ∀ value, shape.make (moved value) = movedWhole (shape.make value)) :
    (parts.as shape).Moves pool move movedWhole :=
  inner.map commutes

theorem times {item : Layout α} {moved : α → α} (n : Nat) (each : item.Moves pool move moved) :
    (item.times n).Moves pool move (List.map moved) :=
  each.timesFrom n []

theorem counted {κ : Type} {width : Word κ} {item : Layout α} {moved : α → α}
    (each : item.Moves pool move moved) :
    (item.counted width).Moves pool move (Counted.moved move moved) :=
  (read (κ := κ)).bind fun _ => (each.timesFrom _ []).map fun _ => rfl

theorem tagged {κ : Type} {tagging : Tagging κ} {body : κ → Layout α} {moved : α → α}
    (complains : ∀ byte place,
      tagging.unknown byte (move place) = (tagging.unknown byte place).moved move)
    (each : ∀ kind, (body kind).Moves pool move moved) :
    (Layout.tagged tagging body).Moves pool move (Prod.map (Scalar.moved move) moved) := by
  unfold Layout.Moves
  rw [Layout.decode]
  refine read.bind fun tag => ?_
  simp only [Scalar.moved]
  split
  next kind known => exact (each kind).map fun _ => rfl
  next =>
    rw [complains]
    exact Decoder.Moves.throw _ _

theorem looseText (length : Nat) : (Layout.looseText length).Moves pool move id :=
  Decoder.Moves.decodeLooseText length

theorem code : Layout.code.Moves pool move
    (Prod.map (Scalar.moved move) (Array.map (Instruction.moved move))) :=
  Decoder.Moves.decodeCode

theorem entry {payload : AttributeKind → Nat → Layout Payload}
    (each : ∀ kind length, (payload kind length).Moves pool move (Payload.moved move)) :
    (Layout.entry payload).Moves pool move (Attribute.moved move) :=
  Decoder.Moves.decodeEntry pool each

theorem table {item : Layout Attribute} (each : item.Moves pool move (Attribute.moved move)) :
    (Layout.table item).Moves pool move (Table.moved move) := by
  refine (read (κ := UInt16)).bind fun _ =>
    (Decoder.Moves.decodeEntries each _ []).map fun entries => ?_
  rw [Table.moved, Attribute.movedAll_eq]

theorem nested {inner : Layout α} {moved : α → α} (within : inner.Moves pool move moved) :
    inner.nested.Moves pool move moved :=
  Decoder.Moves.nested within

theorem tooDeep (limit : Nat) (moved : α → α) : (Layout.tooDeep limit).Moves pool move moved :=
  offsetThen fun place _ => Decoder.Moves.throw moved (.tooDeep limit place)

end Layout.Moves
end ClassFormat
