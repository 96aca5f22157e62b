import ClassFormat.Proofs.Composition
import ClassFormat.Proofs.Exactness
import ClassFormat.Proofs.FileGrammar
import ClassFormat.Proofs.Stepwise

/-! A machine does what the decoder does. Wherever the words of a machine begin to differ from plain
numbers the machine has no result, and it always has one: each step keeps the place within the buffer and
gives back every level that it has opened. -/
namespace ClassFormat

/-- What registers look like behind a step. -/
structure Registers.Follows (after before : Registers) : Prop where
  buffer : after.buffer = before.buffer
  base : after.base = before.base
  depth : after.depth = before.depth
  forth : before.position ≤ after.position
  inside : after.position ≤ after.buffer.length

namespace Registers

variable {r middle after : Registers} {n : Nat}

theorem Follows.refl (sound : r.Sound) : r.Follows r := ⟨rfl, rfl, rfl, Nat.le_refl _, sound.inside⟩

theorem Follows.trans (first : middle.Follows r) (second : after.Follows middle) : after.Follows r :=
  ⟨second.buffer.trans first.buffer, second.base.trans first.base, second.depth.trans first.depth,
    Nat.le_trans first.forth second.forth, second.inside⟩

theorem Follows.sound (follows : after.Follows r) (sound : r.Sound) : after.Sound := by
  refine ⟨follows.inside, ?_⟩
  rw [follows.base, follows.buffer]
  exact sound.exact

theorem follows_advance (sound : r.Sound) (enough : n ≤ r.remaining) : (r.advance n).Follows r :=
  ⟨rfl, rfl, rfl, Nat.le_add_right _ _, (sound.advance enough).inside⟩

end Registers

namespace Guarded

open Machine

/-- Whether a machine has a result, and the decoder the same one. -/
inductive Agrees (guarded : Guarded α) (decoder : Decoder α) (r : Registers) : Prop where
  | ok (value : α) (after : Registers) : guarded r = some (.ok value after) →
    decoder r.state = .ok value after.state → after.Follows r → Agrees guarded decoder r
  | error (cause : Error) (after : Registers) : guarded r = some (.error cause after) →
    decoder r.state = .error cause after.state → after.Follows r → Agrees guarded decoder r

/-- Whether a machine agrees with a decoder wherever certain numbers of levels are open. -/
def Exact (depths : Nat → Prop) (guarded : Guarded α) (decoder : Decoder α) : Prop :=
  ∀ r : Registers, r.Sound → depths r.depth → Agrees guarded decoder r

section Steps

variable {r : Registers} {depths : Nat → Prop}

namespace Agrees

variable {first : Guarded α} {other : Decoder α}

theorem pure (value : α) (sound : r.Sound) : Agrees (Pure.pure value) (Pure.pure value) r :=
  .ok value r rfl rfl (.refl sound)

theorem fail (cause : Error) (sound : r.Sound) : Agrees (Guarded.fail cause) (throw cause : Decoder α) r :=
  .error cause r rfl rfl (.refl sound)

/-- Only what is done from these registers on matters. -/
theorem of_eq {step : Guarded α} {decoder : Decoder α} (agrees : Agrees step decoder r)
    (same : first r = step r) (alike : other r.state = decoder r.state) : Agrees first other r := by
  cases agrees with
  | ok value after run decoded follows =>
    exact .ok value after (same.trans run) (alike.trans decoded) follows
  | error cause after run decoded follows =>
    exact .error cause after (same.trans run) (alike.trans decoded) follows

theorem bind {next : α → Guarded β} {further : α → Decoder β} (starts : Agrees first other r)
    (goes : ∀ value after, other r.state = .ok value after.state → after.Follows r →
      Agrees (next value) (further value) after) : Agrees (first >>= next) (other >>= further) r := by
  cases starts with
  | error cause after run decoded follows =>
    exact .error cause after (bind_of_error run) (Decoder.bind_of_error decoded) follows
  | ok value middle run decoded follows =>
    have through : (first >>= next) r = next value middle := bind_of_ok run
    have beyond : (other >>= further) r.state = further value middle.state := Decoder.bind_of_ok decoded
    cases goes value middle decoded follows with
    | ok result after rest tail onward =>
      exact .ok result after (through.trans rest) (beyond.trans tail) (follows.trans onward)
    | error cause after rest tail onward =>
      exact .error cause after (through.trans rest) (beyond.trans tail) (follows.trans onward)

theorem need {result : Option β} {value : β} {next : β → Guarded α} (given : result = some value)
    (agrees : Agrees (next value) other r) : Agrees (Guarded.need result >>= next) other r :=
  agrees.of_eq (bind_need given) rfl

theorem offset {next : Nat → Guarded α} {further : Nat → Decoder α} (sound : r.Sound)
    (agrees : Agrees (next (r.base + r.position)) (further (r.base + r.position)) r) :
    Agrees (Guarded.offset >>= next) (Decoder.offset >>= further) r :=
  agrees.of_eq (bind_of_ok (offset_eq sound)) rfl

/-- Registers are looked at where a decoder looks at its place. -/
theorem place {next : Registers → Guarded α} {further : Nat → Decoder α}
    (agrees : Agrees (next r) (further r.state.cursor.offset) r) :
    Agrees (registers >>= next) (Decoder.offset >>= further) r :=
  agrees.of_eq rfl rfl

end Agrees

theorem exact_pure (value : α) : Exact depths (pure value) (pure value) := fun _ sound _ =>
  .pure value sound

theorem exact_fail (cause : Error) : Exact depths (fail cause) (throw cause : Decoder α) :=
  fun _ sound _ => .fail cause sound

theorem Exact.bind {first : Guarded α} {other : Decoder α} {next : α → Guarded β} {further : α → Decoder β}
    (starts : Exact depths first other)
    (goes : ∀ value, (∃ before after, other before = .ok value after) →
      Exact depths (next value) (further value)) : Exact depths (first >>= next) (other >>= further) :=
  fun r sound here => (starts r sound here).bind fun value after decoded follows =>
    goes value ⟨r.state, after.state, decoded⟩ after (follows.sound sound) (follows.depth ▸ here)

theorem exact_demand (outcome : Except Error α) :
    Exact depths (demand outcome) (Decoder.demand outcome) := by
  cases outcome with
  | ok value => exact exact_pure value
  | error cause => exact exact_fail cause

theorem exact_record (event : Event) : Exact depths (record event) (Decoder.record event) :=
  fun r sound _ => .ok () { r with trace := r.trace.push event } rfl rfl
    ⟨rfl, rfl, rfl, Nat.le_refl _, sound.inside⟩

theorem exact_offset : Exact depths offset Decoder.offset := fun r sound _ =>
  .ok (r.base + r.position) r (offset_eq sound) rfl (.refl sound)

theorem peek?_of_enough {n : Nat} (enough : n ≤ r.remaining) :
    r.state.cursor.peek? n = some (r.state.cursor.rest.take n) := by
  apply Cursor.peek?_of_le
  rwa [Cursor.remaining, Registers.length_rest]

theorem peek?_of_few {n : Nat} (few : r.remaining < n) : r.state.cursor.peek? n = none := by
  apply Cursor.peek?_of_lt
  rwa [Cursor.remaining, Registers.length_rest]

theorem exact_read {κ : Type} [Word κ] :
    Exact depths (read : Guarded (Scalar κ)) Decoder.read := by
  intro r sound _
  by_cases enough : Word.width κ ≤ r.remaining
  · refine .ok _ _ (read_of_enough sound enough) ?_ (Registers.follows_advance sound enough)
    rw [Registers.state_advance]
    simp only [Decoder.read, Decoder.onCursor, Cursor.read, peek?_of_enough enough]
    rfl
  · have few := Nat.not_le.mp enough
    refine .error _ _ (read_of_few sound few) ?_ (Registers.follows_advance sound (Nat.le_refl _))
    rw [Registers.state_advance]
    simp only [Decoder.read, Decoder.onCursor, Cursor.read, peek?_of_few few, Cursor.remaining,
      Registers.length_rest]

theorem exact_take (n : Nat) : Exact depths (take n) (Decoder.take n) := by
  intro r sound _
  by_cases enough : n ≤ r.remaining
  · refine .ok _ _ (take_of_enough sound enough) ?_ (Registers.follows_advance sound enough)
    rw [Registers.state_advance]
    simp only [Decoder.take, Decoder.onCursor, Cursor.take, peek?_of_enough enough]
  · have few := Nat.not_le.mp enough
    refine .error _ _ (take_of_few sound few) ?_ (.refl sound)
    simp only [Decoder.take, Decoder.onCursor, Cursor.take, peek?_of_few few, Cursor.remaining,
      Registers.length_rest]
    rfl

theorem exact_skip (n : Nat) : Exact depths (skip n) (Decoder.skip n) := by
  rw [Decoder.skip_eq]
  exact (exact_take n).bind fun _ _ => exact_pure ()

theorem exact_timesFrom {item : Guarded α} {other : Decoder α} (each : Exact depths item other) (n : Nat)
    (decoded : List α) : Exact depths (timesFrom item n decoded) (Decoder.timesFrom other n decoded) := by
  induction n generalizing decoded with
  | zero => exact exact_pure _
  | succ n ih => exact each.bind fun value _ => ih (value :: decoded)

/-- One level is taken off again from what the contents leave the depth at. -/
theorem closed?_of_follows {after : Registers} {depth : Nat} {trace : Array Event}
    (follows : after.Follows { r with depth, trace }) (deeper : depth = r.depth + 1) :
    ∃ closed, after.closed? = some closed ∧ closed.state = after.state.closed ∧ closed.Follows r := by
  have level : after.depth = r.depth + 1 := follows.depth.trans deeper
  refine ⟨{ after with depth := r.depth, trace := after.trace.push .closed }, ?_, rfl,
    ⟨follows.buffer, follows.base, rfl, follows.forth, follows.inside⟩⟩
  simp [Registers.closed?, level, minus?_of_le]

/-- There is room for one level more where one is left. -/
theorem exact_nested {inner : Guarded α} {other : Decoder α} {levels : Nat}
    (each : Exact (· + levels = ClassFile.maxNesting) inner other) :
    Exact (· + (levels + 1) = ClassFile.maxNesting) (nested inner) (Decoder.nested other) := by
  intro r sound here
  have inside := sound.inside
  have exact := sound.exact
  have deeper : r.depth + 1 + levels = ClassFile.maxNesting := by omega
  have place : fit? UInt64.size (r.base + r.position) = some (r.base + r.position) := fit?_of_lt (by omega)
  have depth : fit? UInt16.size (r.depth + 1) = some (r.depth + 1) := by
    apply fit?_of_lt
    have few : ClassFile.maxNesting < UInt16.size := by decide
    omega
  have room : ¬ ClassFile.maxNesting < r.depth + 1 := by omega
  let opened : Registers :=
    { r with depth := r.depth + 1, trace := r.trace.push (.opened (r.base + r.position)) }
  have run : nested inner r = (inner opened).bind closing? := by
    simp only [nested, place, depth, Option.bind_eq_bind, Option.bind_some, if_neg room]
    rfl
  have beside : Decoder.nested other r.state = Decoder.closing (other opened.state) :=
    Decoder.nested_apply other r.state
  cases each opened ⟨inside, exact⟩ deeper with
  | ok value after guarded decoded follows =>
    obtain ⟨closed, shut, same, behind⟩ := closed?_of_follows follows rfl
    refine .ok value closed ?_ ?_ behind
    · rw [run, guarded, Option.bind_some, closing?, shut, Option.map_some]
    · rw [beside, decoded, same, Decoder.closing]
  | error cause after guarded decoded follows =>
    obtain ⟨closed, shut, same, behind⟩ := closed?_of_follows follows rfl
    refine .error cause closed ?_ ?_ behind
    · rw [run, guarded, Option.bind_some, closing?, shut, Option.map_some]
    · rw [beside, decoded, same, Decoder.closing]

theorem exact_ask {pool : Pool} (counted : pool.count < UInt16.size) (answer : Except Error α) :
    Exact depths (ask pool answer) (Decoder.demand answer) := fun r sound here =>
  .need (fit?_of_lt counted) (exact_demand answer r sound here)

end Steps

/-! ### Layouts -/

section Layouts

variable {pool : Pool} {r : Registers} {depths : Nat → Prop}

/-- A code array is looked at with registers of its own. -/
theorem agrees_within {declared base : Nat} {bytes : Bytes} (sound : r.Sound)
    (short : bytes.length < UInt32.size) (exact : base + bytes.length < UInt64.size) :
    Agrees (within base bytes (instructions declared bytes.length #[]))
      (Decoder.demand (Instruction.decodeAll declared base bytes)) r := by
  let fresh : Registers := ⟨bytes, base, 0, 0, r.trace⟩
  have starts : fresh.Sound := ⟨Nat.zero_le _, exact⟩
  have met : Meets (instructions declared bytes.length #[] fresh) fresh (fun _ => fresh.remaining)
      (Instruction.decodeAll declared base bytes) :=
    instructions_meet starts short (Nat.sub_le _ _) #[]
  cases run : Instruction.decodeAll declared base bytes with
  | ok decoded =>
    rw [run] at met
    refine .ok decoded r ?_ rfl (.refl sound)
    change (instructions declared bytes.length #[] fresh).map _ = _
    rw [met]
    rfl
  | error cause =>
    rw [run] at met
    obtain ⟨after, failed⟩ := met
    refine .error cause r ?_ rfl (.refl sound)
    change (instructions declared bytes.length #[] fresh).map _ = _
    rw [failed]
    rfl

/-- A code array has the length that is written before it in four bytes. -/
theorem exact_code : Exact depths code Layout.decodeCode := by
  intro r sound here
  refine (exact_read r sound here).bind fun length one _ follows => ?_
  have still := follows.sound sound
  have here : depths one.depth := follows.depth ▸ here
  refine .offset still ((exact_take _ one still here).bind fun (bytes : Bytes) two taken further => ?_)
  obtain ⟨bytes, passes, size, rfl⟩ := (Decoder.Reads.take _).sound taken
  have short : bytes.length < UInt32.size := size ▸ length.value.toNat_lt
  have passed : bytes.length ≤ one.remaining := by
    rw [← Registers.length_rest, passes.rest, List.length_append]
    exact Nat.le_add_right _ _
  have exact : one.base + one.position + bytes.length < UInt64.size := by
    have whole := still.exact
    have inside := still.inside
    unfold Registers.remaining at passed
    omega
  refine (agrees_within (further.sound still) short exact).bind fun decoded three _ onward => ?_
  have here : depths three.depth := onward.depth ▸ further.depth ▸ here
  have rest : Exact depths (record _ >>= fun _ => pure (length, decoded)) _ :=
    (exact_record (.codeDecoded decoded.size length.toNat (one.base + one.position))).bind fun _ _ =>
      exact_pure _
  exact rest three (onward.sound (further.sound still)) here

theorem exact_text (slot : Nat) : Exact depths (Guarded.text slot) (Layout.decodeText slot) := by
  refine exact_read.bind fun length _ => (exact_take _).bind fun bytes _ => ?_
  cases Text.Modified.decode? bytes with
  | some chars => exact exact_pure _
  | none => exact exact_fail _

theorem exact_looseText (length : Nat) :
    Exact depths (Guarded.looseText length) (Layout.decodeLooseText length) :=
  (exact_take length).bind fun _ _ => exact_pure _

/-- What a payload has used is told from two places, the later of which is not before the earlier. -/
theorem exact_entry {guarded : AttributeKind → Nat → Guarded Payload}
    {decoder : AttributeKind → Nat → Decoder Payload} (counted : pool.count < UInt16.size)
    (each : ∀ kind length, Exact depths (guarded kind length) (decoder kind length)) :
    Exact depths (Guarded.entry pool guarded) (Layout.decodeEntry pool decoder) := by
  refine exact_read.bind fun nameIndex _ => (exact_ask counted _).bind fun name _ =>
    exact_read.bind fun length _ => ?_
  cases AttributeKind.ofName? name with
  | some kind =>
    refine (exact_record _).bind fun _ _ r sound here => .place ?_
    refine (each kind length.toNat r sound here).bind fun payload after _ follows => .place ?_
    have consumed : after.state.cursor.offset - r.state.cursor.offset = after.position - r.position := by
      change after.base + after.position - (r.base + r.position) = _
      rw [follows.base, Nat.add_sub_add_left]
    rw [consumed]
    refine .need (minus?_of_le follows.forth) ?_
    have still := follows.sound sound
    by_cases all : after.position - r.position = length.toNat
    · simp only [if_pos all]
      exact .pure _ still
    · simp only [if_neg all]
      exact .fail _ still
  | none => exact (exact_record _).bind fun _ _ => (exact_skip _).bind fun _ _ => exact_pure _

theorem exact_entries {item : Guarded Attribute} {other : Decoder Attribute}
    (each : Exact depths item other) (n : Nat) (known : List Attribute) :
    Exact depths (entries item n known) (Layout.decodeEntries other n known) := by
  induction n generalizing known with
  | zero => exact exact_pure known
  | succ n ih =>
    refine each.bind fun later _ => ?_
    cases known.find? (·.name = later.name) with
    | some earlier => exact (exact_record _).bind fun _ _ => ih _
    | none => exact ih _

theorem exact_tagged {κ : Type} {tagging : Tagging κ} {body : κ → Layout α}
    (each : ∀ kind, Exact depths ((body kind).guarded pool) ((body kind).decode pool)) :
    Exact depths ((Layout.tagged tagging body).guarded pool) ((Layout.tagged tagging body).decode pool) := by
  rw [Layout.guarded, Layout.decode]
  refine exact_read.bind fun tag _ => ?_
  cases tagging.ofByte? tag.value with
  | some kind => exact (each kind).bind fun _ _ => exact_pure _
  | none => exact exact_fail _

/-- Whatever is put together from simple parts is exact, if the count of the pool that its references
lead into is. -/
theorem exact_closed {linked : Prop} (counted : linked → pool.count < UInt16.size) :
    Layout.Closed linked fun _ layout => Exact depths (layout.guarded pool) (layout.decode pool) where
  nothing := exact_pure ()
  word width := @exact_read _ _ width
  flags _ := exact_read.bind fun _ _ => exact_pure _
  index _ related := exact_read.bind fun _ _ => (exact_ask (counted related) _).bind fun _ _ => exact_pure _
  indexPair _ _ related := exact_read.bind fun _ _ => exact_read.bind fun _ _ =>
    (exact_ask (counted related) _).bind fun _ _ => (exact_ask (counted related) _).bind fun _ _ =>
      exact_pure _
  seq {_ _ _ _} head tail := head.bind fun _ _ => tail.bind fun _ _ => exact_pure _
  as {_ _} _ {_} inner := inner.bind fun _ _ => exact_pure _
  times {_} n {_} each := exact_timesFrom each n []
  counted {_ _} width {_} each := (@exact_read depths _ width).bind fun _ _ => (exact_timesFrom each _ []).bind fun _ _ =>
    exact_pure _
  tagged {_ _ _ _} _ each := exact_tagged each
  text slot := exact_text slot
  looseText length := exact_looseText length

/-- Nothing is refused before as many levels are open as there may be. -/
theorem exact_tooDeep : Exact (· + 0 = ClassFile.maxNesting)
    ((Layout.tooDeep ClassFile.maxNesting : Layout α).guarded pool)
    ((Layout.tooDeep ClassFile.maxNesting).decode pool) := by
  intro r sound here
  have reached : r.depth = ClassFile.maxNesting := here
  refine .offset sound ((Agrees.fail _ sound).of_eq ?_ rfl)
  change (if r.depth = ClassFile.maxNesting then _ else _ : Guarded _) r = _
  rw [if_pos reached]

/-- The depth and the levels that are left always make up the limit. -/
theorem exact_layout (counted : pool.count < UInt16.size) {layout : Layout α} {levels : Nat}
    (levelled : layout.Levelled ClassFile.maxNesting levels) :
    Exact (· + levels = ClassFile.maxNesting) (layout.guarded pool) (layout.decode pool) := by
  have closed (levels : Nat) : Layout.Closed True fun _ layout =>
      Exact (· + levels = ClassFile.maxNesting) (layout.guarded pool) (layout.decode pool) :=
    exact_closed fun _ => counted
  -- Only what is nested has fewer levels left than what it stands in.
  induction layout generalizing levels with
  | nothing => exact (closed levels).nothing
  | word width => exact (closed levels).word width
  | flags set => exact (closed levels).flags set
  | index target => exact (closed levels).index target trivial
  | indexPair first second => exact (closed levels).indexPair first second trivial
  | seq first second first_ih second_ih =>
    exact (closed levels).seq (first_ih levelled.1) (second_ih levelled.2)
  | as shape parts ih => exact (closed levels).as shape (ih levelled)
  | times n item ih => exact (closed levels).times n (ih levelled)
  | counted width item ih => exact (closed levels).counted width (ih levelled)
  | tagged tagging body ih => exact exact_tagged fun kind => ih kind (levelled.2 kind)
  | text slot => exact exact_text slot
  | looseText length => exact exact_looseText length
  | code => exact exact_code
  | entry payload ih => exact exact_entry counted fun kind length => ih kind length (levelled kind length)
  | table item ih =>
    exact exact_read.bind fun _ _ => (exact_entries (ih levelled.2) _ _).bind fun _ _ => exact_pure _
  | nested inner ih =>
    obtain ⟨below, rfl, inside⟩ := levelled
    exact exact_nested (ih inside)
  | tooDeep bound =>
    obtain ⟨rfl, rfl⟩ := levelled
    exact exact_tooDeep

end Layouts
end Guarded
end ClassFormat
