import ClassFormat.ClassFile.Decode
import ClassFormat.Proofs.Misfits

/-! Runs step by step. What relates decoders in single steps relates whatever is put together
from the same steps, up to all that a layout may describe. -/
namespace ClassFormat

/-- Whether the event opens or closes a level of nesting. -/
def Event.isLevel : Event → Bool
  | opened _ | closed => true
  | _ => false

/-- Whether a complaint is about something that was read or should have been, and not about how
deep it lies or about what follows a whole class file. -/
def Error.isLocal : Error → Bool
  | tooDeep .. | trailingBytes .. => false
  | _ => true

/-- Whether only local complaints are possible. -/
def LocalFailure (outcome : Except Error α) : Prop :=
  ∀ cause, outcome = .error cause → cause.isLocal = true

namespace LocalFailure

theorem ok (value : α) : LocalFailure (.ok value) := by
  intro cause failed
  cases failed

theorem error {cause : Error} (here : cause.isLocal = true) :
    LocalFailure (.error cause : Except Error α) := by
  intro found failed
  cases failed
  exact here

theorem bind {first : Except Error α} {next : α → Except Error β} (starts : LocalFailure first)
    (goes : ∀ value, LocalFailure (next value)) : LocalFailure (first >>= next) := by
  cases first with
  | ok value => exact goes value
  | error cause => exact error (starts cause rfl)

theorem map {outcome : Except Error α} {f : α → β} (inner : LocalFailure outcome) :
    LocalFailure (outcome.map f) := by
  cases outcome with
  | ok value => exact ok (f value)
  | error cause => exact error (inner cause rfl)

theorem read {κ : Type} [Word κ] (cursor : Cursor) :
    LocalFailure (cursor.read : Except Error (Scalar κ) × Cursor).1 := by
  unfold Cursor.read
  split
  next => exact ok _
  next => exact error rfl

theorem take (n : Nat) (cursor : Cursor) : LocalFailure (cursor.take n).1 := by
  unfold Cursor.take
  split
  next => exact ok _
  next => exact error rfl

theorem skip (n : Nat) (cursor : Cursor) : LocalFailure (cursor.skip n).1 := map (take n cursor)

theorem get (pool : Pool) (index : Nat) : LocalFailure (pool.get index) := by
  unfold Pool.get
  split
  next => exact ok _
  next => exact error rfl
  next => exact error rfl

theorem getOf (pool : Pool) (index : Nat) (kinds : List Tag) :
    LocalFailure (pool.getOf index kinds) := by
  refine bind (get pool index) fun entry => ?_
  split
  next => exact ok _
  next => exact error rfl

theorem text (pool : Pool) (index : Nat) : LocalFailure (pool.text index) := by
  refine bind (get pool index) fun entry => ?_
  split
  next => exact ok _
  next => exact error rfl

theorem check (pool : Pool) (index : Nat) (target : Target) :
    LocalFailure (target.check pool index) := by
  cases target with
  | oneOf kinds => exact map (getOf pool index kinds)
  | noneOr kind =>
    by_cases none : index = 0
    · rw [Target.check, if_pos none]
      exact ok ()
    · rw [Target.check, if_neg none]
      exact map (getOf pool index [kind])
  | anyEntry => exact map (get pool index)
  | ownClass =>
    by_cases asked : index = 0 ∨ 1 < pool.count
    · rw [Target.check, if_pos asked]
      exact map (getOf pool index [.classRef])
    · rw [Target.check, if_neg asked]
      exact ok ()

theorem firstError {check : α → Except Error Unit} (each : ∀ item, LocalFailure (check item))
    (items : List α) : LocalFailure (firstError check items) := by
  induction items with
  | nil => exact ok ()
  | cons item rest ih =>
    rw [ClassFormat.firstError]
    split
    next => exact ih
    next cause failed => exact error (each item cause failed)

theorem validate (pool : Pool) : LocalFailure pool.validate := by
  refine firstError (fun entry => ?_) pool.entries
  have references : ∀ found, LocalFailure (ClassFormat.firstError pool.checkReference found) :=
    firstError fun reference => map (getOf pool reference.1 reference.2)
  unfold Pool.checkEntry
  split
  next =>
    split
    next => exact error rfl
    next => exact references _
  next => exact references _

theorem decodeAll (declared base : Nat) (bytes : Bytes) :
    LocalFailure (Instruction.decodeAll declared base bytes) := by
  intro cause failed
  obtain ⟨front, rest, earlier, -, -, misfit⟩ := Instruction.decodeAll_eq_error.mp failed
  cases misfit <;> rfl

end LocalFailure

/-- A layout in which all complaints are local. Whether there may be something a level of nesting
further down is up to `deep`. -/
def Layout.Plain (deep : Prop) : Layout α → Prop
  | nothing | word _ | flags _ | index _ | indexPair _ _ | text _ | looseText _ | code => True
  | seq first second => first.Plain deep ∧ second.Plain deep
  | as _ parts => parts.Plain deep
  | times _ item | counted _ item | table item => item.Plain deep
  | tagged tagging body =>
    (∀ byte offset, (tagging.unknown byte offset).isLocal = true) ∧ ∀ kind, (body kind).Plain deep
  | entry payload => ∀ kind length, (payload kind length).Plain deep
  | nested inner => deep ∧ inner.Plain deep
  | tooDeep _ => deep

/-! ### The layouts of the format are plain -/

section Plain

variable {deep : Prop}

theorem Constant.layout_plain (index : Nat) (tag : Tag) : (Constant.layout index tag).Plain deep := by
  cases tag <;> simp [Constant.layout, Layout.u1, Layout.u2, Layout.Plain]

theorem Frame.layout_plain : Frame.layout.Plain deep := by
  have type : VerificationType.layout.Plain deep := by
    refine ⟨fun _ _ => rfl, fun kind => ⟨trivial, ?_⟩⟩
    cases kind <;> simp [VerificationKind.layout, Layout.u2, Layout.reference, Layout.Plain]
  refine ⟨fun _ _ => rfl, fun kind => ?_⟩
  cases kind <;> simp [FrameKind.layout, Layout.list, Layout.u2, Layout.Plain, type]

theorem Annotation.layoutWith_plain {element : Layout Element} (plain : element.Plain deep) :
    ( Annotation.layoutWith element).Plain deep :=
  ⟨trivial, trivial, plain⟩

theorem Element.layoutWith_plain {inner : Layout Annotation} {element : Layout Element}
    (annotated : inner.Plain deep) (plain : element.Plain deep) :
    (Element.layoutWith inner element).Plain deep := by
  refine ⟨fun _ _ => rfl, fun kind => ?_⟩
  cases kind with
  | annotated => exact annotated
  | array => exact plain
  | _ => trivial

theorem TargetKind.layout_plain :
    (Layout.tagged ⟨TargetKind.ofByte?, .unknownTarget⟩ TargetKind.layout).Plain deep := by
  refine ⟨fun _ _ => rfl, fun kind => ?_⟩
  cases kind <;> simp [TargetKind.layout, Layout.list, Layout.u1, Layout.u2, Layout.Plain]

theorem PathStep.layout_plain : PathStep.layout.Plain deep :=
  ⟨fun _ _ => rfl, fun _ => ⟨trivial, trivial⟩⟩

theorem ModuleInfo.layout_plain : ModuleInfo.layout.Plain deep := by
  simp [ModuleInfo.layout, Requirement.layout, PackageDirective.layout, Provision.layout,
    Layout.list, Layout.reference, Layout.optional, Layout.Plain]

theorem Code.layout_plain {attributes : Layout Table} (plain : attributes.Plain deep) :
    (Code.layout attributes).Plain deep := by
  simpa [Code.layout, Handler.layout, Layout.list, Layout.optional, Layout.u2, Layout.Plain] using plain

theorem Component.layout_plain {attributes : Layout Table} (plain : attributes.Plain deep) :
    (Component.layout attributes).Plain deep :=
  ⟨trivial, trivial, plain⟩

/-- Whether element values or attribute tables lie in an attribute of that kind. -/
def AttributeKind.nests : AttributeKind → Bool
  | code | annotations _ | parameterAnnotations _ | typeAnnotations _ | annotationDefault
  | recordInfo => true
  | _ => false

theorem Payload.layout_flat {kind : AttributeKind} (flat : kind.nests = false)
    {element : Layout Element} {attributes : Layout Table} (length : Nat) :
    (Payload.layout element attributes kind length).Plain deep := by
  cases kind with
  | stackMapTable => exact Frame.layout_plain
  | moduleInfo => exact ModuleInfo.layout_plain
  | code | annotations | parameterAnnotations | typeAnnotations | annotationDefault | recordInfo =>
    cases flat
  | _ =>
    simp [Payload.layout, InnerClass.layout, LineNumber.layout, LocalVariable.layout,
      BootstrapMethod.layout, Parameter.layout, Layout.list, Layout.shortList, Layout.reference,
      Layout.optional, Layout.u2, Layout.Plain]

theorem Payload.layout_plain {element : Layout Element} {attributes : Layout Table}
    (values : element.Plain deep) (tables : attributes.Plain deep) (kind : AttributeKind) (length : Nat) :
    (Payload.layout element attributes kind length).Plain deep := by
  have inner := Annotation.layoutWith_plain values
  cases kind with
  | code => exact Code.layout_plain tables
  | annotations => exact inner
  | parameterAnnotations => exact inner
  | typeAnnotations => exact ⟨TargetKind.layout_plain, PathStep.layout_plain, inner⟩
  | annotationDefault => exact values
  | recordInfo => exact Component.layout_plain tables
  | _ => exact Payload.layout_flat rfl length

theorem Element.layout_plain (limit levels : Nat) : (Element.layout limit levels).Plain True := by
  induction levels with
  | zero => exact Element.layoutWith_plain trivial trivial
  | succ levels ih => exact Element.layoutWith_plain ⟨trivial, Annotation.layoutWith_plain ih⟩ ⟨trivial, ih⟩

theorem Table.layout_plain (limit levels : Nat) : (Table.layout limit levels).Plain True := by
  induction levels with
  | zero => exact Payload.layout_plain (Element.layout_plain limit 0) trivial
  | succ levels ih => exact Payload.layout_plain (Element.layout_plain limit (levels + 1)) ⟨trivial, ih⟩

theorem Body.layout_plain {attributes : Layout Table} (plain : attributes.Plain deep) :
    (Body.layout attributes).Plain deep :=
  ⟨trivial, trivial, trivial, trivial, ⟨trivial, trivial, plain⟩, ⟨trivial, trivial, plain⟩, plain⟩

end Plain

namespace Cursor

theorem passes_rest (cursor : Cursor) : cursor.Passes cursor.rest (cursor.advance cursor.remaining) :=
  ⟨rfl, rfl, by simp [advance, remaining]⟩

/-- A run of bytes that does not fit is not passed at all. -/
theorem passes_take (n : Nat) (cursor : Cursor) : ∃ bytes, cursor.Passes bytes (cursor.take n).2 := by
  unfold take
  split
  next bytes seen => exact ⟨bytes, (passes_of_peek? seen).2⟩
  next => exact ⟨[], .refl cursor⟩

end Cursor

namespace Decoder

/-- A relation between decoders that single steps respect. Levels of nesting are left out, since
most relations change with the level. -/
structure Stepwise (related : ∀ α : Type, Decoder α → Decoder α → Prop) : Prop where
  pure {α : Type} (value : α) : related α (Pure.pure value) (Pure.pure value)
  throw (α : Type) (cause : Error) : cause.isLocal = true →
    related α (throw cause) (throw cause)
  bind {α β : Type} {first other : Decoder α} {next further : α → Decoder β} :
    related α first other → (∀ value, related β (next value) (further value)) →
      related β (first >>= next) (other >>= further)
  read {κ : Type} [Word κ] : related (Scalar κ) Decoder.read Decoder.read
  take (n : Nat) : related Bytes (Decoder.take n) (Decoder.take n)
  skip (n : Nat) : related Unit (Decoder.skip n) (Decoder.skip n)
  offset : related Nat Decoder.offset Decoder.offset
  record (event : Event) : event.isLevel = false →
    related Unit (Decoder.record event) (Decoder.record event)

namespace Stepwise

variable {related : ∀ α : Type, Decoder α → Decoder α → Prop} (steps : Stepwise related)
include steps

theorem demand {outcome : Except Error α} (here : LocalFailure outcome) :
    related α (Decoder.demand outcome) (Decoder.demand outcome) := by
  cases outcome with
  | ok value => exact steps.pure value
  | error cause => exact steps.throw α cause (here cause rfl)

theorem timesFrom {item other : Decoder α} (each : related α item other) (n : Nat)
    (decoded : List α) :
    related (List α) (Decoder.timesFrom item n decoded) (Decoder.timesFrom other n decoded) := by
  induction n generalizing decoded with
  | zero => exact steps.pure decoded.reverse
  | succ n ih => exact steps.bind each fun value => ih (value :: decoded)

theorem decodeText (slot : Nat) :
    related (U2 × String) (Layout.decodeText slot) (Layout.decodeText slot) := by
  refine steps.bind steps.read fun length => steps.bind (steps.take _) fun bytes => ?_
  split
  next => exact steps.pure _
  next => exact steps.throw _ _ rfl

theorem decodeLooseText (length : Nat) :
    related String (Layout.decodeLooseText length) (Layout.decodeLooseText length) :=
  steps.bind (steps.take length) fun _ => steps.pure _

theorem decodeCode : related (U4 × Array Instruction) Layout.decodeCode Layout.decodeCode :=
  steps.bind steps.read fun _ => steps.bind steps.offset fun _ => steps.bind (steps.take _) fun _ =>
    steps.bind (steps.demand (.decodeAll _ _ _)) fun _ => steps.bind (steps.record _ rfl) fun _ =>
      steps.pure _

theorem decodeEntry (pool : Pool) {payload other : AttributeKind → Nat → Decoder Payload}
    (each : ∀ kind length, related Payload (payload kind length) (other kind length)) :
    related Attribute (Layout.decodeEntry pool payload) (Layout.decodeEntry pool other) := by
  refine steps.bind steps.read fun nameIndex => steps.bind (steps.demand (.text pool _)) fun name =>
    steps.bind steps.read fun length => ?_
  split
  next kind known =>
    refine steps.bind (steps.record _ rfl) fun _ => steps.bind steps.offset fun start =>
      steps.bind (each kind length.toNat) fun payload => steps.bind steps.offset fun stop => ?_
    simp only
    split
    next => exact steps.pure _
    next => exact steps.throw _ _ rfl
  next unknown =>
    exact steps.bind (steps.record _ rfl) fun _ => steps.bind (steps.skip _) fun _ => steps.pure _

theorem decodeEntries {entry other : Decoder Attribute} (each : related Attribute entry other)
    (n : Nat) (entries : List Attribute) :
    related (List Attribute) (Layout.decodeEntries entry n entries)
      (Layout.decodeEntries other n entries) := by
  induction n generalizing entries with
  | zero => exact steps.pure entries
  | succ n ih =>
    refine steps.bind each fun later => ?_
    have rest := ih (Table.insert later entries)
    split
    next => exact steps.bind (steps.record _ rfl) fun _ => rest
    next => exact steps.bind (steps.pure ()) fun _ => rest

section Layouts

variable {pool : Pool}

theorem seq {first one : Layout α} {second two : Layout β}
    (head : related α (first.decode pool) (one.decode pool))
    (tail : related β (second.decode pool) (two.decode pool)) :
    related (α × β) ((first.seq second).decode pool) ((one.seq two).decode pool) :=
  steps.bind head fun _ => steps.bind tail fun _ => steps.pure _

theorem as {parts others : Layout α} (shape : Shape α β)
    (inner : related α (parts.decode pool) (others.decode pool)) :
    related β ((parts.as shape).decode pool) ((others.as shape).decode pool) :=
  steps.bind inner fun _ => steps.pure _

theorem counted {κ : Type} (width : Word κ) {item other : Layout α}
    (each : related α (item.decode pool) (other.decode pool)) :
    related (Counted κ α) ((item.counted width).decode pool) ((other.counted width).decode pool) :=
  steps.bind (@Stepwise.read _ steps κ width) fun _ =>
    steps.bind (steps.timesFrom each _ _) fun _ => steps.pure _

theorem tagged {κ : Type} {tagging : Tagging κ} {body other : κ → Layout α}
    (here : ∀ byte offset, (tagging.unknown byte offset).isLocal = true)
    (each : ∀ kind, related α ((body kind).decode pool) ((other kind).decode pool)) :
    related (U1 × α) ((Layout.tagged tagging body).decode pool)
      ((Layout.tagged tagging other).decode pool) := by
  rw [Layout.decode, Layout.decode]
  refine steps.bind steps.read fun tag => ?_
  split
  next kind known => exact steps.bind (each kind) fun _ => steps.pure _
  next => exact steps.throw _ _ (here _ _)

theorem table {item other : Layout Attribute}
    (each : related Attribute (item.decode pool) (other.decode pool)) :
    related Table ((Layout.table item).decode pool) ((Layout.table other).decode pool) :=
  steps.bind steps.read fun _ => steps.bind (steps.decodeEntries each _ _) fun _ => steps.pure _

/-- Every plain layout is decoded in steps, those across levels of nesting included if there are
any. -/
theorem layout {deep : Prop} {layout : Layout α} (plain : layout.Plain deep)
    (across : deep → ∀ {α : Type} {inner other : Decoder α}, related α inner other →
      related α (Decoder.nested inner) (Decoder.nested other))
    (bottom : deep → ∀ (α : Type) (limit : Nat),
      related α ((Layout.tooDeep limit).decode pool) ((Layout.tooDeep limit).decode pool)) :
    related α (layout.decode pool) (layout.decode pool) := by
  induction layout with
  | nothing => exact steps.pure ()
  | word width => exact steps.read
  | flags set => exact steps.bind steps.read fun _ => steps.pure _
  | index target =>
    exact steps.bind steps.read fun _ => steps.bind (steps.demand (.check pool _ target)) fun _ =>
      steps.pure _
  | indexPair first second =>
    exact steps.bind steps.read fun _ => steps.bind steps.read fun _ =>
      steps.bind (steps.demand (.check pool _ first)) fun _ =>
        steps.bind (steps.demand (.check pool _ second)) fun _ => steps.pure _
  | seq first second first_ih second_ih =>
    exact steps.seq (first_ih plain.1) (second_ih plain.2)
  | as shape parts ih => exact steps.as shape (ih plain)
  | times n item ih => exact steps.timesFrom (ih plain) n []
  | counted width item ih => exact steps.counted width (ih plain)
  | tagged tagging body ih => exact steps.tagged plain.1 fun kind => ih kind (plain.2 kind)
  | text slot => exact steps.decodeText slot
  | looseText length => exact steps.decodeLooseText length
  | code => exact steps.decodeCode
  | entry payload ih => exact steps.decodeEntry pool fun kind length => ih kind length (plain kind length)
  | table item ih => exact steps.table (ih plain)
  | nested inner ih => exact across plain.1 (ih plain.2)
  | tooDeep limit => exact bottom plain _ limit

variable (pool) in
/-- Where nothing is nested there is nothing to ask. -/
theorem flat (layout : Layout α) (plain : layout.Plain False) :
    related α (layout.decode pool) (layout.decode pool) :=
  steps.layout plain False.elim False.elim

theorem annotationOf {element other : Layout Element}
    (values : related Element (element.decode pool) (other.decode pool)) :
    related Annotation (( Annotation.layoutWith element).decode pool)
      (( Annotation.layoutWith other).decode pool) := by
  have name := steps.flat pool (.reference .utf8) trivial
  exact steps.as _ <| steps.seq name <| steps.counted _ <| steps.seq name values

theorem element {inner one : Layout Annotation} {element other : Layout Element}
    (annotated : related Annotation (inner.decode pool) (one.decode pool))
    (values : related Element (element.decode pool) (other.decode pool)) (kind : ElementKind) :
    related ElementValue ((ElementKind.layout inner element kind).decode pool)
      ((ElementKind.layout one other kind).decode pool) := by
  cases kind with
  | annotated => exact steps.as _ annotated
  | array => exact steps.as _ (steps.counted _ values)
  | _ => exact steps.flat pool _ trivial

theorem payload {element other : Layout Element} {attributes others : Layout Table}
    (values : related Element (element.decode pool) (other.decode pool))
    (tables : related Table (attributes.decode pool) (others.decode pool)) (kind : AttributeKind)
    (length : Nat) :
    related Payload ((Payload.layout element attributes kind length).decode pool)
      ((Payload.layout other others kind length).decode pool) := by
  have inner := steps.annotationOf values
  have word := steps.flat pool Layout.u2 trivial
  cases kind with
  | code =>
    refine steps.as _ <| steps.as _ <| steps.seq word <| steps.seq word <|
      steps.seq steps.decodeCode <| steps.seq (steps.flat pool _ ?_) tables
    exact ⟨trivial, trivial, trivial, trivial⟩
  | annotations => exact steps.as _ (steps.counted _ inner)
  | parameterAnnotations => exact steps.as _ (steps.counted _ (steps.counted _ inner))
  | typeAnnotations =>
    have target := steps.flat pool _ TargetKind.layout_plain
    have path := steps.flat pool _ PathStep.layout_plain
    exact steps.as _ <| steps.counted _ <| steps.as _ <| steps.seq target <|
      steps.seq (steps.counted _ path) inner
  | annotationDefault => exact steps.as _ values
  | recordInfo =>
    have name := steps.flat pool (.reference .utf8) trivial
    exact steps.as _ <| steps.counted _ <| steps.as _ <| steps.seq name (steps.seq name tables)
  | _ => exact steps.flat pool _ (Payload.layout_flat rfl length)

theorem member (set : FlagSet) {attributes others : Layout Table}
    (tables : related Table (attributes.decode pool) (others.decode pool)) :
    related (Member set) ((Member.layout set attributes).decode pool)
      ((Member.layout set others).decode pool) :=
  steps.as _ <| steps.seq (steps.flat pool _ trivial) <| steps.seq (steps.flat pool _ trivial) tables

theorem body {attributes others : Layout Table}
    (tables : related Table (attributes.decode pool) (others.decode pool)) :
    related Body ((Body.layout attributes).decode pool) ((Body.layout others).decode pool) := by
  have index := steps.flat pool (.index .ownClass) trivial
  have above := steps.flat pool (.optional .classRef) trivial
  have interfaces := steps.flat pool (.list (.reference .classRef)) trivial
  exact steps.as _ <| steps.seq (steps.flat pool _ trivial) <| steps.seq index <| steps.seq above <|
    steps.seq interfaces <| steps.seq (steps.counted _ (steps.member .ofField tables)) <|
      steps.seq (steps.counted _ (steps.member .ofMethod tables)) tables

/-- The entries of a pool are flat. -/
theorem entry (index : Nat) :
    related Entry ((Entry.layout index).decode .empty) ((Entry.layout index).decode .empty) :=
  steps.flat .empty _ ⟨fun _ _ => rfl, Constant.layout_plain index⟩

theorem fill (count room : Nat) (slots : Array (Option Entry)) :
    related Pool (Pool.fill count room slots) (Pool.fill count room slots) := by
  induction room, slots using Pool.fill.induct with
  | case1 slots => exact steps.pure _
  | case2 slots =>
    refine steps.bind (steps.entry _) fun entry => ?_
    split
    next => exact steps.throw _ _ rfl
    next => exact steps.pure _
  | case3 room slots wide_ih narrow_ih =>
    refine steps.bind (steps.entry _) fun entry => ?_
    split
    next => exact wide_ih entry
    next => exact narrow_ih entry

theorem decodePool (count : Nat) : related Pool (Pool.decode count) (Pool.decode count) := by
  cases count with
  | zero => exact steps.throw _ _ rfl
  | succ room =>
    exact steps.bind (steps.fill _ _ _) fun pool => steps.bind (steps.demand (.validate pool)) fun _ =>
      steps.pure pool

end Layouts
end Stepwise

section Runs

variable {first : Decoder α} {next : α → Decoder β} {s after : State} {value : α} {cause : Error}

theorem bind_of_ok (run : first s = .ok value after) : (first >>= next) s = next value after := by
  change EStateM.bind first next s = _
  simp only [EStateM.bind, run]

theorem bind_of_error (run : first s = .error cause after) :
    (first >>= next) s = .error cause after := by
  change EStateM.bind first next s = _
  simp only [EStateM.bind, run]

/-- The state in which a run ends, however it ends. -/
def reached (decoder : Decoder α) (s : State) : State :=
  match decoder s with
  | .ok _ after | .error _ after => after

theorem reached_of_ok (run : first s = .ok value after) : first.reached s = after := by
  rw [reached, run]

theorem reached_of_error (run : first s = .error cause after) : first.reached s = after := by
  rw [reached, run]

theorem reached_bind_of_ok (run : first s = .ok value after) :
    (first >>= next).reached s = (next value).reached after := by
  rw [reached, bind_of_ok run]
  rfl

theorem reached_onCursor (step : Cursor → Except Error α × Cursor) (s : State) :
    (onCursor step).reached s = { s with cursor := (step s.cursor).2 } := by
  unfold reached onCursor
  rcases step s.cursor with ⟨_ | _, _⟩ <;> rfl

end Runs

/-- Skipping is taking and forgetting. -/
theorem skip_eq (n : Nat) : Decoder.skip n = Decoder.take n >>= fun _ => pure () := by
  funext s
  change Decoder.onCursor _ s = EStateM.bind (Decoder.onCursor _) _ s
  unfold Decoder.onCursor EStateM.bind Cursor.skip
  simp only
  rcases s.cursor.take n with ⟨_ | _, _⟩ <;> rfl

end Decoder

/-- The state inside a level of nesting that is opened here. -/
def State.opened (s : State) : State :=
  { s with trace := s.trace.push (.opened s.cursor.offset) }

def State.closed (s : State) : State := { s with trace := s.trace.push .closed }

namespace Decoder

/-- A level is closed however what lies in it has ended. -/
def closing : EStateM.Result Error State α → EStateM.Result Error State α
  | .ok value after => .ok value after.closed
  | .error cause after => .error cause after.closed

theorem nested_apply (inner : Decoder α) (s : State) :
    Decoder.nested inner s = closing (inner s.opened) := by
  unfold Decoder.nested
  change _ = closing (inner { s with trace := s.trace.push (.opened s.cursor.offset) })
  cases inner { s with trace := s.trace.push (.opened s.cursor.offset) } <;> rfl

theorem closing_eq_error {result : EStateM.Result Error State α} {cause : Error} {after : State}
    (failed : closing result = .error cause after) : ∃ middle, result = .error cause middle := by
  cases result with
  | ok value middle => cases failed
  | error found middle =>
    cases failed
    exact ⟨middle, rfl⟩

theorem reached_nested (inner : Decoder α) (s : State) :
    (Decoder.nested inner).reached s = (inner.reached s.opened).closed := by
  rw [reached, nested_apply, reached]
  cases inner s.opened <;> rfl

/-- Whether the cursor only ever passes bytes that are there and nothing that was recorded is lost. -/
def Forward (decoder : Decoder α) : Prop :=
  ∀ s : State, (∃ bytes, s.cursor.Passes bytes (decoder.reached s).cursor) ∧
    ∃ later, (decoder.reached s).trace.toList = s.trace.toList ++ later

theorem forward_still {decoder : Decoder α} (still : ∀ s, decoder.reached s = s) : decoder.Forward := by
  intro s
  rw [still s]
  exact ⟨⟨[], .refl _⟩, [], (List.append_nil _).symm⟩

theorem forward_onCursor {step : Cursor → Except Error α × Cursor}
    (moves : ∀ cursor : Cursor, ∃ bytes, cursor.Passes bytes (step cursor).2) :
    (onCursor step).Forward := by
  intro s
  rw [reached_onCursor]
  exact ⟨moves s.cursor, [], (List.append_nil _).symm⟩

theorem forward_steps : Stepwise fun _ decoder _ => decoder.Forward where
  pure value := forward_still fun _ => rfl
  throw _ cause _ := forward_still fun _ => rfl
  bind {_ _ first _ next _} starts goes s := by
    obtain ⟨⟨bytes, passed⟩, early, recorded⟩ := starts s
    cases run : first s with
    | ok value after =>
      rw [reached_of_ok run] at passed recorded
      obtain ⟨⟨more, further⟩, late, added⟩ := goes value after
      rw [reached_bind_of_ok run]
      refine ⟨⟨bytes ++ more, passed.trans further⟩, early ++ late, ?_⟩
      rw [added, recorded, List.append_assoc]
    | error cause after =>
      rw [reached_of_error run] at passed recorded
      rw [reached_of_error (bind_of_error run)]
      exact ⟨⟨bytes, passed⟩, early, recorded⟩
  read := forward_onCursor fun cursor => by
    unfold Cursor.read
    split
    next bytes seen => exact ⟨bytes, (Cursor.passes_of_peek? seen).2⟩
    next => exact ⟨cursor.rest, cursor.passes_rest⟩
  take n := forward_onCursor fun cursor => cursor.passes_take n
  skip n := forward_onCursor fun cursor => cursor.passes_take n
  offset := forward_still fun _ => rfl
  record event _ s := ⟨⟨[], .refl _⟩, [event], Array.toList_push⟩

/-- A level is opened before and closed after all that its contents record. -/
theorem nested_trace {decoder : Decoder α} {s : State} {later : List Event}
    (recorded : (decoder.reached s.opened).trace.toList = s.opened.trace.toList ++ later) :
    ((Decoder.nested decoder).reached s).trace.toList =
      s.trace.toList ++ .opened s.cursor.offset :: (later ++ [.closed]) := by
  rw [reached_nested, State.closed, Array.toList_push, recorded, State.opened, Array.toList_push]
  simp

theorem Forward.nested {decoder : Decoder α} (forward : decoder.Forward) :
    (Decoder.nested decoder).Forward := by
  intro s
  obtain ⟨passed, later, recorded⟩ := forward s.opened
  refine ⟨?_, _, nested_trace recorded⟩
  rw [reached_nested]
  exact passed

theorem forward_of_plain (pool : Pool) {layout : Layout α} (plain : layout.Plain True) :
    (layout.decode pool).Forward :=
  forward_steps.layout plain (fun _ => Forward.nested) fun _ _ _ => forward_still fun _ => rfl

end Decoder

namespace ClassFile

open Decoder

/-- Decodes all that a class file consists of, whatever follows it. -/
def contents (limit : Nat) : Decoder ClassFile := do
  let magic : U4 ← Decoder.read
  if magic.value ≠ magicNumber then throw (.wrongMagic magic.value)
  let minor ← Decoder.read
  let major ← Decoder.read
  let poolCount : U2 ← Decoder.read
  let pool ← Pool.decode poolCount.toNat
  record (.poolDecoded pool.entries.length (← offset))
  let body ← (Body.layout (Table.layout limit limit)).decode pool
  return { body with magic, minor, major, poolCount, pool }

/-- Nothing may follow a class file. -/
def finish (file : ClassFile) : Decoder ClassFile := do
  let cursor := (← get).cursor
  if ¬ cursor.isEmpty then throw (.trailingBytes cursor.offset cursor.remaining)
  record (.classDecoded file.version file.fields.items.length file.methods.items.length
    file.attributes.size)
  return file

theorem decodeWithin_eq (limit : Nat) : decodeWithin limit = contents limit >>= finish := by
  simp only [decodeWithin, contents, bind_assoc]
  congr 1
  funext magic
  by_cases right : magic.value = magicNumber
  · simp only [right, ne_eq, not_true_eq_false, ↓reduceIte, pure_bind, bind_assoc]
    rfl
  · simp only [right, ne_eq, not_false_eq_true, ↓reduceIte]
    rfl

theorem contents_related {related : ∀ α : Type, Decoder α → Decoder α → Prop} (steps : Stepwise related)
    (limit other : Nat)
    (body : ∀ pool, related Body ((Body.layout (Table.layout limit limit)).decode pool)
      ((Body.layout (Table.layout other other)).decode pool)) :
    related ClassFile (contents limit) (contents other) := by
  refine steps.bind steps.read fun magic => ?_
  have rest := steps.bind steps.read fun minor : U2 => steps.bind steps.read fun major : U2 =>
    steps.bind steps.read fun poolCount : U2 => steps.bind (steps.decodePool poolCount.toNat) fun pool =>
      steps.bind steps.offset fun place =>
        steps.bind (steps.record (.poolDecoded pool.entries.length place) rfl) fun _ =>
          steps.bind (body pool) fun body =>
            steps.pure ({ body with magic, minor, major, poolCount, pool } : ClassFile)
  by_cases right : magic.value = magicNumber
  · simp only [right, ne_eq, not_true_eq_false, ↓reduceIte]
    exact rest
  · simp only [right, ne_eq, not_false_eq_true, ↓reduceIte]
    exact steps.bind (steps.throw Unit _ rfl) fun _ => rest

/-- Whatever holds across all levels of nesting holds of all contents. -/
theorem contents_steps {related : ∀ α : Type, Decoder α → Decoder α → Prop} (steps : Stepwise related)
    (limit : Nat)
    (across : ∀ {α : Type} {inner other : Decoder α}, related α inner other →
      related α (Decoder.nested inner) (Decoder.nested other))
    (bottom : ∀ (pool : Pool) (α : Type) (limit : Nat),
      related α ((Layout.tooDeep limit).decode pool) ((Layout.tooDeep limit).decode pool)) :
    related ClassFile (contents limit) (contents limit) :=
  contents_related steps limit limit fun pool =>
    steps.layout (Body.layout_plain (Table.layout_plain limit limit)) (fun _ => across)
      fun _ => bottom pool

end ClassFile
end ClassFormat
