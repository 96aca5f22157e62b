import ClassFormat.Proofs.Stepwise

/-! Properties of layouts that pass from parts to wholes. A property that all simple layouts have and
all ways to put layouts together preserve holds of whatever the format is put together from. -/
namespace ClassFormat

/-- The leading bytes that the format knows, each with its complaint. -/
inductive Tagging.Standard : {κ : Type} → Tagging κ → Prop where
  | constant (index : Nat) : Standard ⟨Tag.ofByte?, fun tag offset => .unknownConstant tag index offset⟩
  | element : Standard ⟨ElementKind.ofByte?, .unknownElement⟩
  | target : Standard ⟨TargetKind.ofByte?, .unknownTarget⟩
  | step : Standard ⟨PathKind.ofByte?, .unknownPathStep⟩
  | frame : Standard ⟨FrameKind.ofByte?, .unknownFrame⟩
  | verification : Standard ⟨VerificationKind.ofByte?, .unknownVerification⟩

namespace Layout

/-- A property that passes from parts to wholes. Code, attributes and levels of nesting are left out,
since most properties treat them in a way of their own; references are there if they are `linked`. -/
structure Closed (linked : Prop) (holds : ∀ α : Type, Layout α → Prop) : Prop where
  nothing : holds Unit .nothing
  word {κ : Type} (width : Word κ) : holds (Scalar κ) (.word width)
  flags (set : FlagSet) : holds (Scalar (Flags set)) (.flags set)
  index (target : Target) : linked → holds U2 (.index target)
  indexPair (first second : Target) : linked → holds (U2 × U2) (.indexPair first second)
  seq {α β : Type} {first : Layout α} {second : Layout β} :
    holds α first → holds β second → holds (α × β) (.seq first second)
  as {α β : Type} (shape : Shape α β) {parts : Layout α} : holds α parts → holds β (.as shape parts)
  times {α : Type} (n : Nat) {item : Layout α} : holds α item → holds (List α) (.times n item)
  counted {κ α : Type} (width : Word κ) {item : Layout α} :
    holds α item → holds (Counted κ α) (.counted width item)
  tagged {κ α : Type} {tagging : Tagging κ} {body : κ → Layout α} : tagging.Standard →
    (∀ kind, holds α (body kind)) → holds (U1 × α) (.tagged tagging body)
  text (slot : Nat) : holds (U2 × String) (.text slot)
  looseText (length : Nat) : holds String (.looseText length)

/-- A layout of nothing but simple parts. -/
def Flat (linked : Prop) : Layout α → Prop
  | nothing | word _ | flags _ | text _ | looseText _ => True
  | index _ | indexPair _ _ => linked
  | seq first second => first.Flat linked ∧ second.Flat linked
  | as _ parts => parts.Flat linked
  | times _ item | counted _ item => item.Flat linked
  | tagged tagging body => tagging.Standard ∧ ∀ kind, (body kind).Flat linked
  | code | entry _ | table _ | nested _ | tooDeep _ => False

theorem Closed.flat {linked : Prop} {holds : ∀ α : Type, Layout α → Prop} (closed : Closed linked holds)
    {layout : Layout α} (flat : layout.Flat linked) : holds α layout := by
  induction layout with
  | nothing => exact closed.nothing
  | word width => exact closed.word width
  | flags set => exact closed.flags set
  | index target => exact closed.index target flat
  | indexPair first second => exact closed.indexPair first second flat
  | seq first second first_ih second_ih => exact closed.seq (first_ih flat.1) (second_ih flat.2)
  | as shape parts ih => exact closed.as shape (ih flat)
  | times n item ih => exact closed.times n (ih flat)
  | counted width item ih => exact closed.counted width (ih flat)
  | tagged tagging body ih => exact closed.tagged flat.1 fun kind => ih kind (flat.2 kind)
  | text slot => exact closed.text slot
  | looseText length => exact closed.looseText length
  | code | entry | table | nested | tooDeep => cases flat

end Layout

/-! ### Flat layouts of the format -/

section Flat

/-- The references of an entry are no part of how it is laid out. -/
theorem Entry.layout_flat (index : Nat) : (Entry.layout index).Flat False := by
  refine ⟨.constant index, fun tag => ?_⟩
  cases tag <;> simp [Constant.layout, Layout.u1, Layout.u2, Layout.Flat]

theorem VerificationType.layout_flat : VerificationType.layout.Flat True := by
  refine ⟨.verification, fun kind => ⟨trivial, ?_⟩⟩
  cases kind <;> simp [VerificationKind.layout, Layout.u2, Layout.reference, Layout.Flat]

theorem Frame.layout_flat : Frame.layout.Flat True := by
  refine ⟨.frame, fun kind => ?_⟩
  cases kind <;>
    simp [FrameKind.layout, Layout.list, Layout.u2, Layout.Flat, VerificationType.layout_flat]

theorem TargetKind.layout_flat :
    (Layout.tagged ⟨TargetKind.ofByte?, .unknownTarget⟩ TargetKind.layout).Flat True := by
  refine ⟨.target, fun kind => ?_⟩
  cases kind <;> simp [TargetKind.layout, Layout.list, Layout.u1, Layout.u2, Layout.Flat]

theorem PathStep.layout_flat : PathStep.layout.Flat True := ⟨.step, fun _ => ⟨trivial, trivial⟩⟩

theorem ModuleInfo.layout_flat : ModuleInfo.layout.Flat True := by
  simp [ModuleInfo.layout, Requirement.layout, PackageDirective.layout, Provision.layout,
    Layout.list, Layout.reference, Layout.optional, Layout.Flat]

theorem Handler.layout_flat : Handler.layout.Flat True := ⟨trivial, trivial, trivial, trivial⟩

theorem Payload.layout_unnested {kind : AttributeKind} (flat : kind.nests = false)
    (element : Layout Element) (attributes : Layout Table) (length : Nat) :
    (Payload.layout element attributes kind length).Flat True := by
  cases kind with
  | stackMapTable => exact Frame.layout_flat
  | moduleInfo => exact ModuleInfo.layout_flat
  | code | annotations | parameterAnnotations | typeAnnotations | annotationDefault | recordInfo =>
    cases flat
  | _ =>
    simp [Payload.layout, InnerClass.layout, LineNumber.layout, LocalVariable.layout,
      BootstrapMethod.layout, Parameter.layout, Layout.list, Layout.shortList, Layout.reference,
      Layout.optional, Layout.u2, Layout.Flat]

end Flat

namespace Layout.Closed

variable {holds : ∀ α : Type, Layout α → Prop} (closed : Closed True holds)
include closed

theorem annotationOf {element : Layout Element} (values : holds Element element) :
    holds Annotation ( Annotation.layoutWith element) :=
  have name : holds U2 (.reference .utf8) := closed.flat trivial
  closed.as _ <| closed.seq name <| closed.counted _ <| closed.seq name values

theorem elementWith {inner : Layout Annotation} {element : Layout Element}
    (annotated : holds Annotation inner) (values : holds Element element) :
    holds Element (Element.layoutWith inner element) := by
  refine closed.as _ <| closed.tagged .element fun kind => ?_
  cases kind with
  | annotated => exact closed.as _ annotated
  | array => exact closed.as _ (closed.counted _ values)
  | _ => exact closed.flat trivial

/-- The payload of an attribute of any kind but code. -/
theorem payload {element : Layout Element} {attributes : Layout Table} (values : holds Element element)
    (tables : holds Table attributes) {kind : AttributeKind} (other : kind ≠ .code) (length : Nat) :
    holds Payload (Payload.layout element attributes kind length) := by
  have inner := closed.annotationOf values
  cases kind with
  | code => exact absurd rfl other
  | annotations => exact closed.as _ (closed.counted _ inner)
  | parameterAnnotations => exact closed.as _ (closed.counted _ (closed.counted _ inner))
  | typeAnnotations =>
    have target := closed.flat TargetKind.layout_flat
    have path := closed.flat PathStep.layout_flat
    exact closed.as _ <| closed.counted _ <| closed.as _ <| closed.seq target <|
      closed.seq (closed.counted _ path) inner
  | annotationDefault => exact closed.as _ values
  | recordInfo =>
    have name : holds U2 (.reference .utf8) := closed.flat trivial
    exact closed.as _ <| closed.counted _ <| closed.as _ <| closed.seq name (closed.seq name tables)
  | _ => exact closed.flat (Payload.layout_unnested rfl element attributes length)

theorem codeWith {attributes : Layout Table} (code : holds (U4 × Array Instruction) .code)
    (tables : holds Table attributes) : holds Code (Code.layout attributes) :=
  have word : holds U2 .u2 := closed.flat trivial
  have handlers := closed.counted _ (closed.flat Handler.layout_flat)
  closed.as _ <| closed.seq word <| closed.seq word <| closed.seq code <| closed.seq handlers tables

/-- The payload of an attribute of any kind, code included. -/
theorem payloadOf {element : Layout Element} {attributes : Layout Table}
    (code : holds (U4 × Array Instruction) .code) (values : holds Element element)
    (tables : holds Table attributes) (kind : AttributeKind) (length : Nat) :
    holds Payload (Payload.layout element attributes kind length) := by
  by_cases same : kind = .code
  · subst same
    exact closed.as _ (closed.codeWith code tables)
  · exact closed.payload values tables same length

theorem member (set : FlagSet) {attributes : Layout Table} (tables : holds Table attributes) :
    holds (Member set) (Member.layout set attributes) :=
  closed.as _ <| closed.seq (closed.flags set) <| closed.seq (closed.indexPair _ _ trivial) tables

/-- All of a body but its access flags. -/
theorem behindFlags {attributes : Layout Table} (tables : holds Table attributes) :
    holds _ (.seq (.index .ownClass) (.seq (.optional .classRef) (.seq (.list (.reference .classRef))
      (.seq (.list (Member.layout .ofField attributes))
        (.seq (.list (Member.layout .ofMethod attributes)) attributes))))) :=
  have name : holds U2 (.reference .classRef) := closed.flat trivial
  closed.seq (closed.index .ownClass trivial) <| closed.seq (closed.index _ trivial) <|
    closed.seq (closed.counted _ name) <| closed.seq (closed.counted _ (closed.member .ofField tables)) <|
      closed.seq (closed.counted _ (closed.member .ofMethod tables)) tables

theorem body {attributes : Layout Table} (tables : holds Table attributes) :
    holds Body (Body.layout attributes) :=
  closed.as _ <| closed.seq (closed.flags .ofClass) (closed.behindFlags tables)

end Layout.Closed

namespace Layout

/-- A property that may depend on how many levels of nesting are left, of `limit` in all. -/
structure Graded (limit : Nat) (holds : Nat → ∀ α : Type, Layout α → Prop) : Prop where
  closed (levels : Nat) : Closed True (holds levels)
  bottom (α : Type) : holds 0 α (.tooDeep limit)
  across {levels : Nat} {α : Type} {inner : Layout α} :
    holds levels α inner → holds (levels + 1) α (.nested inner)
  table {levels : Nat} {element : Layout Element} {attributes : Layout Table} :
    holds levels Element element → holds levels Table attributes →
      holds levels Table (.table (.entry (Payload.layout element attributes)))

namespace Graded

variable {limit : Nat} {holds : Nat → ∀ α : Type, Layout α → Prop} (graded : Graded limit holds)
include graded

theorem element (levels : Nat) : holds levels Element (Element.layout limit levels) := by
  induction levels with
  | zero => exact (graded.closed 0).elementWith (graded.bottom _) (graded.bottom _)
  | succ levels ih =>
    have inner := (graded.closed levels).annotationOf ih
    exact (graded.closed (levels + 1)).elementWith (graded.across inner) (graded.across ih)

theorem tables (levels : Nat) : holds levels Table (Table.layout limit levels) := by
  induction levels with
  | zero => exact graded.table (graded.element 0) (graded.bottom _)
  | succ levels ih => exact graded.table (graded.element (levels + 1)) (graded.across ih)

theorem body (levels : Nat) : holds levels Body (Body.layout (Table.layout limit levels)) :=
  (graded.closed levels).body (graded.tables levels)

end Graded

/-- Whether a layout counts levels of nesting as the format does, where some are left of `limit` in all: there is
one less for what is nested, none is left where a level is refused, and tables are made of attributes. -/
def Levelled (limit : Nat) : Layout α → Nat → Prop
  | nothing | word _ | flags _ | index _ | indexPair _ _ | text _ | looseText _ | code => fun _ => True
  | seq first second => fun levels => first.Levelled limit levels ∧ second.Levelled limit levels
  | as _ parts => fun levels => parts.Levelled limit levels
  | times _ item | counted _ item => fun levels => item.Levelled limit levels
  | tagged tagging body => fun levels => tagging.Standard ∧ ∀ kind, (body kind).Levelled limit levels
  | entry payload => fun levels => ∀ kind length, (payload kind length).Levelled limit levels
  | table item => fun levels =>
    (∃ payload, item = entry payload) ∧ item.Levelled limit levels
  | nested inner => fun levels => ∃ below, levels = below + 1 ∧ inner.Levelled limit below
  | tooDeep bound => fun levels => levels = 0 ∧ bound = limit

theorem levelled_closed (linked : Prop) (limit levels : Nat) :
    Closed linked fun _ layout => layout.Levelled limit levels where
  nothing := trivial
  word _ := trivial
  flags _ := trivial
  index _ _ := trivial
  indexPair _ _ _ := trivial
  seq {_ _ _ _} first second := ⟨first, second⟩
  as {_ _} _ {_} parts := parts
  times {_} _ {_} item := item
  counted {_ _} _ {_} item := item
  tagged {_ _ _ _} standard each := ⟨standard, each⟩
  text _ := trivial
  looseText _ := trivial

theorem levelled_graded (limit : Nat) :
    Graded limit fun levels _ layout => layout.Levelled limit levels where
  closed := levelled_closed True limit
  bottom _ := ⟨rfl, rfl⟩
  across {_ _ _} inner := ⟨_, rfl, inner⟩
  table {levels _ _} values tables :=
    ⟨⟨_, rfl⟩, (levelled_closed True limit levels).payloadOf trivial values tables⟩

theorem Levelled.plain {limit levels : Nat} {layout : Layout α} (levelled : layout.Levelled limit levels) :
    layout.Plain True := by
  induction layout generalizing levels with
  | seq first second first_ih second_ih => exact ⟨first_ih levelled.1, second_ih levelled.2⟩
  | as shape parts ih => exact ih levelled
  | times n item ih => exact ih levelled
  | counted width item ih => exact ih levelled
  | tagged tagging body ih =>
    refine ⟨fun _ _ => ?_, fun kind => ih kind (levelled.2 kind)⟩
    cases levelled.1 <;> rfl
  | entry payload ih => exact fun kind length => ih kind length (levelled kind length)
  | table item ih => exact ih levelled.2
  | nested inner ih =>
    obtain ⟨_, _, inside⟩ := levelled
    exact ⟨trivial, ih inside⟩
  | _ => trivial

end Layout

namespace Decoder

/-- A property that simple steps have, failures included, and sequences of steps share with them. -/
structure Sequential (holds : ∀ α : Type, Decoder α → Prop) : Prop where
  pure {α : Type} (value : α) : holds α (Pure.pure value)
  throw (α : Type) (cause : Error) : holds α (throw cause)
  bind {α β : Type} {first : Decoder α} {next : α → Decoder β} :
    holds α first → (∀ value, holds β (next value)) → holds β (first >>= next)
  read {κ : Type} [Word κ] : holds (Scalar κ) Decoder.read
  take (n : Nat) : holds Bytes (Decoder.take n)

namespace Sequential

variable {holds : ∀ α : Type, Decoder α → Prop} (steps : Sequential holds)
include steps

theorem demand (outcome : Except Error α) : holds α (Decoder.demand outcome) := by
  cases outcome with
  | ok value => exact steps.pure value
  | error cause => exact steps.throw α cause

theorem timesFrom {item : Decoder α} (each : holds α item) (n : Nat) (decoded : List α) :
    holds (List α) (Decoder.timesFrom item n decoded) := by
  induction n generalizing decoded with
  | zero => exact steps.pure decoded.reverse
  | succ n ih => exact steps.bind each fun value => ih (value :: decoded)

/-- What is put together from simple parts is decoded in simple steps. -/
theorem closed (pool : Pool) (linked : Prop) :
    Layout.Closed linked fun α layout => holds α (layout.decode pool) where
  nothing := steps.pure ()
  word width := steps.read
  flags set := steps.bind steps.read fun _ => steps.pure _
  index target _ := steps.bind steps.read fun _ => steps.bind (steps.demand _) fun _ => steps.pure _
  indexPair first second _ := steps.bind steps.read fun _ => steps.bind steps.read fun _ =>
    steps.bind (steps.demand _) fun _ => steps.bind (steps.demand _) fun _ => steps.pure _
  seq {_ _ _ _} head tail := steps.bind head fun _ => steps.bind tail fun _ => steps.pure _
  as {_ _} shape {_} inner := steps.bind inner fun _ => steps.pure _
  times {_} n {_} each := steps.timesFrom each n []
  counted {_ _} width {_} each := steps.bind (@Sequential.read _ steps _ width) fun _ =>
    steps.bind (steps.timesFrom each _ []) fun _ => steps.pure _
  tagged {_ _ _ _} _ each := by
    rw [Layout.decode]
    refine steps.bind steps.read fun tag => ?_
    split
    next kind known => exact steps.bind (each kind) fun _ => steps.pure _
    next => exact steps.throw _ _
  text slot := by
    refine steps.bind steps.read fun length => steps.bind (steps.take _) fun bytes => ?_
    split
    next => exact steps.pure _
    next => exact steps.throw _ _
  looseText length := steps.bind (steps.take length) fun _ => steps.pure _

theorem entry (index : Nat) : holds Entry ((Entry.layout index).decode .empty) :=
  (steps.closed .empty False).flat (Entry.layout_flat index)

theorem fill (count room : Nat) (slots : Array (Option Entry)) :
    holds Pool (Pool.fill count room slots) := by
  induction room, slots using Pool.fill.induct with
  | case1 slots => exact steps.pure _
  | case2 slots =>
    refine steps.bind (steps.entry _) fun entry => ?_
    split
    next => exact steps.throw _ _
    next => exact steps.pure _
  | case3 room slots wide_ih narrow_ih =>
    refine steps.bind (steps.entry _) fun entry => ?_
    split
    next => exact wide_ih entry
    next => exact narrow_ih entry

theorem decodePool (count : Nat) : holds Pool (Pool.decode count) := by
  cases count with
  | zero => exact steps.throw _ _
  | succ room =>
    exact steps.bind (steps.fill _ _ _) fun pool => steps.bind (steps.demand pool.validate) fun _ =>
      steps.pure pool

end Sequential
end Decoder
end ClassFormat
