import ClassFormat.Proofs.Trees

/-! The grammar of element values, annotations and type annotations. The tree itself says how far
its values are nested; a decoder with so many levels of nesting left accepts the trees that need no
more of them. -/
namespace ClassFormat

variable {pool : Pool}

section Elements

def constantLetters : List Char := ['B', 'C', 'D', 'F', 'I', 'J', 'S', 'Z', 's']

/-- The tags that announce a value of this form. -/
def ElementValue.letters : ElementValue → List Char
  | .constant _ => constantLetters
  | .enumeration .. => ['e']
  | .classText _ => ['c']
  | .annotated _ => ['@']
  | .array _ => ['[']

mutual

/-- How many levels of nesting there are below a value. An array that is empty needs none. -/
def ElementValue.nesting : ElementValue → Nat
  | .constant _ | .enumeration .. | .classText _ => 0
  | .annotated content => content.nesting + 1
  | .array ⟨_, values⟩ => Element.nestingOfAll values

def Element.nesting : Element → Nat
  | ⟨_, value⟩ => value.nesting

/-- The values of an array are one level further down. -/
def Element.nestingOfAll : List Element → Nat
  | [] => 0
  | value :: rest => max (value.nesting + 1) (Element.nestingOfAll rest)

def Annotation.nesting : Annotation → Nat
  | ⟨_, ⟨_, pairs⟩⟩ => Annotation.nestingOfPairs pairs

def Annotation.nestingOfPairs : List (U2 × Element) → Nat
  | [] => 0
  | (_, value) :: rest => max value.nesting ( Annotation.nestingOfPairs rest)

end

mutual

/-- Tags announce what follows them, and counts are the lengths of their lists. -/
def ElementValue.Formed : ElementValue → Prop
  | .constant _ | .enumeration .. | .classText _ => True
  | .annotated content => content.Formed
  | .array ⟨count, values⟩ => count.toNat = values.length ∧ Element.AllFormed values

def Element.Formed : Element → Prop
  | ⟨tag, value⟩ => Char.ofNat tag.toNat ∈ value.letters ∧ value.Formed

def Element.AllFormed : List Element → Prop
  | [] => True
  | value :: rest => value.Formed ∧ Element.AllFormed rest

def Annotation.Formed : Annotation → Prop
  | ⟨_, ⟨count, pairs⟩⟩ => count.toNat = pairs.length ∧ Annotation.PairsFormed pairs

def Annotation.PairsFormed : List (U2 × Element) → Prop
  | [] => True
  | (_, value) :: rest => value.Formed ∧ Annotation.PairsFormed rest

end

mutual

/-- Constants are of the kind that the tag demands; all else that is referred to is text. -/
def ElementValue.write (tag : U1) : ElementValue → Put ElementValue
  | .constant index => return .constant (← Put.index (Element.constantTarget tag) index.value)
  | .enumeration type name =>
    return .enumeration (← Put.reference .utf8 type.value) (← Put.reference .utf8 name.value)
  | .classText descriptor => return .classText (← Put.reference .utf8 descriptor.value)
  | .annotated content => return .annotated (← content.write)
  | .array ⟨count, values⟩ => return .array (← Counted.writeWith count (Element.writeAll values))

def Element.write : Element → Put Element
  | ⟨tag, value⟩ => return ⟨← Put.word tag.value, ← value.write tag⟩

def Element.writeAll : List Element → Put (List Element)
  | [] => pure []
  | value :: rest => return (← value.write) :: (← Element.writeAll rest)

def Annotation.write : Annotation → Put Annotation
  | ⟨type, ⟨count, pairs⟩⟩ =>
    return ⟨← Put.reference .utf8 type.value, ← Counted.writeWith count ( Annotation.writePairs pairs)⟩

def Annotation.writePair : U2 × Element → Put (U2 × Element)
  | (name, value) => return (← Put.reference .utf8 name.value, ← value.write)

def Annotation.writePairs : List (U2 × Element) → Put (List (U2 × Element))
  | [] => pure []
  | pair :: rest => return (← Annotation.writePair pair) :: (← Annotation.writePairs rest)

end

theorem Element.writeAll_eq (values : List Element) :
    Element.writeAll values = Put.all Element.write values := by
  induction values with
  | nil => rfl
  | cons value rest ih => rw [Element.writeAll, ih, Put.all]

theorem Annotation.writePairs_eq (pairs : List (U2 × Element)) :
    Annotation.writePairs pairs = Put.all Annotation.writePair pairs := by
  induction pairs with
  | nil => rfl
  | cons pair rest ih => rw [ Annotation.writePairs, ih, Put.all]

theorem Element.allFormed_iff {values : List Element} :
    Element.AllFormed values ↔ ∀ value ∈ values, value.Formed := by
  induction values with
  | nil => simp [Element.AllFormed]
  | cons value rest ih => simp [Element.AllFormed, ih]

theorem Annotation.pairsFormed_iff {pairs : List (U2 × Element)} :
    Annotation.PairsFormed pairs ↔ ∀ pair ∈ pairs, pair.2.Formed := by
  induction pairs with
  | nil => simp [ Annotation.PairsFormed]
  | cons pair rest ih => simp [ Annotation.PairsFormed, ih]

theorem Element.nestingOfAll_le {values : List Element} {levels : Nat} :
    Element.nestingOfAll values ≤ levels ↔ ∀ value ∈ values, value.nesting + 1 ≤ levels := by
  induction values with
  | nil => simp [Element.nestingOfAll]
  | cons value rest ih => rw [Element.nestingOfAll, Nat.max_le, ih, List.forall_mem_cons]

theorem Annotation.nestingOfPairs_le {pairs : List (U2 × Element)} {levels : Nat} :
    Annotation.nestingOfPairs pairs ≤ levels ↔ ∀ pair ∈ pairs, pair.2.nesting ≤ levels := by
  induction pairs with
  | nil => simp [ Annotation.nestingOfPairs]
  | cons pair rest ih => rw [ Annotation.nestingOfPairs, Nat.max_le, ih, List.forall_mem_cons]

end Elements

section Levels

/-! ### One level of the grammar

What stands one level further down is given, as it is to the layouts. -/

/-- A value that is formed if what it holds is. -/
def ElementValue.FormedWith (inner : Annotation → Prop) (element : Element → Prop) : ElementValue → Prop
  | .constant _ | .enumeration .. | .classText _ => True
  | .annotated content => inner content
  | .array values => values.Formed element

def Element.FormedWith (inner : Annotation → Prop) (element : Element → Prop) (self : Element) : Prop :=
  Char.ofNat self.tag.toNat ∈ self.value.letters ∧ self.value.FormedWith inner element

/-- A tree that needs no more levels than there are. -/
def Element.Within (levels : Nat) (self : Element) : Prop := self.Formed ∧ self.nesting ≤ levels

def Annotation.Within (levels : Nat) (self : Annotation) : Prop := self.Formed ∧ self.nesting ≤ levels

theorem Annotation.within_iff {levels : Nat} {self : Annotation} :
    self.Within levels ↔ self.pairs.Formed fun pair => pair.2.Within levels := by
  rcases self with ⟨type, count, pairs⟩
  simp only [Within, Formed, nesting, pairsFormed_iff, nestingOfPairs_le, Element.Within]
  constructor
  · rintro ⟨⟨counted, formed⟩, low⟩
    exact ⟨counted, fun pair member => ⟨formed pair member, low pair member⟩⟩
  · rintro ⟨counted, each⟩
    exact ⟨⟨counted, fun pair member => (each pair member).1⟩, fun pair member => (each pair member).2⟩

theorem Element.within_iff {levels : Nat} {self : Element} :
    self.Within levels ↔ self.FormedWith (fun content => content.Formed ∧ content.nesting < levels)
      fun value => value.Formed ∧ value.nesting < levels := by
  rcases self with ⟨tag, value⟩
  cases value with
  | constant | enumeration | classText =>
    simp [Within, Formed, ElementValue.Formed, nesting, ElementValue.nesting, FormedWith,
      ElementValue.FormedWith]
  | annotated content =>
    simp only [Within, Formed, ElementValue.Formed, nesting, ElementValue.nesting, FormedWith,
      ElementValue.FormedWith, Nat.succ_le_iff, and_assoc]
  | array values =>
    rcases values with ⟨count, values⟩
    simp only [Within, Formed, ElementValue.Formed, nesting, ElementValue.nesting, FormedWith,
      ElementValue.FormedWith, allFormed_iff, nestingOfAll_le, Nat.succ_le_iff]
    constructor
    · rintro ⟨⟨announced, counted, formed⟩, low⟩
      exact ⟨announced, counted, fun value member => ⟨formed value member, low value member⟩⟩
    · rintro ⟨announced, counted, each⟩
      exact ⟨⟨announced, counted, fun value member => (each value member).1⟩,
        fun value member => (each value member).2⟩

/-- The tags that announce a kind of value. -/
def ElementKind.letters : ElementKind → List Char
  | .constant .integer => ['B', 'C', 'I', 'S', 'Z']
  | .constant .double => ['D']
  | .constant .float => ['F']
  | .constant .long => ['J']
  | .constant .utf8 => ['s']
  | .constant _ => []
  | .enumeration => ['e']
  | .classText => ['c']
  | .annotated => ['@']
  | .array => ['[']

theorem ElementKind.ofByte?_eq_some {tag : UInt8} {kind : ElementKind} :
    ofByte? tag = some kind ↔ Char.ofNat tag.toNat ∈ kind.letters := by
  unfold ofByte?
  generalize Char.ofNat tag.toNat = letter
  constructor
  · intro known
    split at known <;> cases known <;> decide
  · intro member
    cases kind with
    | constant kind => cases kind <;> simp [letters] at member <;> grind
    | _ =>
      simp [letters] at member
      subst member
      rfl

/-- What asks for a constant asks for one of some kind. -/
theorem ElementKind.mem_constantLetters {letter : Char} :
    letter ∈ constantLetters ↔ ∃ kind, letter ∈ (ElementKind.constant kind).letters := by
  constructor
  · have asked : ∀ letter ∈ constantLetters,
        ∃ kind ∈ ([.integer, .double, .float, .long, .utf8] : List Tag),
          letter ∈ (ElementKind.constant kind).letters := by simp [constantLetters, letters]
    intro member
    rcases asked letter member with ⟨kind, -, asks⟩
    exact ⟨kind, asks⟩
  · rintro ⟨kind, asks⟩
    have all : ∀ letter ∈ (ElementKind.constant kind).letters, letter ∈ constantLetters := by
      cases kind <;> simp [constantLetters, letters]
    exact all letter asks

section Spelt

variable {inner : Layout Annotation} {element : Layout Element} {annotated : Annotation → Prop}
  {listed : Element → Prop}

theorem Element.write_array (count : U2) (values : List Element) (tag : U1) :
    ElementValue.write tag (.array ⟨count, values⟩) = do
      return .array (← Counted.write Element.write ⟨count, values⟩) := by
  rw [ElementValue.write, writeAll_eq]
  rfl

theorem ElementValue.told (inside : inner.Spelt pool annotated Annotation.write)
    (below : element.Spelt pool listed Element.write) {tag : U1} {kind : ElementKind}
    (known : ElementKind.ofByte? tag.value = some kind) (value : ElementValue) :
    Put.Tells pool (kind.layout inner element) value id (value.write tag) := by
  cases kind with
  | constant kind =>
    cases value with
    | constant index =>
      rw [ElementValue.write, Element.constantTarget_eq known]
      exact .as rfl (.last (.index _ index))
    | _ => exact .misshapen rfl
  | enumeration =>
    cases value with
    | enumeration type name =>
      rw [ElementValue.write]
      exact .as rfl .indexPair
    | _ => exact .misshapen rfl
  | classText =>
    cases value with
    | classText descriptor =>
      rw [ElementValue.write]
      exact .as rfl (.last (.index _ descriptor))
    | _ => exact .misshapen rfl
  | annotated =>
    cases value with
    | annotated content =>
      rw [ElementValue.write]
      exact .as rfl (.last (inside.told content))
    | _ => exact .misshapen rfl
  | array =>
    cases value with
    | array values =>
      rw [Element.write_array]
      exact .as rfl (.last (.counted fun value _ => below.told value))
    | _ => exact .misshapen rfl

theorem ElementValue.formed_of_writes (inside : inner.Spelt pool annotated Annotation.write)
    (below : element.Spelt pool listed Element.write) {kind : ElementKind} {offset : Nat}
    {value : ElementValue} {bytes : Bytes}
    (written : (kind.layout inner element).Writes pool offset value bytes) :
    (∀ letter ∈ kind.letters, letter ∈ value.letters) ∧ value.FormedWith annotated listed := by
  cases kind with
  | constant kind =>
    rcases written with ⟨_, rfl, -⟩
    exact ⟨fun _ asks => ElementKind.mem_constantLetters.mpr ⟨kind, asks⟩, trivial⟩
  | enumeration | classText =>
    rcases written with ⟨_, rfl, -⟩
    exact ⟨fun _ member => member, trivial⟩
  | annotated =>
    rcases written with ⟨content, rfl, written⟩
    exact ⟨fun _ member => member, inside.sound _ content _ written⟩
  | array =>
    rcases written with ⟨values, rfl, written⟩
    exact ⟨fun _ member => member, below.counted.sound _ values _ written⟩

/-- A value that is formed is of a kind that its tag selects. -/
theorem ElementValue.laid (inside : inner.Spelt pool annotated Annotation.write)
    (below : element.Spelt pool listed Element.write) {tag : U1} {value : ElementValue}
    (announced : Char.ofNat tag.toNat ∈ value.letters) (formed : value.FormedWith annotated listed) :
    ∃ kind, ElementKind.ofByte? tag.value = some kind ∧
      Put.Lays pool (kind.layout inner element) id (value.write tag) := by
  simp only [ElementKind.ofByte?_eq_some]
  cases value with
  | constant index =>
    rcases ElementKind.mem_constantLetters.mp announced with ⟨kind, known⟩
    refine ⟨.constant kind, known, ?_⟩
    rw [ElementValue.write, Element.constantTarget_eq (ElementKind.ofByte?_eq_some.mpr known)]
    exact .as (.last (.index _ _))
  | enumeration type name =>
    refine ⟨.enumeration, announced, ?_⟩
    rw [ElementValue.write]
    exact .as .indexPair
  | classText descriptor =>
    refine ⟨.classText, announced, ?_⟩
    rw [ElementValue.write]
    exact .as (.last (.index _ _))
  | annotated content =>
    refine ⟨.annotated, announced, ?_⟩
    rw [ElementValue.write]
    exact .as (.last (inside.laid content formed))
  | array values =>
    refine ⟨.array, announced, ?_⟩
    rw [Element.write_array]
    exact .as (.last (.counted formed.counted fun value member => below.laid value (formed.items value member)))

theorem Element.spelt (inside : inner.Spelt pool annotated Annotation.write)
    (below : element.Spelt pool listed Element.write) :
    (Element.layoutWith inner element).Spelt pool (Element.FormedWith annotated listed) Element.write where
  told := by
    rintro ⟨tag, value⟩
    rw [Element.write]
    exact .as rfl (.tagged fun kind known => .last (ElementValue.told inside below known value))
  sound := by
    rintro offset _ _ ⟨⟨tag, value⟩, rfl, kind, rest, known, rfl, rfl, written⟩
    rcases ElementValue.formed_of_writes inside below written with ⟨announced, formed⟩
    exact ⟨announced _ (ElementKind.ofByte?_eq_some.mp known), formed⟩
  laid := by
    rintro ⟨tag, value⟩ ⟨announced, formed⟩
    rcases ElementValue.laid inside below announced formed with ⟨kind, known, lays⟩
    rw [Element.write]
    exact .as (.tagged kind known fun _ => .last lays)

theorem Annotation.pair_spelt (below : element.Spelt pool listed Element.write) :
    (Layout.seq (.reference .utf8) element).Spelt pool (fun pair => listed pair.2) Annotation.writePair where
  told := by
    rintro ⟨name, value⟩
    rw [ Annotation.writePair]
    exact .bind (.index _ name) (.last (below.told value))
  sound := by
    rintro offset ⟨name, value⟩ _ ⟨_, ys, rfl, -, written⟩
    exact below.sound _ value ys written
  laid := by
    rintro ⟨name, value⟩ formed
    rw [ Annotation.writePair]
    exact .bind (.index _ _) fun _ => .last (below.laid value formed)

theorem Annotation.spelt (below : element.Spelt pool listed Element.write) :
    ( Annotation.layoutWith element).Spelt pool
      (fun self => self.pairs.Formed fun pair => listed pair.2) Annotation.write where
  told := by
    rintro ⟨type, count, pairs⟩
    rw [ Annotation.write, Annotation.writePairs_eq]
    exact .as rfl (.bind (.index _ type) (.last (.counted fun pair _ => (pair_spelt below).told pair)))
  sound := by
    rintro offset _ _ ⟨⟨type, pairs⟩, rfl, _, _, rfl, -, written⟩
    exact (pair_spelt below).counted.sound _ pairs _ written
  laid := by
    rintro ⟨type, count, pairs⟩ ⟨counted, formed⟩
    rw [ Annotation.write, Annotation.writePairs_eq]
    have list : Counted.Formed (fun pair => listed pair.2) ⟨count, pairs⟩ := ⟨counted, formed⟩
    exact .as (.bind (.index _ _) fun _ => .last ((pair_spelt below).counted.laid _ list))

end Spelt

theorem Element.spelt_layout (limit levels : Nat) :
    (Element.layout limit levels).Spelt pool (Element.Within levels) Element.write := by
  refine Layout.Spelt.congr ?_ fun _ => Element.within_iff
  induction levels with
  | zero => exact Element.spelt (.tooDeep fun _ deep => by omega) (.tooDeep fun _ deep => by omega)
  | succ levels ih =>
    have below : (Element.layout limit levels).Spelt pool (Element.Within levels) Element.write :=
      ih.congr fun _ => Element.within_iff
    refine Element.spelt ((( Annotation.spelt below).congr fun content => ?_).nested)
      ((below.congr fun value => ?_).nested)
    · rw [← Annotation.within_iff, Annotation.Within, Nat.lt_succ_iff]
    · rw [Element.Within, Nat.lt_succ_iff]

theorem Annotation.spelt_layout (limit levels : Nat) :
    ( Annotation.layoutWith <| Element.layout limit levels).Spelt pool ( Annotation.Within levels)
      Annotation.write :=
  ( Annotation.spelt (Element.spelt_layout limit levels)).congr fun _ => Annotation.within_iff

end Levels

section Types

/-- The target types of a form. -/
def TargetKind.Covers (type : Nat) : TargetKind → Prop
  | typeParameter => type ≤ 0x01
  | superType => type = 0x10
  | typeParameterBound => 0x11 ≤ type ∧ type ≤ 0x12
  | empty => 0x13 ≤ type ∧ type ≤ 0x15
  | formalParameter => type = 0x16
  | throws => type = 0x17
  | localVariable => 0x40 ≤ type ∧ type ≤ 0x41
  | catchType => type = 0x42
  | instruction => 0x43 ≤ type ∧ type ≤ 0x46
  | typeArgument => 0x47 ≤ type ∧ type ≤ 0x4b

theorem TargetKind.ofByte?_eq_some {type : UInt8} {kind : TargetKind} :
    ofByte? type = some kind ↔ kind.Covers type.toNat := by
  fun_cases ofByte? type
  all_goals
    simp only [UInt8.lt_iff_toNat_lt, UInt8.le_iff_toNat_le, ← UInt8.toNat_inj, UInt8.reduceToNat] at *
    cases kind <;> simp only [Covers, reduceCtorEq, Option.some.injEq, false_iff, true_iff] <;> omega

def TypeTarget.kind : TypeTarget → TargetKind
  | typeParameter _ => .typeParameter
  | superType _ => .superType
  | typeParameterBound .. => .typeParameterBound
  | empty => .empty
  | formalParameter _ => .formalParameter
  | throws _ => .throws
  | localVariable _ => .localVariable
  | catchType _ => .catchType
  | instruction _ => .instruction
  | typeArgument .. => .typeArgument

/-- Only the ranges of a local variable are counted. -/
def TypeTarget.Formed : TypeTarget → Prop
  | localVariable ranges => ranges.Formed fun _ => True
  | _ => True

structure PathStep.Formed (step : PathStep) : Prop where
  tag : step.tag.toNat = step.kind.number

structure TypeAnnotation.FormedWith (inner : Annotation → Prop) (whole : TypeAnnotation) : Prop where
  type : whole.target.kind.Covers whole.type.toNat
  target : whole.target.Formed
  path : whole.path.Formed PathStep.Formed
  annotation : inner whole.annotation

def LocalRange.write (range : LocalRange) : Put LocalRange :=
  return ⟨← Put.word range.start.value, ← Put.word range.length.value, ← Put.word range.index.value⟩

def TypeTarget.write : TypeTarget → Put TypeTarget
  | typeParameter index => return .typeParameter (← Put.word index.value)
  | superType index => return .superType (← Put.word index.value)
  | typeParameterBound parameter bound =>
    return .typeParameterBound (← Put.word parameter.value) (← Put.word bound.value)
  | empty => return .empty
  | formalParameter index => return .formalParameter (← Put.word index.value)
  | throws index => return .throws (← Put.word index.value)
  | localVariable ranges => return .localVariable (← ranges.write LocalRange.write)
  | catchType index => return .catchType (← Put.word index.value)
  | instruction pc => return .instruction (← Put.word pc.value)
  | typeArgument pc argument => return .typeArgument (← Put.word pc.value) (← Put.word argument.value)

def PathStep.write (step : PathStep) : Put PathStep :=
  return ⟨← Put.word step.tag.value, step.kind, ← Put.word step.argument.value⟩

/-- The type comes before the target. -/
def TypeTarget.writeTyped (type : U1) (target : TypeTarget) : Put (U1 × TypeTarget) :=
  return (← Put.word type.value, ← target.write)

def TypeAnnotation.write (whole : TypeAnnotation) : Put TypeAnnotation := do
  let head ← whole.target.writeTyped whole.type
  let path ← whole.path.write PathStep.write
  let content ← whole.annotation.write
  return ⟨head.1, head.2, path, content⟩

theorem LocalRange.spelt : (Layout.as
    { make := fun (start, length, index) => (⟨start, length, index⟩ : LocalRange)
      parts? := fun range => some (range.start, range.length, range.index) }
    (.seq .u2 (.seq .u2 .u2))).Spelt pool (fun _ => True) LocalRange.write where
  told range := .as rfl (.bind (.word range.start) (.bind (.word range.length) (.last (.word range.index))))
  sound _ _ _ _ := trivial
  laid _ _ := .as (.bind (.word _) fun _ => .bind (.word _) fun _ => .last (.word _))

theorem TypeTarget.told (kind : TargetKind) (target : TypeTarget) :
    Put.Tells pool kind.layout target id target.write := by
  by_cases same : target.kind = kind
  · subst same
    cases target with
    | typeParameter index | formalParameter index => exact .as rfl (.last (.word index))
    | superType index | throws index | catchType index | instruction index =>
      exact .as rfl (.last (.word index))
    | typeParameterBound parameter bound => exact .as rfl (.bind (.word parameter) (.last (.word bound)))
    | typeArgument pc argument => exact .as rfl (.bind (.word pc) (.last (.word argument)))
    | empty => exact .as rfl .nothing
    | localVariable ranges => exact .as rfl (.last (.counted fun range _ => LocalRange.spelt.told range))
  · -- No two forms share a shape.
    cases kind <;> cases target <;> first | exact .misshapen rfl | exact absurd rfl same

theorem TypeTarget.formed_of_writes {kind : TargetKind} {offset : Nat} {target : TypeTarget} {bytes : Bytes}
    (written : kind.layout.Writes pool offset target bytes) : target.kind = kind ∧ target.Formed := by
  cases kind with
  | localVariable =>
    rcases written with ⟨ranges, rfl, written⟩
    exact ⟨rfl, LocalRange.spelt.counted.sound _ ranges _ written⟩
  | _ =>
    rcases written with ⟨_, rfl, -⟩
    exact ⟨rfl, trivial⟩

theorem TypeTarget.laid {target : TypeTarget} (formed : target.Formed) :
    Put.Lays pool target.kind.layout id target.write := by
  cases target with
  | typeParameter | formalParameter | superType | throws | catchType | instruction =>
    exact .as (.last (.word _))
  | typeParameterBound | typeArgument => exact .as (.bind (.word _) fun _ => .last (.word _))
  | empty => exact .as .nothing
  | localVariable ranges =>
    exact .as (.last (.counted formed.counted fun range _ => LocalRange.spelt.laid range trivial))

theorem PathKind.ofByte?_of_number {byte : UInt8} {kind : PathKind} (same : byte.toNat = kind.number) :
    ofByte? byte = some kind := by
  rw [ofByte?, same]
  cases kind <;> rfl

theorem PathStep.spelt (pool : Pool) : PathStep.layout.Spelt pool PathStep.Formed PathStep.write where
  told := by
    rintro ⟨tag, kind, argument⟩
    refine .as rfl (.tagged fun _ _ => .unwritten ?_)
    rintro rfl
    exact .last (.word argument)
  sound := by
    rintro offset _ _ ⟨⟨tag, kind, argument⟩, rfl, known, rest, byte, rfl, rfl, _, ys, rfl,
      ⟨_, same, rfl⟩, -⟩
    obtain rfl : kind = known := same
    exact ⟨PathKind.number_of_ofByte? byte⟩
  laid := by
    rintro ⟨tag, kind, argument⟩ ⟨number⟩
    exact .as (.tagged kind (PathKind.ofByte?_of_number number) fun _ => .unwritten (.last (.word _)))

theorem TypeAnnotation.spelt {inner : Layout Annotation} {formed : Annotation → Prop}
    (inside : inner.Spelt pool formed Annotation.write) :
    ( TypeAnnotation.layout inner).Spelt pool ( TypeAnnotation.FormedWith formed) TypeAnnotation.write where
  told := by
    rintro ⟨type, target, path, content⟩
    exact .as rfl (.bind (.tagged fun kind _ => .last (TypeTarget.told kind target))
      (.bind (.counted fun step _ => (PathStep.spelt pool).told step) (.last (inside.told content))))
  sound := by
    rintro offset _ _ ⟨⟨⟨type, target⟩, path, content⟩, rfl, _, _, rfl,
      ⟨kind, _, known, rfl, rfl, target⟩, _, _, rfl, steps, annotated⟩
    rcases TypeTarget.formed_of_writes target with ⟨rfl, ranges⟩
    exact ⟨TargetKind.ofByte?_eq_some.mp known, ranges, (PathStep.spelt pool).counted.sound _ path _ steps,
      inside.sound _ content _ annotated⟩
  laid := by
    rintro ⟨type, target, path, content⟩ ⟨covers, ranges, ⟨counted, steps⟩, annotated⟩
    refine .as (.bind ?_ fun _ => .bind ?_ fun _ => .last (inside.laid content annotated))
    · exact .tagged target.kind (TargetKind.ofByte?_eq_some.mpr covers) fun _ => .last (TypeTarget.laid ranges)
    · exact .counted counted fun step member => (PathStep.spelt pool).laid step (steps step member)

end Types

section Places

mutual

theorem ElementValue.moved_write (tag : U1) : ∀ (value : ElementValue) (offset : Nat),
    (value.write tag offset).value.moved unplaced = value.moved unplaced
  | .constant index, offset | .enumeration type name, offset | .classText descriptor, offset => by
    rw [ElementValue.write]
    rfl
  | .annotated content, offset => by
    rw [ElementValue.write]
    exact congrArg ElementValue.annotated (content.moved_write _)
  | .array ⟨count, values⟩, offset => by
    rw [ElementValue.write]
    exact congrArg (fun items => ElementValue.array ⟨count.moved unplaced, items⟩)
      (Element.moved_writeAll values _)

theorem Element.moved_write : ∀ (value : Element) (offset : Nat),
    (value.write offset).value.moved unplaced = value.moved unplaced
  | ⟨tag, value⟩, offset => by
    rw [Element.write]
    exact congrArg (Element.mk (tag.moved unplaced)) (value.moved_write tag _)

theorem Element.moved_writeAll : ∀ (values : List Element) (offset : Nat),
    Element.movedAll unplaced (Element.writeAll values offset).value = Element.movedAll unplaced values
  | [], offset => rfl
  | value :: rest, offset => by
    rw [Element.writeAll]
    exact List.cons_eq_cons.mpr ⟨value.moved_write _, Element.moved_writeAll rest _⟩

theorem Annotation.moved_write : ∀ (self : Annotation) (offset : Nat),
    (self.write offset).value.moved unplaced = self.moved unplaced
  | ⟨type, ⟨count, pairs⟩⟩, offset => by
    rw [ Annotation.write]
    exact congrArg (fun items => Annotation.mk (type.moved unplaced) ⟨count.moved unplaced, items⟩)
      ( Annotation.moved_writePairs pairs _)

theorem Annotation.moved_writePairs : ∀ (pairs : List (U2 × Element)) (offset : Nat),
    Annotation.movedPairs unplaced ( Annotation.writePairs pairs offset).value =
      Annotation.movedPairs unplaced pairs
  | [], offset => rfl
  | (name, value) :: rest, offset => by
    rw [ Annotation.writePairs, Annotation.writePair]
    exact List.cons_eq_cons.mpr ⟨congrArg (Prod.mk (name.moved unplaced)) (value.moved_write _),
      Annotation.moved_writePairs rest _⟩

end

theorem TypeTarget.moved_write (target : TypeTarget) (offset : Nat) :
    (target.write offset).value.moved unplaced = target.moved unplaced := by
  cases target with
  | localVariable ranges =>
    exact congrArg TypeTarget.localVariable (Counted.moved_write (fun _ _ _ => rfl) _)
  | _ => rfl

theorem TypeAnnotation.moved_write (whole : TypeAnnotation) (offset : Nat) :
    (whole.write offset).value.moved unplaced = whole.moved unplaced := by
  rcases whole with ⟨type, target, path, content⟩
  change TypeAnnotation.mk _ ((target.write _).value.moved unplaced)
    ((path.write PathStep.write _).value.moved unplaced (PathStep.moved unplaced))
    ((content.write _).value.moved unplaced) = _
  rw [target.moved_write, content.moved_write, Counted.moved_write fun _ _ _ => rfl]
  rfl

end Places

/-- How values and annotations are decoded at a depth where so many of `limit` levels of nesting are
left. -/
structure Annotation.Decoding (pool : Pool) (limit levels : Nat) : Prop where
  value : ((Element.layout limit levels).decode pool).Undoes pool (Element.Within levels) Element.write
    (Element.moved unplaced)
  annotations : ((Layout.list ( Annotation.layoutWith <| Element.layout limit levels)).decode pool).Undoes pool
    (Counted.Formed ( Annotation.Within levels)) (Counted.write Annotation.write)
    (Counted.moved unplaced ( Annotation.moved unplaced))
  /-- The annotations of each parameter are a list of their own. -/
  parameters : ((Layout.shortList (Layout.list ( Annotation.layoutWith <| Element.layout limit levels))).decode
      pool).Undoes pool
    (Counted.Formed (Counted.Formed ( Annotation.Within levels)))
    (Counted.write (Counted.write Annotation.write))
    (Counted.moved unplaced (Counted.moved unplaced ( Annotation.moved unplaced)))
  types : ((Layout.list ( TypeAnnotation.layout ( Annotation.layoutWith <| Element.layout limit levels))).decode
      pool).Undoes pool
    (Counted.Formed ( TypeAnnotation.FormedWith ( Annotation.Within levels)))
    (Counted.write TypeAnnotation.write)
    (Counted.moved unplaced ( TypeAnnotation.moved unplaced))
  /-- The attributes of these kinds hold just that, whatever length they declare. -/
  payloads : ∀ (attributes : Layout Table) (length : Nat) (visibility : Visibility),
    let payload := fun kind => (Payload.layout (Element.layout limit levels) attributes kind length).decode pool
    let inner := Annotation.layoutWith <| Element.layout limit levels
    payload .annotationDefault = Payload.annotationDefault <$> (Element.layout limit levels).decode pool ∧
    payload (.annotations visibility) =
      Payload.annotations visibility <$> (Layout.list inner).decode pool ∧
    payload (.parameterAnnotations visibility) =
      Payload.parameterAnnotations visibility <$> (Layout.shortList (Layout.list inner)).decode pool ∧
    payload (.typeAnnotations visibility) =
      Payload.typeAnnotations visibility <$> (Layout.list ( TypeAnnotation.layout inner)).decode pool

theorem Annotation.trees_decoding (pool : Pool) (limit levels : Nat) :
    Annotation.Decoding pool limit levels where
  value := (Element.spelt_layout limit levels).undoes Element.moved_write
  annotations := ( Annotation.spelt_layout limit levels).counted.undoes fun _ =>
    Counted.moved_write fun self _ => self.moved_write
  parameters := ( Annotation.spelt_layout limit levels).counted.counted.undoes fun _ =>
    Counted.moved_write fun _ _ => Counted.moved_write fun self _ => self.moved_write
  types := ( TypeAnnotation.spelt ( Annotation.spelt_layout limit levels)).counted.undoes fun _ =>
    Counted.moved_write fun self _ => self.moved_write
  payloads := fun _ _ _ => ⟨rfl, rfl, rfl, rfl⟩

end ClassFormat
