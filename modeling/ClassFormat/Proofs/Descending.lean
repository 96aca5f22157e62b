import ClassFormat.Proofs.Beginning
import ClassFormat.Proofs.Nesting
import ClassFormat.Proofs.Relocating

/-! Where levels of nesting are opened. There are four things that lie one level further down than what they stand
in: the attribute tables of a code array and of a record component, an element of an array, and an annotation that
is a value. A level is opened just where one of these is begun, unless none is left, and then that is the error. -/
namespace ClassFormat

open Decoder

namespace Layout

/-- What stands one level further down than where so many levels are left. -/
def lower (limit : Nat) (layout : Nat → Layout α) : Nat → Layout α
  | 0 => .tooDeep limit
  | levels + 1 => .nested (layout levels)

/-- Whether a level is opened in the state `within` while a layout is decoded from a state. -/
def Opens (pool : Pool) (within : State) : Layout α → State → Prop
  | seq first second, s => first.Opens pool within s ∨
    ∃ value middle, first.decode pool s = .ok value middle ∧ second.Opens pool within middle
  | as _ parts, s => parts.Opens pool within s
  | times n item, s => ∃ k < n, ∃ found next,
    Decoder.times k (item.decode pool) s = .ok found next ∧ item.Opens pool within next
  | counted width item, s => ∃ count listed, @Decoder.read _ width s = .ok count listed ∧
    ∃ k < width.toNat count.value, ∃ found next,
      Decoder.times k (item.decode pool) listed = .ok found next ∧ item.Opens pool within next
  | tagged tagging body, s => ∃ tag kind middle, Decoder.read s = .ok tag middle ∧
    tagging.ofByte? tag.value = some kind ∧ (body kind).Opens pool within middle
  | entry payload, s => ∃ nameIndex name length kind middle,
    decodeHead pool s = .ok (nameIndex, name, length) middle ∧ AttributeKind.ofName? name = some kind ∧
      (payload kind length.toNat).Opens pool within
        (middle.recording (.decoding name length.toNat nameIndex.offset))
  | table item, s => ∃ (count : U2) (middle : State), Decoder.read s = .ok count middle ∧
    ∃ n < count.toNat, ∃ entries next,
      decodeEntries (item.decode pool) n [] middle = .ok entries next ∧ item.Opens pool within next
  | nested inner, s => within = s ∨ inner.Opens pool within s.opened
  | nothing, _ | word _, _ | flags _, _ | index _, _ | indexPair _ _, _ | text _, _ | looseText _, _ | code, _
  | tooDeep _, _ => False

/-- While `outer` is decoded from a state, something that lies one level further down than what it stands in is
begun in the state `within`. It is laid out in the way that is named last, with so many levels left there. -/
inductive Descends (pool : Pool) (limit : Nat) (within : State) {α : Type} (outer : Layout α) (s : State) :
    {γ : Type} → (Nat → Layout γ) → Nat → Prop where
  /-- The own table of a code array is begun behind its instructions and its handlers. -/
  | code {levels : Nat} {begun middle next : State} {nameIndex : U2} {name : String} {length : U4}
    {front : U2 × U2 × U4 × Array Instruction} {handlers : Counted UInt16 Handler} :
      (Attribute.layout limit levels).Enters pool begun outer s →
      decodeHead pool begun = .ok (nameIndex, name, length) middle → AttributeKind.ofName? name = some .code →
      codeFront.decode pool (middle.recording (.decoding name length.toNat nameIndex.offset)) = .ok front next →
      (Layout.list Handler.layout).decode pool next = .ok handlers within →
        Descends pool limit within outer s (Table.layout limit) levels
  /-- The own table of a record component is begun behind its name and its descriptor. -/
  | component {levels n : Nat} {begun middle listed next described : State} {nameIndex : U2} {name : String}
    {length : U4} {count own descriptor : U2} {found : List Component} :
      (Attribute.layout limit levels).Enters pool begun outer s →
      decodeHead pool begun = .ok (nameIndex, name, length) middle →
      AttributeKind.ofName? name = some .recordInfo →
      Decoder.read (middle.recording (.decoding name length.toNat nameIndex.offset)) = .ok count listed →
      n < count.toNat →
      Decoder.times n ((Component.layout (lower limit (Table.layout limit) levels)).decode pool) listed =
        .ok found next →
      (Layout.reference .utf8).decode pool next = .ok own described →
      (Layout.reference .utf8).decode pool described = .ok descriptor within →
        Descends pool limit within outer s (Table.layout limit) levels
  /-- An element of an array is begun behind those before it. -/
  | element {levels n : Nat} {begun middle listed : State} {tag : U1} {count : U2} {found : List Element} :
      (Element.layout limit levels).Enters pool begun outer s →
      Decoder.read begun = .ok tag middle → ElementKind.ofByte? tag.value = some .array →
      Decoder.read middle = .ok count listed → n < count.toNat →
      Decoder.times n ((lower limit (Element.layout limit) levels).decode pool) listed = .ok found within →
        Descends pool limit within outer s (Element.layout limit) levels
  /-- An annotation that is a value is begun behind the tag of the value. -/
  | annotated {levels : Nat} {begun : State} {tag : U1} :
      (Element.layout limit levels).Enters pool begun outer s →
      Decoder.read begun = .ok tag within → ElementKind.ofByte? tag.value = some .annotated →
        Descends pool limit within outer s (fun below => Annotation.layoutWith (Element.layout limit below)) levels

variable {pool : Pool} {limit levels : Nat} {within middle s : State}

theorem Descends.lift {inner : Layout β} {layout : Nat → Layout γ}
    (descends : Descends pool limit within inner middle layout levels) {outer : Layout α}
    (enters : inner.Enters pool middle outer s) : Descends pool limit within outer s layout levels := by
  cases descends with
  | code begins head known front handlers => exact .code (begins.trans enters) head known front handlers
  | component begins head known count more before own descriptor =>
    exact .component (begins.trans enters) head known count more before own descriptor
  | element begins tag known count more before => exact .element (begins.trans enters) tag known count more before
  | annotated begins tag known => exact .annotated (begins.trans enters) tag known

end Layout

/-! ### Layouts by what stands one level further down -/

section Equations

variable (limit levels : Nat)

theorem Element.layout_eq : Element.layout limit levels = Element.layoutWith
    (Layout.lower limit (fun below => Annotation.layoutWith (Element.layout limit below)) levels)
    (Layout.lower limit (Element.layout limit) levels) := by
  cases levels <;> rfl

theorem Attribute.layout_eq : Attribute.layout limit levels = Attribute.layoutWith (Element.layout limit levels)
    (Layout.lower limit (Table.layout limit) levels) := by
  cases levels <;> rfl

/-- Only code arrays and components of records have attribute tables of their own. -/
theorem Payload.layout_congr {kind : AttributeKind} (plain : kind ≠ .code) (whole : kind ≠ .recordInfo)
    (element : Layout Element) (first second : Layout Table) (length : Nat) :
    Payload.layout element first kind length = Payload.layout element second kind length := by
  cases kind with
  | code => exact absurd rfl plain
  | recordInfo => exact absurd rfl whole
  | _ => rfl

end Equations

namespace Layout

variable {pool : Pool} {limit levels : Nat} {within middle s : State}

/-! ### What is begun one level further down is entered -/

/-- What is begun in an item is begun in the list. -/
theorem Enters.of_times {inner : Layout γ} {item : Layout α} {n count : Nat} {next : State}
    {found : List α} (before : Decoder.times n (item.decode pool) s = .ok found next) (more : n < count)
    (enters : inner.Enters pool within item next) : inner.Enters pool within (.times count item) s := by
  induction n generalizing count found s with
  | zero =>
    cases before
    obtain ⟨rest, rfl⟩ := Nat.exists_eq_add_of_lt more
    exact .item enters
  | succ n ih =>
    obtain ⟨rest, rfl⟩ := Nat.exists_eq_add_of_lt more
    rw [times_succ] at before
    obtain ⟨value, middle, first, others⟩ := bind_eq_ok.mp before
    obtain ⟨values, _, others, ended⟩ := bind_eq_ok.mp others
    cases ended
    exact .later first (ih others (Nat.lt_of_succ_lt_succ more))

/-- Whatever lies one level further down is either nested or refused where it is begun. -/
theorem Descends.enters {layout : Nat → Layout γ} {outer : Layout α}
    (descends : Descends pool limit within outer s layout levels) :
    (lower limit layout levels).Enters pool within outer s := by
  cases descends with
  | code begins head known front handlers =>
    rw [Attribute.layout_eq] at begins
    obtain ⟨one, two, first, second, third⟩ := codeFront_eq_ok.mp front
    have table : (lower limit (Table.layout limit) levels).Enters pool within
        (Code.layout (lower limit (Table.layout limit) levels)) _ :=
      .parts _ (.second first (.second second (.second third (.second handlers .here))))
    exact (Enters.payload head known (.parts _ table)).trans begins
  | component begins head known count more before own descriptor =>
    rw [Attribute.layout_eq] at begins
    have table : (lower limit (Table.layout limit) levels).Enters pool within
        (Component.layout (lower limit (Table.layout limit) levels)) _ :=
      .parts _ (.second own (.second descriptor .here))
    exact (Enters.payload head known (.parts _ (.counted count (table.of_times before more)))).trans begins
  | element begins tag known count more before =>
    rw [Element.layout_eq] at begins
    have item := Enters.here.of_times before more
    exact (Enters.parts _ (.tagged tag known (.parts _ (.counted count item)))).trans begins
  | annotated begins tag known =>
    rw [Element.layout_eq] at begins
    exact (Enters.parts _ (.tagged tag known (.parts _ .here))).trans begins

/-- The level that something nested opens is the first that is told of it. -/
theorem told_opened (contents : Layout α) (s : State) :
    s.trace.toList ++ [.opened s.cursor.offset] <+: ((Layout.nested contents).decode pool).told s := by
  have inside := (contents.decode_forward pool).told s.opened
  rw [State.opened, Array.toList_push] at inside
  exact inside.trans (told_nested _ s)

/-! ### A level is opened for nothing else -/

/-- Where something nested is begun, a level is opened. -/
theorem Enters.opens {contents : Layout γ} {outer : Layout α}
    (enters : (Layout.nested contents).Enters pool within outer s) : outer.Opens pool within s := by
  induction enters with
  | here => exact Or.inl rfl
  | first _ ih => exact Or.inl ih
  | second run _ ih => exact Or.inr ⟨_, _, run, ih⟩
  | parts _ _ ih => exact ih
  | item _ ih => exact ⟨0, Nat.succ_pos _, [], _, rfl, ih⟩
  | @later _ _ _ _ _ value run _ ih =>
    obtain ⟨k, less, found, next, before, opens⟩ := ih
    refine ⟨k + 1, Nat.succ_lt_succ less, value :: found, next, ?_, opens⟩
    rw [times_succ, bind_of_ok run, bind_of_ok before]
    rfl
  | counted run _ ih => exact ⟨_, _, run, ih⟩
  | tagged run known _ ih => exact ⟨_, _, _, run, known, ih⟩
  | payload head known _ ih => exact ⟨_, _, _, _, _, head, known, ih⟩
  | row run more before _ ih => exact ⟨_, _, run, _, more, _, _, before, ih⟩
  | nested _ ih => exact Or.inr ih

/-- Whether each level that is opened while a layout is decoded is opened for something that lies one further
down than what it stands in. -/
def Descending (pool : Pool) (limit : Nat) (layout : Layout α) : Prop := ∀ s within, layout.Opens pool within s →
  ∃ (γ : Type) (inner : Nat → Layout γ) (levels : Nat), Descends pool limit within layout s inner (levels + 1)

theorem Descending.lift {inner : Layout β} (each : Descending pool limit inner)
    (opens : inner.Opens pool within middle) {outer : Layout α} (enters : inner.Enters pool middle outer s) :
    ∃ (γ : Type) (layout : Nat → Layout γ) (levels : Nat),
      Descends pool limit within outer s layout (levels + 1) := by
  obtain ⟨_, _, _, descends⟩ := each middle within opens
  exact ⟨_, _, _, descends.lift enters⟩

/-- The first level that is opened for what lies one further down is opened where that is begun. -/
theorem Descends.deeper {layout : Nat → Layout γ} {outer : Layout α}
    (descends : Descends pool limit middle outer s layout levels)
    (each : ∀ below < levels, Descending pool limit (layout below))
    (opens : (lower limit layout levels).Opens pool within middle) : ∃ (δ : Type) (inner : Nat → Layout δ)
      (below : Nat), Descends pool limit within outer s inner (below + 1) := by
  cases levels with
  | zero => exact opens.elim
  | succ levels =>
    obtain rfl | opens := opens
    · exact ⟨_, _, _, descends⟩
    · exact (each levels (Nat.lt_succ_self levels)).lift opens ((Enters.nested .here).trans descends.enters)

theorem descending_closed (pool : Pool) (limit : Nat) : Closed True fun _ layout => Descending pool limit layout where
  nothing _ _ opens := opens.elim
  word _ _ _ opens := opens.elim
  flags _ _ _ opens := opens.elim
  index _ _ _ _ opens := opens.elim
  indexPair _ _ _ _ _ opens := opens.elim
  seq {_ _ _ _} head tail s within opens := by
    rcases opens with opens | ⟨value, middle, run, opens⟩
    · exact head.lift opens (.first .here)
    · exact tail.lift opens (.second run .here)
  as {_ _} shape {_} inner s within opens := inner.lift opens (.parts shape .here)
  times {_} n {_} each s within opens := by
    obtain ⟨k, more, found, next, before, opens⟩ := opens
    exact each.lift opens (Enters.here.of_times before more)
  counted {_ _} width {_} each s within opens := by
    obtain ⟨count, listed, run, k, more, found, next, before, opens⟩ := opens
    exact each.lift opens (.counted run (Enters.here.of_times before more))
  tagged {_ _ _ _} _ each s within opens := by
    obtain ⟨tag, kind, middle, run, known, opens⟩ := opens
    exact (each kind).lift opens (.tagged run known .here)
  text _ _ _ opens := opens.elim
  looseText _ _ _ opens := opens.elim

theorem element_descending (pool : Pool) (limit levels : Nat) :
    Descending pool limit (Element.layout limit levels) := by
  have closed := descending_closed pool limit
  induction levels using Nat.strongRecOn with
  | ind levels ih =>
    intro s within opens
    rw [Element.layout_eq] at opens
    obtain ⟨tag, kind, middle, run, known, opens⟩ := opens
    cases kind with
    | annotated =>
      exact (Descends.annotated .here run known).deeper (fun _ less => closed.annotationOf (ih _ less)) opens
    | array =>
      obtain ⟨count, listed, number, k, more, found, next, before, opens⟩ := opens
      exact (Descends.element .here run known number more before).deeper ih opens
    | _ => exact opens.elim

/-- In a code array levels are opened behind its instructions and handlers only. -/
theorem code_opens {attributes : Layout Table} (opens : (Code.layout attributes).Opens pool within s) :
    ∃ front next handlers listed, codeFront.decode pool s = .ok front next ∧
      (Layout.list Handler.layout).decode pool next = .ok handlers listed ∧ attributes.Opens pool within listed := by
  obtain opens | ⟨maxStack, one, first, opens⟩ := opens
  · exact opens.elim
  obtain opens | ⟨maxLocals, two, second, opens⟩ := opens
  · exact opens.elim
  obtain opens | ⟨code, three, third, opens⟩ := opens
  · exact opens.elim
  obtain opens | ⟨handlers, four, fourth, opens⟩ := opens
  · simp [Handler.layout, Layout.list, u2, optional, Opens] at opens
  have front : codeFront.decode pool s = .ok (maxStack, maxLocals, code) three :=
    codeFront_eq_ok.mpr ⟨one, two, first, second, third⟩
  exact ⟨_, _, _, _, front, fourth, opens⟩

/-- In a component of a record levels are opened behind its name and its descriptor only. -/
theorem component_opens {attributes : Layout Table} (opens : (Component.layout attributes).Opens pool within s) :
    ∃ own described descriptor listed, (Layout.reference .utf8).decode pool s = .ok own described ∧
      (Layout.reference .utf8).decode pool described = .ok descriptor listed ∧
      attributes.Opens pool within listed := by
  obtain opens | ⟨own, described, first, opens⟩ := opens
  · exact opens.elim
  obtain opens | ⟨descriptor, listed, second, opens⟩ := opens
  · exact opens.elim
  exact ⟨_, _, _, _, first, second, opens⟩

theorem attribute_descending (tables : ∀ below < levels, Descending pool limit (Table.layout limit below)) :
    Descending pool limit (Attribute.layout limit levels) := by
  intro s within opens
  rw [Attribute.layout_eq] at opens
  obtain ⟨nameIndex, name, length, kind, middle, head, known, opens⟩ := opens
  by_cases code : kind = .code
  · subst code
    obtain ⟨front, next, handlers, listed, run, read, opens⟩ := code_opens opens
    exact (Descends.code .here head known run read).deeper tables opens
  by_cases record : kind = .recordInfo
  · subst record
    obtain ⟨count, listed, number, n, more, found, next, before, opens⟩ := opens
    obtain ⟨own, described, descriptor, behind, first, second, opens⟩ := component_opens opens
    exact (Descends.component .here head known number more before first second).deeper tables opens
  -- No other attribute has a table of its own, so that it does not matter how one would be laid out.
  have none : Descending pool limit (.tooDeep limit : Layout Table) := fun _ _ opens => opens.elim
  have same := Payload.layout_congr code record (Element.layout limit levels)
    (lower limit (Table.layout limit) levels) (.tooDeep limit) length.toNat
  rw [same] at opens
  refine ((descending_closed pool limit).payload (element_descending pool limit levels) none code length.toNat).lift
    opens ?_
  rw [← same, Attribute.layout_eq]
  exact .payload head known .here

theorem table_descending (pool : Pool) (limit levels : Nat) :
    Descending pool limit (Table.layout limit levels) := by
  induction levels using Nat.strongRecOn with
  | ind levels ih =>
    intro s within opens
    rw [Table.layout_eq] at opens ⊢
    obtain ⟨count, listed, number, n, more, entries, begun, before, opens⟩ := opens
    exact (attribute_descending ih).lift opens (.row number more before .here)

end Layout

namespace ClassFile

/-- While a file is decoded, something that lies one level further down than what it stands in is begun in the
state `within`, where so many levels are left. -/
def Descends (limit : Nat) (bytes : Bytes) (within : State) (levels : Nat) : Prop :=
  ∃ (head : Preamble) (s : State) (γ : Type) (layout : Nat → Layout γ), preamble (start bytes) = .ok head s ∧
    Layout.Descends head.pool limit within (bodyLayout limit) (bodyStart head s) layout levels

section Levels

variable {limit levels : Nat} {bytes : Bytes} {within : State}

/-- Where no level is left, that is what is wrong with the file. -/
theorem Descends.refused (descends : Descends limit bytes within 0) :
    ∃ final, decodeWithin limit (start bytes) = .error (.tooDeep limit within.cursor.offset) final := by
  obtain ⟨head, s, _, layout, ran, descends⟩ := descends
  have begins : Begins limit bytes head.pool (.tooDeep limit) within := ⟨head, s, ran, rfl, descends.enters⟩
  exact begins.failed rfl

/-- A level is opened just where something is begun that lies one further down than what it stands in. -/
theorem opened_iff {before : List Event} {offset : Nat} :
    before ++ [.opened offset] <+: (decodeWithin limit).told (start bytes) ↔
      ∃ within levels, Descends limit bytes within (levels + 1) ∧ within.trace.toList = before ∧
        within.cursor.offset = offset := by
  constructor
  · intro told
    rcases event_cases told with ⟨-, _, _, other⟩ | ⟨head, s, ran, source⟩ | ⟨_, _, -, -, other⟩
    · cases other
    · obtain ⟨_, contents, within, enters, here, place⟩ := source.of_opened
      obtain ⟨_, layout, levels, descends⟩ :=
        (Layout.descending_closed head.pool limit).body (Layout.table_descending head.pool limit limit) _ within
          enters.opens
      exact ⟨within, levels, ⟨head, s, _, layout, ran, descends⟩, here, place⟩
    · cases other
  · rintro ⟨within, levels, ⟨head, s, _, layout, ran, descends⟩, rfl, rfl⟩
    have begins : Begins limit bytes head.pool (.nested (layout levels)) within :=
      ⟨head, s, ran, rfl, descends.enters⟩
    exact (Layout.told_opened (layout levels) within).trans begins.told

/-- Where no limit stops the decoder, levels are left wherever one is opened. -/
theorem Descends.left (descends : Descends bytes.length bytes within levels) : ∃ below, levels = below + 1 := by
  cases levels with
  | zero =>
    obtain ⟨final, failed⟩ := descends.refused
    have ample := decodeWithin_ample (Nat.le_refl bytes.length) (Nat.le_refl bytes.length)
    exact absurd failed ((ample (start bytes) (Nat.le_refl _)).2.2 _ _ _)
  | succ below => exact ⟨below, rfl⟩

/-- The levels that are counted: without a limit, one is opened for each attribute table of a code array or of a
record component, each element of an array and each annotation that is a value, and for nothing else. -/
theorem unlimited_opened_iff {before : List Event} {offset : Nat} :
    before ++ [.opened offset] <+: unlimitedEvents bytes ↔
      ∃ within levels, Descends bytes.length bytes within levels ∧ within.trace.toList = before ∧
        within.cursor.offset = offset := by
  refine opened_iff.trans ⟨?_, ?_⟩
  · rintro ⟨within, levels, descends, place⟩
    exact ⟨within, levels + 1, descends, place⟩
  · rintro ⟨within, levels, descends, place⟩
    obtain ⟨below, rfl⟩ := descends.left
    exact ⟨within, below, descends, place⟩

end Levels
end ClassFile
end ClassFormat
