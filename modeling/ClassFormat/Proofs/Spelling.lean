import ClassFormat.ClassFile.Decode
import ClassFormat.Proofs.CodeGrammar
import ClassFormat.Proofs.Grammar
import ClassFormat.Proofs.Parts

/-! What is written for a part, and which parts the values of a layout have. Each layout is
described by the parts of its values: whatever it writes is what those parts write, one
behind the other. -/
namespace ClassFormat

/-- There is an entry of one of these kinds in the slot. -/
def Pool.Designates (pool : Pool) (index : Nat) (kinds : List Tag) : Prop :=
  ∃ entry, pool.slot? index = some (some entry) ∧ entry.constant.tag ∈ kinds

/-- Whether an index leads where it must. -/
def Target.Met (pool : Pool) (index : Nat) : Target → Prop
  | oneOf kinds => pool.Designates index kinds
  | noneOr kind => index = 0 ∨ pool.Designates index [kind]
  | anyEntry => ∃ entry, pool.slot? index = some (some entry)
  | ownClass => pool.Designates index [.classRef] ∨ (pool.slots.size = 0 ∧ index ≠ 0)

theorem Pool.get_eq_ok {pool : Pool} {index : Nat} {entry : Entry} :
    pool.get index = .ok entry ↔ pool.slot? index = some (some entry) := by
  unfold Pool.get
  split <;> simp_all

theorem Pool.getOf_eq_ok {pool : Pool} {index : Nat} {kinds : List Tag} {entry : Entry} :
    pool.getOf index kinds = .ok entry ↔
      pool.slot? index = some (some entry) ∧ entry.constant.tag ∈ kinds := by
  unfold Pool.getOf
  rw [Error.bind_eq_ok]
  constructor
  · intro given
    rcases given with ⟨found, got, run⟩
    split at run
    next expected =>
      cases run
      exact ⟨Pool.get_eq_ok.mp got, expected⟩
    next => cases run
  · rintro ⟨got, expected⟩
    exact ⟨entry, Pool.get_eq_ok.mpr got, by rw [if_pos expected]; rfl⟩

theorem Pool.getOf_map_eq_ok {pool : Pool} {index : Nat} {kinds : List Tag} :
    ((pool.getOf index kinds).map fun _ => ()) = .ok () ↔ pool.Designates index kinds := by
  simp only [Error.map_eq_ok, Pool.getOf_eq_ok, Pool.Designates]

/-- Only in an empty pool may an index of the class itself lead nowhere. -/
theorem Target.check_ownClass {pool : Pool} {index : Nat} :
    Target.ownClass.check pool index = .ok () ↔ Target.ownClass.Met pool index := by
  have counted : pool.count = pool.slots.size + 1 := rfl
  by_cases asked : index = 0 ∨ 1 < pool.count
  · simp only [Target.check, if_pos asked, Pool.getOf_map_eq_ok, Target.Met]
    constructor
    · exact .inl
    · rintro (found | ⟨empty, some⟩)
      · exact found
      · omega
  · simp only [Target.check, if_neg asked, Target.Met]
    have empty : pool.slots.size = 0 := by omega
    have some : index ≠ 0 := fun zero => asked (.inl zero)
    simp [empty, some]

theorem Target.check_eq_ok {pool : Pool} {index : Nat} {target : Target} :
    target.check pool index = .ok () ↔ target.Met pool index := by
  cases target with
  | oneOf kinds => exact Pool.getOf_map_eq_ok
  | noneOr kind =>
    by_cases none : index = 0
    · simp [Target.check, Target.Met, none]
    · simp [Target.check, Target.Met, none, Pool.getOf_map_eq_ok]
  | anyEntry => simp only [Target.check, Target.Met, Error.map_eq_ok, Pool.get_eq_ok]
  | ownClass => exact Target.check_ownClass

/-- What is written for a part. -/
def Part.grammar (pool : Pool) : Grammar Part := fun offset part bytes => part.offset = offset ∧
  match part with
  | .unsigned _ width number => bytes.length = width ∧ Bytes.toNat bytes = number
  | .signed _ width number =>
    bytes.length = width ∧ (Bytes.toNat bytes : Int).bmod (Nat.pow 256 width) = number
  | .selector byte number => bytes = [byte.value] ∧ byte.value.toNat = number
  | .flags set word => ∃ bits : UInt16, bytes = Word.toBytes bits ∧ word.value.bits = bits &&& set.mask
  | .index word target => bytes = Word.toBytes word.value ∧ target.Met pool word.toNat
  | .name word known => bytes = Word.toBytes word.value ∧ pool.text word.toNat = .ok known
  | .text _ length content => bytes.length = length ∧
    ∃ chars, Text.Modified.decode? bytes = some chars ∧ content = .ofList chars
  | .looseText _ length content => bytes.length = length ∧
    content = .ofList ((Text.Modified.decode? bytes).getD (Text.Utf8.decodeLossily bytes))
  | .code length instructions => bytes.length = length.toNat ∧
    (Instruction.grammar offset).each 0 instructions.toList bytes
  | .passed _ length => bytes.length = length
  | .table held => ∃ limit levels, (Table.layout limit levels).Writes pool offset held bytes

namespace Grammar

variable {item : Grammar α}

theorem each_append {first second : List α} {offset : Nat} {bytes : Bytes} :
    item.each offset (first ++ second) bytes ↔ ∃ xs ys, bytes = xs ++ ys ∧
      item.each offset first xs ∧ item.each (offset + xs.length) second ys := by
  induction first generalizing offset bytes with
  | nil =>
    constructor
    · exact fun written => ⟨[], bytes, rfl, rfl, written⟩
    · intro written
      rcases written with ⟨_, ys, rfl, rfl, written⟩
      exact written
  | cons value rest ih =>
    constructor
    · intro written
      rcases written with ⟨xs, _, rfl, head, tail⟩
      obtain ⟨ys, zs, rfl, front, back⟩ := ih.mp tail
      exact ⟨xs ++ ys, zs, by simp, ⟨xs, ys, rfl, head, front⟩,
        by simpa [Nat.add_assoc] using back⟩
    · intro written
      rcases written with ⟨_, zs, rfl, ⟨xs, ys, rfl, head, front⟩, back⟩
      exact ⟨xs, ys ++ zs, by simp, head,
        ih.mpr ⟨ys, zs, rfl, front, by simpa [Nat.add_assoc] using back⟩⟩

@[simp] theorem each_singleton {value : α} {offset : Nat} {bytes : Bytes} :
    item.each offset [value] bytes ↔ item offset value bytes := by
  constructor
  · intro written
    rcases written with ⟨xs, _, rfl, written, rfl⟩
    simpa using written
  · exact fun written => ⟨bytes, [], by simp, written, rfl⟩

/-- Values that are written as lists of parts are together written as all their parts. -/
theorem each_flatMap {writes : Grammar β} {parts : β → List α}
    (described : ∀ offset value bytes, writes offset value bytes →
      item.each offset (parts value) bytes)
    {offset : Nat} {values : List β} {bytes : Bytes} (written : writes.each offset values bytes) :
    item.each offset (values.flatMap parts) bytes := by
  induction values generalizing offset bytes with
  | nil => exact written
  | cons value rest ih =>
    obtain ⟨xs, ys, rfl, head, tail⟩ := written
    exact each_append.mpr ⟨xs, ys, rfl, described _ _ _ head, ih tail⟩

end Grammar

/-- What the layout writes for a value is what the parts of the value are written as. -/
def Layout.Describes (pool : Pool) (layout : Layout α) (parts : α → List Part) : Prop :=
  ∀ offset value bytes, layout.Writes pool offset value bytes →
    (Part.grammar pool).each offset (parts value) bytes

namespace Layout.Describes

open ClassFormat.Part (number)

variable {pool : Pool}

theorem word {κ : Type} [width : Word κ] :
    (Layout.word width).Describes pool fun scalar => [number scalar] := by
  rintro offset scalar _ ⟨rfl, rfl⟩
  exact Grammar.each_singleton.mpr ⟨rfl, Word.length_toBytes _, Word.toNat_toBytes _⟩

theorem flags (set : FlagSet) :
    (Layout.flags set).Describes pool fun word => [.flags set word] := by
  rintro offset word _ ⟨rfl, bits, rfl, kept⟩
  exact Grammar.each_singleton.mpr ⟨rfl, bits, rfl, by rw [kept]; rfl⟩

theorem index (target : Target) :
    (Layout.index target).Describes pool fun word => [.index word target] := by
  rintro offset word _ ⟨⟨rfl, rfl⟩, met⟩
  exact Grammar.each_singleton.mpr ⟨rfl, rfl, Target.check_eq_ok.mp met⟩

theorem indexPair (first second : Target) : (Layout.indexPair first second).Describes pool
    fun words => [.index words.1 first, .index words.2 second] := by
  rintro offset words _ ⟨_, _, rfl, ⟨rfl, rfl⟩, ⟨place, rfl⟩, met, too⟩
  refine ⟨_, _, rfl, ⟨rfl, rfl, Target.check_eq_ok.mp met⟩, ?_⟩
  rw [Word.length_toBytes]
  exact Grammar.each_singleton.mpr ⟨place, rfl, Target.check_eq_ok.mp too⟩

theorem nothing : Layout.nothing.Describes pool fun _ => [] := fun _ _ _ none => none

theorem seq {first : Layout α} {second : Layout β} {parts : α → List Part} {more : β → List Part}
    (head : first.Describes pool parts) (tail : second.Describes pool more) :
    (first.seq second).Describes pool fun pair => parts pair.1 ++ more pair.2 := by
  rintro offset pair _ ⟨xs, ys, rfl, one, two⟩
  exact Grammar.each_append.mpr ⟨xs, ys, rfl, head _ _ _ one, tail _ _ _ two⟩

theorem as {shape : Shape α β} {layout : Layout α} {parts : α → List Part} {whole : β → List Part}
    (inner : layout.Describes pool parts) (same : ∀ value, whole (shape.make value) = parts value) :
    (layout.as shape).Describes pool whole := by
  rintro offset _ bytes ⟨value, rfl, written⟩
  rw [same]
  exact inner _ _ _ written

theorem times {item : Layout α} {parts : α → List Part} (n : Nat)
    (each : item.Describes pool parts) :
    (item.times n).Describes pool fun values => values.flatMap parts := by
  rintro offset values bytes ⟨_, written⟩
  exact Grammar.each_flatMap each written

theorem counted {κ : Type} [width : Word κ] {item : Layout α} {parts : α → List Part}
    (each : item.Describes pool parts) :
    (item.counted width).Describes pool fun list => list.parts parts := by
  rintro offset list _ ⟨_, ys, rfl, ⟨rfl, rfl⟩, _, written⟩
  refine ⟨_, ys, rfl, ⟨rfl, Word.length_toBytes _, Word.toNat_toBytes _⟩, ?_⟩
  rw [Word.length_toBytes]
  exact Grammar.each_flatMap each written

/-- The parts of what a byte selects may depend on the byte. -/
theorem tagged {κ : Type} {tagging : Tagging κ} {body : κ → Layout α} (head : U1 → α → Part)
    (rest : U1 → α → List Part)
    (each : ∀ kind tag offset value bytes, tagging.ofByte? tag.value = some kind →
      (body kind).Writes pool offset value bytes →
        Part.grammar pool tag.offset (head tag value) [tag.value] ∧
          (Part.grammar pool).each offset (rest tag value) bytes) :
    (Layout.tagged tagging body).Describes pool fun pair => head pair.1 pair.2 :: rest pair.1 pair.2 := by
  rintro offset ⟨tag, value⟩ _ ⟨kind, bytes, known, rfl, rfl, written⟩
  obtain ⟨first, others⟩ := each kind tag _ value bytes known written
  exact ⟨[tag.value], bytes, rfl, first, others⟩

theorem byte (tag : U1) : Part.grammar pool tag.offset (number tag) [tag.value] :=
  ⟨rfl, rfl, Nat.zero_add _⟩

theorem selected {κ : Type} {tagging : Tagging κ} {body : κ → Layout α} {parts : α → List Part}
    (each : ∀ kind, (body kind).Describes pool parts) :
    (Layout.tagged tagging body).Describes pool fun pair => number pair.1 :: parts pair.2 :=
  tagged _ _ fun kind tag _ _ _ _ written => ⟨byte tag, each kind _ _ _ written⟩

theorem looseText (length : Nat) (offset : Nat) (text : String) (bytes : Bytes)
    (written : (Layout.looseText length).Writes pool offset text bytes) :
    (Part.grammar pool).each offset [.looseText offset length text] bytes :=
  Grammar.each_singleton.mpr ⟨rfl, written⟩

theorem text (slot : Nat) : (Layout.text slot).Describes pool
    fun pair => [number pair.1, .text pair.1.stop pair.1.toNat pair.2] := by
  rintro offset pair _ ⟨content, chars, rfl, rfl, size, decoded, same⟩
  refine ⟨_, content, rfl, ⟨rfl, Word.length_toBytes _, Word.toNat_toBytes _⟩, ?_⟩
  rw [Word.length_toBytes]
  exact Grammar.each_singleton.mpr ⟨rfl, size, chars, decoded, same⟩

theorem code : Layout.code.Describes pool
    fun pair => [number pair.1, .code pair.1 pair.2] := by
  rintro offset pair _ ⟨content, rfl, rfl, size, cut⟩
  refine ⟨_, content, rfl, ⟨rfl, Word.length_toBytes _, Word.toNat_toBytes _⟩, ?_⟩
  rw [Word.length_toBytes]
  exact Grammar.each_singleton.mpr ⟨rfl, size, Instruction.decodeAll_eq_ok.mp cut⟩

end Layout.Describes
end ClassFormat
