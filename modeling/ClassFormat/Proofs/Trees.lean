import ClassFormat.Proofs.Laying
import ClassFormat.Proofs.Moving

/-! Decoded values as trees. A tree is a decoded value whose offsets do not count: it can be written
from any offset on, which gives its bytes, the value that it is when it stands there, and what must
hold for its indices. A decoder undoes writing if it accepts what is written for trees that are well
formed and nothing else. -/
namespace ClassFormat

namespace Counted

variable {κ : Type} [Word κ]

/-- The count is written as it is, whether or not it is the number of items. -/
def writeWith (count : Scalar κ) (items : Put (List α)) : Put (Counted κ α) := do
  let count ← Put.word count.value
  let items ← items
  return ⟨count, items⟩

def write (item : α → Put α) (list : Counted κ α) : Put (Counted κ α) :=
  writeWith list.count (Put.all item list.items)

structure Formed (item : α → Prop) (list : Counted κ α) : Prop where
  counted : list.count.toNat = list.items.length
  items : ∀ one ∈ list.items, item one

end Counted

/-- Moves everything to one place, so that trees are compared without their offsets. -/
def unplaced : Nat → Nat := fun _ => 0

namespace Put

variable {item : α → Put α} {bare : α → β}

theorem map_all {items : List α} (same : ∀ one ∈ items, ∀ offset, bare (item one offset).value = bare one)
    (offset : Nat) : (Put.all item items offset).value.map bare = items.map bare := by
  induction items generalizing offset with
  | nil => rfl
  | cons first rest ih =>
    have head := same first List.mem_cons_self offset
    have tail := ih (fun one member => same one (List.mem_cons_of_mem _ member))
      (offset + (item first offset).bytes.length)
    exact List.cons_eq_cons.mpr ⟨head, tail⟩

end Put

theorem Counted.moved_write {κ : Type} [Word κ] {item : α → Put α} {bare : α → α} {list : Counted κ α}
    (same : ∀ one ∈ list.items, ∀ offset, bare (item one offset).value = bare one) (offset : Nat) :
    (list.write item offset).value.moved unplaced bare = list.moved unplaced bare := by
  have items := Put.map_all same (offset + (Word.toBytes list.count.value).length)
  exact congrArg (Counted.mk (list.count.moved unplaced)) items

/-- From one cursor to another stands what is put, which is the value there. -/
structure Put.Spans (pool : Pool) (put : Put α) (before : Cursor) (value : α) (after : Cursor) : Prop where
  value : (put before.offset).value = value
  passed : before.Passes (put before.offset).bytes after
  met : ∀ demand ∈ (put before.offset).demands, demand.Met pool

/-- A decoder against a way of writing trees; `bare` takes the offsets away. -/
structure Decoder.Undoes (pool : Pool) (decoder : Decoder α) (formed : α → Prop) (write : α → Put α)
    (bare : α → α) : Prop where
  accepted : ∀ (before : State) (value : α) (after : Cursor),
    (∃ trace, decoder before = .ok value ⟨after, trace⟩) ↔
      ∃ tree, formed tree ∧ (write tree).Spans pool before.cursor value after
  /-- What is decoded is itself the tree that was written. -/
  again : ∀ (before : State) (value : α) (after : State), decoder before = .ok value after →
    formed value ∧ (write value).Spans pool before.cursor value after.cursor
  /-- Whatever follows the tree is left. -/
  returned : ∀ tree, formed tree → ∀ (base position : Nat) (rest : Bytes) (trace : Array Event),
    let written := write tree (base + position)
    (∀ demand ∈ written.demands, demand.Met pool) → ∃ recorded,
      decoder ⟨⟨base, position, written.bytes ++ rest⟩, trace⟩ =
        .ok written.value ⟨⟨base, position + written.bytes.length, rest⟩, recorded⟩ ∧
      bare written.value = bare tree

/-- What is put is the value that the layout writes, if it writes it there at all. -/
def Put.Tells (pool : Pool) (layout : Layout α) (value : α) (make : α → β) (put : Put β) : Prop :=
  ∀ offset bytes, layout.Writes pool offset value bytes →
    (put offset).value = make value ∧ (put offset).bytes = bytes ∧
      ∀ demand ∈ (put offset).demands, demand.Met pool

namespace Put.Tells

variable {pool : Pool}

theorem word {κ : Type} [width : Word κ] (scalar : Scalar κ) :
    Tells pool (Layout.word width) scalar id (Put.word scalar.value) := by
  rintro _ _ ⟨rfl, rfl⟩
  exact ⟨rfl, rfl, nofun⟩

theorem index (target : Target) (word : U2) :
    Tells pool (Layout.index target) word id (Put.index target word.value) := by
  rintro _ _ ⟨⟨rfl, rfl⟩, met⟩
  refine ⟨rfl, rfl, ?_⟩
  simp only [Put.index, List.mem_singleton, forall_eq]
  exact Target.check_eq_ok.mp met

section Binds

variable {first : Layout α} {second : Layout β} {a : α} {b : β} {make : α × β → γ}

theorem bind {head : Put α} {tail : α → Put γ} (starts : Tells pool first a id head)
    (goes : Tells pool second b (fun rest => make (a, rest)) (tail a)) :
    Tells pool (first.seq second) (a, b) make (head >>= tail) := by
  rintro offset _ ⟨xs, ys, rfl, one, two⟩
  rcases starts offset xs one with ⟨same, spelt, met⟩
  rcases goes (offset + xs.length) ys two with ⟨made, also, too⟩
  have whole : (head >>= tail) offset = ⟨(tail a (offset + xs.length)).value,
      xs ++ (tail a (offset + xs.length)).bytes,
      (head offset).demands ++ (tail a (offset + xs.length)).demands⟩ := by
    subst spelt
    obtain rfl : (head offset).value = a := same
    rfl
  rw [whole]
  refine ⟨made, by rw [also], fun demand member => ?_⟩
  rcases List.mem_append.mp member with here | there
  · exact met demand here
  · exact too demand there

/-- A part that is not written is what its layout says. -/
theorem unwritten [DecidableEq α] {kind : α} {put : Put γ}
    (others : a = kind → Tells pool second b (fun rest => make (a, rest)) put) :
    Tells pool ((Layout.as (.constant kind) .nothing).seq second) (a, b) make put := by
  rintro offset _ ⟨_, ys, rfl, ⟨_, same, rfl⟩, two⟩
  exact others same offset ys two

end Binds

theorem last {layout : Layout α} {value : α} {make : α → β} {put : Put α}
    (whole : Tells pool layout value id put) :
    Tells pool layout value make (put >>= fun value => pure (make value)) := by
  intro offset bytes written
  rcases whole offset bytes written with ⟨same, spelt, met⟩
  refine ⟨congrArg make same, (List.append_nil _).trans spelt, fun demand member => ?_⟩
  rcases List.mem_append.mp member with here | there
  · exact met demand here
  · cases there

theorem nothing {make : Unit → α} : Tells pool Layout.nothing () make (pure (make ())) := by
  rintro offset _ rfl
  exact ⟨rfl, rfl, nofun⟩

section Shapes

variable {shape : Shape α β} {layout : Layout α} {value : β} {make : β → γ} {put : Put γ}

theorem as {parts : α} (taken : shape.parts? value = some parts)
    (inner : Tells pool layout parts (fun parts => make (shape.make parts)) put) :
    Tells pool (layout.as shape) value make put := by
  rintro offset bytes ⟨whole, rfl, written⟩
  obtain rfl : whole = parts := Option.some.inj ((shape.parts?_make whole).symm.trans taken)
  exact inner offset bytes written

/-- A layout writes no value that is not of its shape. -/
theorem misshapen (wrong : shape.parts? value = none) : Tells pool (layout.as shape) value make put := by
  rintro offset bytes ⟨whole, rfl, written⟩
  rw [shape.parts?_make] at wrong
  cases wrong

end Shapes

theorem constant [DecidableEq α] {value : α} {make : α → β} :
    Tells pool (Layout.as (.constant value) .nothing) value make (pure (make value)) := by
  rintro offset _ ⟨_, -, rfl⟩
  exact ⟨rfl, rfl, nofun⟩

theorem indexPair {first second : Target} {a b : U2} {make : U2 × U2 → β} :
    Tells pool (Layout.indexPair first second) (a, b) make (do
      let a ← Put.index first a.value
      let b ← Put.index second b.value
      return make (a, b)) := by
  rintro offset _ ⟨_, _, rfl, ⟨rfl, rfl⟩, ⟨place, rfl⟩, one, two⟩
  have separate : Tells pool ((Layout.index first).seq (.index second)) (a, b) make (do
      let a ← Put.index first a.value
      let b ← Put.index second b.value
      return make (a, b)) := .bind (.index first a) (.last (.index second b))
  exact separate a.offset _ ⟨_, _, rfl, ⟨⟨rfl, rfl⟩, one⟩, ⟨place, rfl⟩, two⟩

/-- A byte followed by what it selects. -/
theorem tagged {κ : Type} {tagging : Tagging κ} {body : κ → Layout α} {tag : U1} {content : α}
    {make : U1 × α → β} {tail : U1 → Put β}
    (goes : ∀ kind, tagging.ofByte? tag.value = some kind →
      Tells pool (body kind) content (fun rest => make (tag, rest)) (tail tag)) :
    Tells pool (Layout.tagged tagging body) (tag, content) make (Put.word tag.value >>= tail) := by
  rintro offset _ ⟨kind, rest, known, rfl, rfl, written⟩
  have separate : Tells pool (Layout.u1.seq (body kind)) (tag, content) make (Put.word tag.value >>= tail) :=
    .bind (.word tag) (goes kind known)
  exact separate tag.offset _ ⟨[tag.value], rest, rfl, ⟨rfl, (Word.toBytes_u1 _).symm⟩, written⟩

theorem tooDeep {limit : Nat} {value : α} {make : α → β} {put : Put β} :
    Tells pool (Layout.tooDeep limit) value make put := nofun

theorem each {item : α → Put α} {layout : Layout α} {values : List α}
    (tells : ∀ value ∈ values, Tells pool layout value id (item value)) (offset : Nat) (bytes : Bytes)
    (written : (layout.Writes pool).each offset values bytes) :
    (all item values offset).value = values ∧ (all item values offset).bytes = bytes ∧
      ∀ demand ∈ (all item values offset).demands, demand.Met pool := by
  induction values generalizing offset bytes with
  | nil =>
    obtain rfl : bytes = [] := written
    exact ⟨rfl, rfl, nofun⟩
  | cons first rest ih =>
    rcases written with ⟨xs, ys, rfl, one, others⟩
    have tail := ih (fun value member => tells value (List.mem_cons_of_mem _ member))
    -- The items behind the first are put as they are written, as one part.
    have joined : Tells pool (layout.seq (.times rest.length layout)) (first, rest)
        (fun parts => parts.1 :: parts.2) (all item (first :: rest)) :=
      .bind (tells first List.mem_cons_self) (.last fun place spelt run => tail place spelt run.2)
    exact joined offset _ ⟨xs, ys, rfl, one, rfl, others⟩

theorem times {item : α → Put α} {layout : Layout α} {n : Nat} {values : List α}
    (tells : ∀ value ∈ values, Tells pool layout value id (item value)) :
    Tells pool (layout.times n) values id (all item values) :=
  fun offset bytes written => each tells offset bytes written.2

theorem counted {κ : Type} [width : Word κ] {item : α → Put α} {layout : Layout α} {list : Counted κ α}
    (tells : ∀ value ∈ list.items, Tells pool layout value id (item value)) :
    Tells pool (layout.counted width) list id (list.write item) := by
  rintro offset _ ⟨_, ys, rfl, ⟨rfl, rfl⟩, size, written⟩
  have separate : Tells pool ((Layout.word width).seq (layout.times list.items.length))
      (list.count, list.items) (fun parts => ⟨parts.1, parts.2⟩) (list.write item) :=
    .bind (.word list.count) (.last (.times tells))
  refine separate list.count.offset _ ⟨_, ys, rfl, ⟨rfl, rfl⟩, rfl, ?_⟩
  rw [Word.length_toBytes]
  exact written

end Put.Tells

theorem Put.Lays.counted {pool : Pool} {κ : Type} [width : Word κ] {item : α → Put α}
    {layout : Layout α} {list : Counted κ α} (counted : list.count.toNat = list.items.length)
    (lays : ∀ one ∈ list.items, Lays pool layout id (item one)) :
    Lays pool (layout.counted width) id (list.write item) := by
  intro offset met
  rcases each lays (offset + (Word.toBytes list.count.value).length)
    (fun _ member => met _ (List.mem_append_right [] (List.mem_append_left [] member))) with ⟨size, written⟩
  refine ⟨_, rfl, Word.toBytes list.count.value, _, rfl, ⟨rfl, rfl⟩, size.trans counted.symm, ?_⟩
  change (layout.Writes pool).each _ _ ((all item list.items _).bytes ++ [])
  rw [List.append_nil, ← Word.length_toBytes list.count.value]
  exact written

/-- What a layout writes is what is written for trees that are well formed. -/
structure Layout.Spelt (pool : Pool) (layout : Layout α) (formed : α → Prop) (write : α → Put α) : Prop where
  told : ∀ value, Put.Tells pool layout value id (write value)
  sound : ∀ offset value bytes, layout.Writes pool offset value bytes → formed value
  laid : ∀ tree, formed tree → Put.Lays pool layout id (write tree)

namespace Layout.Spelt

variable {pool : Pool} {layout : Layout α} {formed : α → Prop} {write : α → Put α}

theorem counted {κ : Type} [width : Word κ] (item : layout.Spelt pool formed write) :
    (layout.counted width).Spelt pool (Counted.Formed formed) (Counted.write write) where
  told list := .counted fun value _ => item.told value
  sound := by
    rintro offset list _ ⟨xs, ys, rfl, -, size, written⟩
    refine ⟨size.symm, fun one listed => ?_⟩
    rcases Grammar.within_of_mem written listed with ⟨_, _, _, _, here⟩
    exact item.sound _ one _ here
  laid list ok := .counted ok.counted fun one listed => item.laid one (ok.items one listed)

theorem congr {ok : α → Prop} (spelt : layout.Spelt pool formed write)
    (same : ∀ tree, ok tree ↔ formed tree) : layout.Spelt pool ok write := by
  obtain rfl : ok = formed := funext fun tree => propext (same tree)
  exact spelt

theorem nested (spelt : layout.Spelt pool formed write) : layout.nested.Spelt pool formed write where
  told := spelt.told
  sound := spelt.sound
  laid tree ok := .nested (spelt.laid tree ok)

/-- Nothing is written where no level is left. -/
theorem tooDeep {limit : Nat} (none : ∀ tree, ¬ formed tree) :
    (Layout.tooDeep limit).Spelt pool formed write where
  told _ := .tooDeep
  sound := nofun
  laid tree ok := absurd ok (none tree)

theorem undoes (spelt : layout.Spelt pool formed write) {bare : α → α}
    (same : ∀ tree offset, bare (write tree offset).value = bare tree) :
    (layout.decode pool).Undoes pool formed write bare := by
  have reads := decode_reads pool layout
  have again (before : State) (value : α) (after : State)
      (run : layout.decode pool before = .ok value after) :
      formed value ∧ (write value).Spans pool before.cursor value after.cursor := by
    rcases reads.sound run with ⟨bytes, passed, written⟩
    rcases spelt.told value _ _ written with ⟨told, rfl, met⟩
    exact ⟨spelt.sound _ _ _ written, told, passed, met⟩
  have laid (tree : α) (ok : formed tree) (offset : Nat)
      (met : ∀ demand ∈ (write tree offset).demands, demand.Met pool) :
      layout.Writes pool offset (write tree offset).value (write tree offset).bytes := by
    rcases spelt.laid tree ok offset met with ⟨value, rfl, written⟩
    exact written
  refine ⟨fun before value after => ⟨?_, ?_⟩, again, ?_⟩
  · rintro ⟨trace, run⟩
    exact ⟨value, again before value _ run⟩
  · rintro ⟨tree, ok, rfl, passed, met⟩
    exact reads.complete (laid tree ok _ met) passed before.trace
  · intro tree ok base position rest trace written met
    let start : Cursor := ⟨base, position, written.bytes ++ rest⟩
    have passed : start.Passes written.bytes ⟨base, position + written.bytes.length, rest⟩ :=
      ⟨rfl, rfl, rfl⟩
    have here : layout.Writes pool start.offset written.value written.bytes := laid tree ok _ met
    rcases reads.complete here passed trace with ⟨recorded, run⟩
    exact ⟨recorded, run, same tree _⟩

end Layout.Spelt

end ClassFormat
