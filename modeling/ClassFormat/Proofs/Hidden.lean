import ClassFormat.Proofs.Placing

/-! What is not kept of a file. The bytes of an attribute without a meaning and the bits of a
flag word without one may be others, and the file decodes to the same values. -/
namespace ClassFormat

/-- Whether one byte at a position may stand there in place of another without a difference to the
part. -/
def Part.Hides (position : Nat) (one other : UInt8) : Part → Prop
  | passed offset length => offset ≤ position ∧ position < offset + length
  -- The first byte of a flag word holds its upper eight bits.
  | flags set word => ∃ low, (low = 8 ∧ position = word.offset ∨ low = 0 ∧ position = word.offset + 1) ∧
      ∀ bit < 8, set.mask.toNat.testBit (low + bit) = true →
        one.toNat.testBit bit = other.toNat.testBit bit
  | _ => False

/-- Whether some part that can be reached makes no difference between the bytes. -/
def Hidden (parts : List Part) (position : Nat) (one other : UInt8) : Prop :=
  ∃ part, Reaches parts part ∧ part.Hides position one other

/-- Whether bytes that lie at an offset differ from others in hidden places only. -/
structure Varies (parts : List Part) (offset : Nat) (bytes others : Bytes) : Prop where
  length : others.length = bytes.length
  hidden : ∀ i one other, bytes[i]? = some one → others[i]? = some other →
    one = other ∨ Hidden parts (offset + i) one other

/-- Whether all that is hidden in the parts lies in a run of bytes. -/
def Encloses (offset length : Nat) (parts : List Part) : Prop :=
  ∀ position one other, Hidden parts position one other → offset ≤ position ∧ position < offset + length

section Reaches

variable {parts more : List Part} {part : Part}

theorem Reaches.mono (reaches : Reaches parts part) (fewer : ∀ part ∈ parts, part ∈ more) :
    Reaches more part := by
  cases reaches with
  | listed member => exact .listed (fewer _ member)
  | within member deeper => exact .within (fewer _ member) deeper

theorem Reaches.append (reaches : Reaches (parts ++ more) part) :
    Reaches parts part ∨ Reaches more part := by
  cases reaches with
  | listed member =>
    rcases List.mem_append.mp member with member | member
    · exact .inl (.listed member)
    · exact .inr (.listed member)
  | within member deeper =>
    rcases List.mem_append.mp member with member | member
    · exact .inl (.within member deeper)
    · exact .inr (.within member deeper)

theorem Reaches.table {held : Table} (reaches : Reaches [.table held] part) :
    part = .table held ∨ Reaches held.parts part := by
  cases reaches with
  | listed member => exact .inl (List.mem_singleton.mp member)
  | within member deeper =>
    cases List.mem_singleton.mp member
    exact .inr deeper

theorem Hidden.mono {position : Nat} {one other : UInt8} (hidden : Hidden parts position one other)
    (fewer : ∀ part ∈ parts, part ∈ more) : Hidden more position one other := by
  obtain ⟨part, reaches, hides⟩ := hidden
  exact ⟨part, reaches.mono fewer, hides⟩

theorem Hidden.append {position : Nat} {one other : UInt8}
    (hidden : Hidden (parts ++ more) position one other) :
    Hidden parts position one other ∨ Hidden more position one other := by
  obtain ⟨part, reaches, hides⟩ := hidden
  rcases reaches.append with reaches | reaches
  · exact .inl ⟨part, reaches, hides⟩
  · exact .inr ⟨part, reaches, hides⟩

/-- A table hides nothing but what its attributes hide. -/
theorem Hidden.table {held : Table} {position : Nat} {one other : UInt8}
    (hidden : Hidden [.table held] position one other) : Hidden held.parts position one other := by
  obtain ⟨part, reaches, hides⟩ := hidden
  rcases reaches.table with rfl | reaches
  · exact hides.elim
  · exact ⟨part, reaches, hides⟩

end Reaches

namespace Varies

variable {parts more : List Part} {offset : Nat} {bytes others xs ys : Bytes}

theorem mono (varies : Varies parts offset bytes others)
    (kept : ∀ i one other, i < bytes.length → Hidden parts (offset + i) one other →
      Hidden more (offset + i) one other) : Varies more offset bytes others := by
  refine ⟨varies.length, fun i one other here there => ?_⟩
  obtain ⟨inside, -⟩ := List.getElem?_eq_some_iff.mp here
  rcases varies.hidden i one other here there with same | hidden
  · exact .inl same
  · exact .inr (kept i one other inside hidden)

/-- Where nothing is hidden there is no difference. -/
theorem eq (varies : Varies parts offset bytes others)
    (plain : ∀ position one other, ¬ Hidden parts position one other) : others = bytes := by
  refine List.ext_getElem varies.length fun i inside within => ?_
  rcases varies.hidden i _ _ (List.getElem?_eq_getElem within) (List.getElem?_eq_getElem inside) with
    same | hidden
  · exact same.symm
  · exact absurd hidden (plain _ _ _)

/-- What lies one behind the other varies each on its own. -/
theorem append (varies : Varies (parts ++ more) offset (xs ++ ys) others)
    (first : Encloses offset xs.length parts) (second : Encloses (offset + xs.length) ys.length more) :
    ∃ front back, others = front ++ back ∧ Varies parts offset xs front ∧
      Varies more (offset + xs.length) ys back := by
  have size := varies.length
  rw [List.length_append] at size
  refine ⟨others.take xs.length, others.drop xs.length, (List.take_append_drop _ _).symm, ?_, ?_⟩
  · refine ⟨by rw [List.length_take]; omega, fun i one other here there => ?_⟩
    obtain ⟨inside, -⟩ := List.getElem?_eq_some_iff.mp here
    have whole : (xs ++ ys)[i]? = some one := by rw [List.getElem?_append_left inside, here]
    have found : others[i]? = some other := by rw [← there, List.getElem?_take_of_lt inside]
    rcases varies.hidden i one other whole found with same | hidden
    · exact .inl same
    rcases hidden.append with hidden | hidden
    · exact .inr hidden
    · have place := second _ _ _ hidden
      omega
  · refine ⟨by rw [List.length_drop]; omega, fun i one other here there => ?_⟩
    have whole : (xs ++ ys)[xs.length + i]? = some one := by
      rw [List.getElem?_append_right (Nat.le_add_right _ _), Nat.add_sub_cancel_left, here]
    have found : others[xs.length + i]? = some other := by rw [← there, List.getElem?_drop]
    rcases varies.hidden (xs.length + i) one other whole found with same | hidden
    · exact .inl same
    rw [← Nat.add_assoc] at hidden
    rcases hidden.append with hidden | hidden
    · have place := first _ _ _ hidden
      omega
    · exact .inr hidden

end Varies

/-- Hidden places lie in the part that hides them. -/
theorem Part.inside_of_hides {pool : Pool} {part : Part} {offset position : Nat} {bytes : Bytes}
    {one other : UInt8} (written : (Part.grammar pool).Within offset bytes part)
    (hides : part.Hides position one other) : offset ≤ position ∧ position < offset + bytes.length := by
  obtain ⟨front, content, back, rfl, here⟩ := written
  have start := Part.start_of_grammar here
  have stop := Part.stop_of_grammar here
  have bounds : part.offset ≤ position ∧ position < part.stop := by
    cases part with
    | passed => exact hides
    | flags set word =>
      obtain ⟨low, place, -⟩ := hides
      simp only [Part.offset, Part.stop]
      omega
    | _ => exact hides.elim
  simp only [List.length_append]
  omega

theorem encloses_of_each {pool : Pool} {parts : List Part} {offset : Nat} {bytes : Bytes}
    (written : (Part.grammar pool).each offset parts bytes) : Encloses offset bytes.length parts := by
  intro position one other hidden
  obtain ⟨part, reaches, hides⟩ := hidden
  have within := reaches.written fun inner member => Grammar.within_of_mem written member
  exact Part.inside_of_hides within hides

/-- Whether the part can hide nothing, not even in parts of its own. -/
def Part.isRigid : Part → Bool
  | flags .. | passed .. | table _ => false
  | _ => true

/-- Parts in which nothing is hidden. -/
def Rigid (parts : List Part) : Prop := ∀ part ∈ parts, part.isRigid = true

theorem Rigid.not_hidden {parts : List Part} (rigid : Rigid parts) (position : Nat)
    (one other : UInt8) : ¬ Hidden parts position one other := by
  intro hidden
  obtain ⟨part, reaches, hides⟩ := hidden
  cases reaches with
  | listed member =>
    have plain := rigid part member
    cases part with
    | flags | passed => cases plain
    | _ => exact hides
  | within member _ => cases rigid _ member

section Rigid

variable {parts more : List Part}

@[simp] theorem rigid_nil : Rigid [] := by
  intro part member
  cases member

@[simp] theorem rigid_cons {part : Part} :
    Rigid (part :: parts) ↔ part.isRigid = true ∧ Rigid parts := List.forall_mem_cons

@[simp] theorem rigid_append : Rigid (parts ++ more) ↔ Rigid parts ∧ Rigid more :=
  List.forall_mem_append

theorem rigid_number [Word κ] (scalar : Scalar κ) : Rigid [Part.number scalar] :=
  rigid_cons.mpr ⟨rfl, rigid_nil⟩

theorem rigid_flatMap {item : α → List Part} (each : ∀ value, Rigid (item value)) (values : List α) :
    Rigid (values.flatMap item) := by
  intro part member
  obtain ⟨value, _, inner⟩ := List.mem_flatMap.mp member
  exact each value part inner

theorem rigid_counted [Word κ] {item : α → List Part} (each : ∀ value, Rigid (item value))
    (list : Counted κ α) : Rigid (list.parts item) :=
  rigid_cons.mpr ⟨rfl, rigid_flatMap each list.items⟩

end Rigid

theorem Encloses.behind {front parts : List Part} {offset before length : Nat} (plain : Rigid front)
    (rest : Encloses (offset + before) length parts) :
    Encloses offset (before + length) (front ++ parts) := by
  intro position one other hidden
  rcases hidden.append with hidden | hidden
  · exact absurd hidden (plain.not_hidden _ _ _)
  · have place := rest position one other hidden
    omega

/-- What lies behind parts in which nothing is hidden varies on its own. -/
theorem Varies.behind {front parts : List Part} {offset : Nat} {xs ys others : Bytes}
    (plain : Rigid front) (varies : Varies (front ++ parts) offset (xs ++ ys) others)
    (rest : Encloses (offset + xs.length) ys.length parts) :
    ∃ back, others = xs ++ back ∧ Varies parts (offset + xs.length) ys back := by
  have first : Encloses offset xs.length front :=
    fun position one other hidden => absurd hidden (plain.not_hidden position one other)
  obtain ⟨front, back, rfl, head, tail⟩ := varies.append first rest
  exact ⟨back, by rw [head.eq plain.not_hidden], tail⟩

/-- What is hidden in the parts of a layout makes no difference to what it writes. -/
structure Layout.Keeps (pool : Pool) (layout : Layout α) (parts : α → List Part) : Prop where
  described : layout.Describes pool parts
  keeps : ∀ offset value bytes others, layout.Writes pool offset value bytes →
    Varies (parts value) offset bytes others → layout.Writes pool offset value others

namespace Layout.Keeps

open ClassFormat.Part (number)

variable {pool : Pool}

theorem encloses {layout : Layout α} {parts : α → List Part} (keeps : layout.Keeps pool parts)
    (offset : Nat) (value : α) (bytes : Bytes) (written : layout.Writes pool offset value bytes) :
    Encloses offset bytes.length (parts value) :=
  encloses_of_each (keeps.described offset value bytes written)

theorem rigid {layout : Layout α} {parts : α → List Part} (described : layout.Describes pool parts)
    (plain : ∀ value, Rigid (parts value)) : layout.Keeps pool parts where
  described := described
  keeps offset value bytes others written varies := by
    rw [varies.eq (plain value).not_hidden]
    exact written

theorem word {κ : Type} [width : Word κ] :
    (Layout.word width).Keeps pool fun scalar => [number scalar] :=
  rigid .word rigid_number

theorem index (target : Target) :
    (Layout.index target).Keeps pool fun word => [.index word target] :=
  rigid (.index target) fun _ => rigid_cons.mpr ⟨rfl, rigid_nil⟩

theorem indexPair (first second : Target) : (Layout.indexPair first second).Keeps pool
    fun words => [.index words.1 first, .index words.2 second] :=
  rigid (.indexPair first second) fun _ => rigid_cons.mpr ⟨rfl, rigid_cons.mpr ⟨rfl, rigid_nil⟩⟩

theorem seq {first : Layout α} {second : Layout β} {parts : α → List Part} {more : β → List Part}
    (head : first.Keeps pool parts) (tail : second.Keeps pool more) :
    (first.seq second).Keeps pool fun pair => parts pair.1 ++ more pair.2 where
  described := .seq head.described tail.described
  keeps := by
    intro offset pair _ others written varies
    obtain ⟨xs, ys, rfl, one, two⟩ := written
    obtain ⟨front, back, rfl, first, second⟩ := varies.append (head.encloses _ _ _ one)
      (tail.encloses _ _ _ two)
    refine ⟨front, back, rfl, head.keeps _ _ _ _ one first, ?_⟩
    rw [first.length]
    exact tail.keeps _ _ _ _ two second

theorem as {shape : Shape α β} {layout : Layout α} {parts : α → List Part} {whole : β → List Part}
    (inner : layout.Keeps pool parts) (same : ∀ value, whole (shape.make value) = parts value) :
    (layout.as shape).Keeps pool whole where
  described := .as inner.described same
  keeps := by
    intro offset _ bytes others written varies
    obtain ⟨value, rfl, written⟩ := written
    rw [same] at varies
    exact ⟨value, rfl, inner.keeps _ _ _ _ written varies⟩

end Layout.Keeps

namespace Grammar

variable {item : Grammar α} {parts : α → List Part} {offset : Nat} {values : List α}
  {bytes others : Bytes}

theorem each_encloses
    (encloses : ∀ offset value bytes, item offset value bytes →
      Encloses offset bytes.length (parts value))
    (written : item.each offset values bytes) : Encloses offset bytes.length (values.flatMap parts) := by
  induction values generalizing offset bytes with
  | nil => exact fun position one other hidden => absurd hidden (rigid_nil.not_hidden _ _ _)
  | cons value rest ih =>
    obtain ⟨xs, ys, rfl, head, tail⟩ := written
    intro position one other hidden
    rw [List.length_append]
    rcases hidden.append with hidden | hidden
    · have place := encloses _ _ _ head _ _ _ hidden
      omega
    · have place := ih tail _ _ _ hidden
      omega

/-- Values one behind the other vary each on its own. -/
theorem each_keeps
    (encloses : ∀ offset value bytes, item offset value bytes →
      Encloses offset bytes.length (parts value))
    (keeps : ∀ offset value bytes others, item offset value bytes →
      Varies (parts value) offset bytes others → item offset value others)
    (written : item.each offset values bytes)
    (varies : Varies (values.flatMap parts) offset bytes others) : item.each offset values others := by
  induction values generalizing offset bytes others with
  | nil =>
    rw [varies.eq rigid_nil.not_hidden]
    exact written
  | cons value rest ih =>
    obtain ⟨xs, ys, rfl, head, tail⟩ := written
    obtain ⟨front, back, rfl, first, second⟩ :=
      varies.append (encloses _ _ _ head) (each_encloses encloses tail)
    refine ⟨front, back, rfl, keeps _ _ _ _ head first, ?_⟩
    rw [first.length]
    exact ih tail second

end Grammar

section Flags

/-- The upper bits of a two-byte word are those of its first byte. -/
theorem testBit_toNat_pair (upper lower : UInt8) (bit : Nat) :
    (Bytes.toNat [upper, lower]).testBit bit =
      if bit < 8 then lower.toNat.testBit bit else upper.toNat.testBit (bit - 8) := by
  have value : Bytes.toNat [upper, lower] = 2 ^ 8 * upper.toNat + lower.toNat := by
    simp [Bytes.toNat]
    omega
  rw [value]
  exact Nat.testBit_two_pow_mul_add upper.toNat lower.toNat_lt bit

theorem UInt16.and_eq_of_testBit {word other mask : UInt16}
    (agree : ∀ bit < 16, mask.toNat.testBit bit = true →
      word.toNat.testBit bit = other.toNat.testBit bit) : word &&& mask = other &&& mask := by
  apply UInt16.eq_of_toBitVec_eq
  apply BitVec.eq_of_getLsbD_eq
  intro bit inside
  simp only [UInt16.toBitVec_and, BitVec.getLsbD_and]
  cases masked : mask.toBitVec.getLsbD bit with
  | false => rw [Bool.and_false, Bool.and_false]
  | true =>
    have same : word.toBitVec.getLsbD bit = other.toBitVec.getLsbD bit := agree bit inside masked
    rw [same]

variable {set : FlagSet} {word : Scalar (Flags set)}

theorem Hidden.flags {position : Nat} {one other : UInt8}
    (hidden : Hidden [.flags set word] position one other) :
    (Part.flags set word).Hides position one other := by
  obtain ⟨part, reaches, hides⟩ := hidden
  cases reaches with
  | listed member =>
    cases List.mem_singleton.mp member
    exact hides
  | within member _ => cases List.mem_singleton.mp member

/-- The bits of one byte of a flag word that have a meaning are the same. -/
theorem Varies.flags_byte {bytes others : Bytes} {one other : UInt8} (low i : Nat)
    (varies : Varies [.flags set word] word.offset bytes others) (here : bytes[i]? = some one)
    (there : others[i]? = some other) (place : low = 8 ∧ i = 0 ∨ low = 0 ∧ i = 1) (bit : Nat)
    (inside : bit < 8) (masked : set.mask.toNat.testBit (low + bit) = true) :
    one.toNat.testBit bit = other.toNat.testBit bit := by
  rcases varies.hidden i one other here there with rfl | hidden
  · rfl
  · obtain ⟨found, same, agree⟩ := hidden.flags
    obtain rfl : found = low := by omega
    exact agree bit inside masked

theorem Varies.flags_eq {bits : UInt16} {others : Bytes}
    (varies : Varies [.flags set word] word.offset (Word.toBytes bits) others) :
    ∃ other : UInt16, others = Word.toBytes other ∧ Flags.truncate set bits = Flags.truncate set other := by
  have size : others.length = Word.width UInt16 := by
    rw [varies.length, Word.length_toBytes]
  have two : (Word.toBytes bits).length = 2 := Word.length_toBytes bits
  refine ⟨Word.ofBytes others, (Word.toBytes_ofBytes others size).symm, ?_⟩
  have number : bits.toNat = Bytes.toNat (Word.toBytes bits) := (Word.toNat_toBytes bits).symm
  have changed : (Word.ofBytes others : UInt16).toNat = Bytes.toNat others :=
    Word.toNat_ofBytes others size
  generalize Word.toBytes bits = bytes at varies two number
  match bytes, two, others, size with
  | [a, b], _, [c, d], _ =>
    have masked : bits &&& set.mask = Word.ofBytes [c, d] &&& set.mask := by
      apply UInt16.and_eq_of_testBit
      intro bit inside known
      rw [number, changed, testBit_toNat_pair, testBit_toNat_pair]
      by_cases lower : bit < 8
      · rw [if_pos lower, if_pos lower]
        exact varies.flags_byte 0 1 rfl rfl (.inr ⟨rfl, rfl⟩) bit lower
          (by rwa [Nat.zero_add])
      · rw [if_neg lower, if_neg lower]
        exact varies.flags_byte 8 0 rfl rfl (.inl ⟨rfl, rfl⟩) (bit - 8) (by omega)
          (by rwa [Nat.add_sub_cancel' (by omega)])
    simp only [Flags.truncate, masked]

end Flags

namespace Layout.Keeps

open ClassFormat.Part (number)

variable {pool : Pool}

theorem counted {κ : Type} [width : Word κ] {item : Layout α} {parts : α → List Part}
    (each : item.Keeps pool parts) :
    (item.counted width).Keeps pool fun list => list.parts parts where
  described := .counted each.described
  keeps := by
    intro offset list _ others written varies
    obtain ⟨_, ys, rfl, ⟨rfl, rfl⟩, size, tail⟩ := written
    have items := Grammar.each_encloses each.encloses tail
    rw [← Word.length_toBytes list.count.value] at items
    obtain ⟨back, rfl, rest⟩ := Varies.behind (rigid_number list.count) varies items
    rw [Word.length_toBytes] at rest
    exact ⟨_, back, rfl, ⟨rfl, rfl⟩, size, Grammar.each_keeps each.encloses each.keeps tail rest⟩

/-- Only the bits that have a meaning are kept of a flag word. -/
theorem flags (set : FlagSet) : (Layout.flags set).Keeps pool fun word => [.flags set word] where
  described := .flags set
  keeps := by
    intro offset word _ others written varies
    obtain ⟨rfl, bits, rfl, kept⟩ := written
    obtain ⟨other, rfl, same⟩ := varies.flags_eq
    exact ⟨rfl, other, rfl, by rw [kept, same]⟩

end Layout.Keeps
end ClassFormat
