import ClassFormat.Proofs.Trees

/-! The grammar of stack map tables. A table is a count and so many frames; the type of a frame says
how many items it has and whether it has a delta of its own, and the tag of an item whether it refers
to anything. -/
namespace ClassFormat

section Items

/-- Only objects and uninitialized objects refer to anything. -/
structure VerificationType.Formed (type : VerificationType) : Prop where
  tag : type.tag.toNat = type.kind.number
  reference : type.reference.isSome ↔ type.tag.toNat = 7 ∨ type.tag.toNat = 8

/-- The reference of an object must lead to a class. -/
def VerificationKind.writeReference : VerificationKind → Option U2 → Put (Option U2)
  | .object, some index => return some (← Put.reference .classRef index.value)
  | _, some place => return some (← Put.word place.value)
  | _, none => return none

def VerificationType.write (type : VerificationType) : Put VerificationType := do
  let tag ← Put.word type.tag.value
  let reference ← type.kind.writeReference type.reference
  return ⟨tag, type.kind, reference⟩

theorem VerificationKind.ofByte?_of_number {byte : UInt8} {kind : VerificationKind}
    (same : byte.toNat = kind.number) : ofByte? byte = some kind := by
  rw [ofByte?, same]
  cases kind <;> rfl

theorem VerificationKind.number_refers (kind : VerificationKind) :
    kind.hasReference ↔ kind.number = 7 ∨ kind.number = 8 := by
  cases kind <;> simp [hasReference, number]

theorem VerificationKind.told {pool : Pool} (kind : VerificationKind) (reference : Option U2) :
    Put.Tells pool kind.layout reference id (kind.writeReference reference) := by
  cases kind with
  | object =>
    cases reference with
    | none => exact .misshapen rfl
    | some index => exact .as rfl (.last (.index _ index))
  | uninitialized =>
    cases reference with
    | none => exact .misshapen rfl
    | some place => exact .as rfl (.last (.word place))
  | _ =>
    cases reference with
    | none => exact .constant
    | some index => exact .misshapen (by simp [Shape.constant])

theorem VerificationKind.referring_of_writes {pool : Pool} {kind : VerificationKind} {offset : Nat}
    {reference : Option U2} {bytes : Bytes} (written : kind.layout.Writes pool offset reference bytes) :
    reference.isSome ↔ kind.hasReference := by
  cases kind with
  | object | uninitialized =>
    rcases written with ⟨index, rfl, -⟩
    simp [hasReference]
  | _ =>
    rcases written with ⟨_, rfl, -⟩
    simp [hasReference, Shape.constant]

theorem VerificationKind.laid {pool : Pool} {kind : VerificationKind} {reference : Option U2}
    (refers : reference.isSome ↔ kind.hasReference) :
    Put.Lays pool kind.layout id (kind.writeReference reference) := by
  cases kind with
  | object =>
    cases reference with
    | none => simp [hasReference] at refers
    | some index => exact .as (.last (.index _ _))
  | uninitialized =>
    cases reference with
    | none => simp [hasReference] at refers
    | some place => exact .as (.last (.word _))
  | _ =>
    cases reference with
    | none => exact .as .nothing
    | some index => simp [hasReference] at refers

theorem VerificationType.spelt (pool : Pool) :
    VerificationType.layout.Spelt pool VerificationType.Formed VerificationType.write where
  told := by
    rintro ⟨tag, kind, reference⟩
    refine .as rfl (.tagged fun kind _ => .unwritten ?_)
    rintro rfl
    exact .last (VerificationKind.told _ reference)
  sound := by
    rintro offset _ _ ⟨⟨tag, kind, reference⟩, rfl, known, rest, byte, rfl, rfl, _, ys, rfl,
      ⟨_, same, rfl⟩, written⟩
    obtain rfl : kind = known := same
    have number := VerificationKind.number_of_ofByte? byte
    refine ⟨number, ?_⟩
    rw [VerificationKind.referring_of_writes written, VerificationKind.number_refers]
    exact iff_of_eq (by rw [← number]; rfl)
  laid := by
    rintro ⟨tag, kind, reference⟩ ⟨number, refers⟩
    have selects : VerificationKind.ofByte? tag.value = some kind := VerificationKind.ofByte?_of_number number
    have same : tag.toNat = kind.number := number
    refine .as (.tagged kind selects fun _ => .unwritten (.last (VerificationKind.laid ?_)))
    rw [VerificationKind.number_refers, ← same]
    exact refers

end Items

section Frames

/-- The frame types of a shape. -/
def FrameKind.Covers (type : Nat) : FrameKind → Prop
  | same => type ≤ 63
  | oneItem => 64 ≤ type ∧ type ≤ 127
  | oneItemExtended => type = 247
  | chop => 248 ≤ type ∧ type ≤ 250
  | sameExtended => type = 251
  | append locals => 252 ≤ type ∧ type ≤ 254 ∧ locals = type - 251
  | full => type = 255

theorem FrameKind.ofByte?_eq_some {type : UInt8} {kind : FrameKind} :
    ofByte? type = some kind ↔ kind.Covers type.toNat := by
  have bound := type.toNat_lt
  simp only [ofByte?, UInt8.lt_iff_toNat_lt, ← UInt8.toNat_inj, UInt8.reduceToNat]
  -- Each of the seven ranges decides all the comparisons that are made in turn.
  cases kind <;> simp only [Covers] <;> grind

/-- What a body needs of the type before it. -/
def FrameBody.kind : FrameBody → FrameKind
  | same => .same
  | oneItem _ => .oneItem
  | oneItemExtended .. => .oneItemExtended
  | chop _ => .chop
  | sameExtended _ => .sameExtended
  | append _ locals => .append locals.length
  | full .. => .full

def FrameBody.Formed : FrameBody → Prop
  | same | chop _ | sameExtended _ => True
  | oneItem stack | oneItemExtended _ stack => stack.Formed
  | append _ locals => ∀ type ∈ locals, type.Formed
  | full _ locals stack =>
    locals.Formed VerificationType.Formed ∧ stack.Formed VerificationType.Formed

structure Frame.Formed (frame : Frame) : Prop where
  type : frame.body.kind.Covers frame.type.toNat
  body : frame.body.Formed

def FrameBody.write : FrameBody → Put FrameBody
  | same => return .same
  | oneItem stack => return .oneItem (← stack.write)
  | oneItemExtended delta stack =>
    return .oneItemExtended (← Put.word delta.value) (← stack.write)
  | chop delta => return .chop (← Put.word delta.value)
  | sameExtended delta => return .sameExtended (← Put.word delta.value)
  | append delta locals =>
    return .append (← Put.word delta.value) (← Put.all VerificationType.write locals)
  | full delta locals stack =>
    return .full (← Put.word delta.value) (← locals.write VerificationType.write)
      (← stack.write VerificationType.write)

def Frame.write (frame : Frame) : Put Frame :=
  return ⟨← Put.word frame.type.value, ← frame.body.write⟩

variable {pool : Pool}

theorem FrameBody.told (kind : FrameKind) (body : FrameBody) :
    Put.Tells pool kind.layout body id body.write := by
  have item (type : VerificationType) : Put.Tells pool _ type id type.write :=
    (VerificationType.spelt pool).told type
  cases kind with
  | same =>
    cases body with
    | same => exact .as rfl .nothing
    | _ => exact .misshapen rfl
  | oneItem =>
    cases body with
    | oneItem stack => exact .as rfl (.last (item stack))
    | _ => exact .misshapen rfl
  | oneItemExtended =>
    cases body with
    | oneItemExtended delta stack => exact .as rfl (.bind (.word delta) (.last (item stack)))
    | _ => exact .misshapen rfl
  | chop =>
    cases body with
    | chop delta => exact .as rfl (.last (.word delta))
    | _ => exact .misshapen rfl
  | sameExtended =>
    cases body with
    | sameExtended delta => exact .as rfl (.last (.word delta))
    | _ => exact .misshapen rfl
  | append n =>
    cases body with
    | append delta locals =>
      exact .as rfl (.bind (.word delta) (.last (.times fun type _ => item type)))
    | _ => exact .misshapen rfl
  | full =>
    cases body with
    | full delta locals stack =>
      exact .as rfl (.bind (.word delta) (.bind (.counted fun type _ => item type)
        (.last (.counted fun type _ => item type))))
    | _ => exact .misshapen rfl

theorem FrameBody.formed_of_writes {kind : FrameKind} {offset : Nat} {body : FrameBody} {bytes : Bytes}
    (written : kind.layout.Writes pool offset body bytes) : body.kind = kind ∧ body.Formed := by
  have item := VerificationType.spelt pool
  have list : (Layout.list VerificationType.layout).Spelt pool _ _ := item.counted
  cases kind with
  | same | chop | sameExtended =>
    rcases written with ⟨_, rfl, -⟩
    exact ⟨rfl, trivial⟩
  | oneItem =>
    rcases written with ⟨stack, rfl, written⟩
    exact ⟨rfl, item.sound _ _ _ written⟩
  | oneItemExtended =>
    rcases written with ⟨_, rfl, _, _, rfl, -, written⟩
    exact ⟨rfl, item.sound _ _ _ written⟩
  | append n =>
    rcases written with ⟨⟨delta, locals⟩, rfl, _, _, rfl, -, size, written⟩
    refine ⟨congrArg FrameKind.append size, fun type listed => ?_⟩
    rcases Grammar.within_of_mem written listed with ⟨_, _, _, _, here⟩
    exact item.sound _ type _ here
  | full =>
    rcases written with ⟨_, rfl, _, _, rfl, -, _, _, rfl, one, two⟩
    exact ⟨rfl, list.sound _ _ _ one, list.sound _ _ _ two⟩

theorem FrameBody.laid {body : FrameBody} (formed : body.Formed) :
    Put.Lays pool body.kind.layout id body.write := by
  have item (type : VerificationType) (formed : type.Formed) : Put.Lays pool _ id type.write :=
    (VerificationType.spelt pool).laid type formed
  cases body with
  | same => exact .as .nothing
  | oneItem stack => exact .as (.last (item stack formed))
  | oneItemExtended delta stack => exact .as (.bind (.word _) fun _ => .last (item stack formed))
  | chop delta | sameExtended delta => exact .as (.last (.word _))
  | append delta locals =>
    exact .as (.bind (.word _) fun _ => .last (.times locals fun type listed => item type (formed type listed)))
  | full delta locals stack =>
    rcases formed with ⟨⟨counted, each⟩, also, all⟩
    exact .as (.bind (.word _) fun _ => .bind (.counted counted fun type listed => item type (each type listed))
      fun _ => .last (.counted also fun type listed => item type (all type listed)))

theorem Frame.spelt (pool : Pool) : Frame.layout.Spelt pool Frame.Formed Frame.write where
  told := by
    rintro ⟨type, body⟩
    exact .as rfl (.tagged fun kind _ => .last (FrameBody.told kind body))
  sound := by
    rintro offset _ _ ⟨⟨type, body⟩, rfl, kind, rest, known, rfl, rfl, written⟩
    rcases FrameBody.formed_of_writes written with ⟨rfl, formed⟩
    exact ⟨FrameKind.ofByte?_eq_some.mp known, formed⟩
  laid := by
    rintro ⟨type, body⟩ ⟨covers, formed⟩
    exact .as (.tagged body.kind (FrameKind.ofByte?_eq_some.mpr covers) fun _ => .last (FrameBody.laid formed))

end Frames

section Places

theorem VerificationType.moved_write (type : VerificationType) (offset : Nat) :
    (type.write offset).value.moved unplaced = type.moved unplaced := by
  rcases type with ⟨tag, kind, _ | reference⟩
  all_goals cases kind <;> rfl

theorem FrameBody.moved_write (body : FrameBody) (offset : Nat) :
    (body.write offset).value.moved unplaced = body.moved unplaced := by
  have item (type : VerificationType) (offset : Nat) := type.moved_write offset
  have list (types : Counted UInt16 VerificationType) (offset : Nat) :
      (types.write VerificationType.write offset).value.moved unplaced (VerificationType.moved unplaced) =
        types.moved unplaced (VerificationType.moved unplaced) :=
    Counted.moved_write (fun type _ => item type) offset
  cases body with
  | same | chop delta | sameExtended delta => rfl
  | oneItem stack => exact congrArg FrameBody.oneItem (item stack _)
  | oneItemExtended delta stack => exact congrArg (FrameBody.oneItemExtended _) (item stack _)
  | append delta locals =>
    exact congrArg (FrameBody.append _) (Put.map_all (fun type _ => item type) _)
  | full delta locals stack =>
    change FrameBody.full _ ((locals.write _ _).value.moved unplaced (VerificationType.moved unplaced))
      ((stack.write _ _).value.moved unplaced (VerificationType.moved unplaced)) = _
    rw [list, list]
    rfl

theorem Frame.moved_write (frame : Frame) (offset : Nat) :
    (frame.write offset).value.moved unplaced = frame.moved unplaced :=
  congrArg (Frame.mk _) (frame.body.moved_write _)

end Places

section Deltas

/-- The delta that the format defines, from the bytes of a frame: two kinds have it in their type, and
with the others it follows the type. -/
def Frame.definedDelta : Bytes → Nat
  | [] => 0
  | type :: rest =>
    if type.toNat ≤ 63 then type.toNat
    else if type.toNat ≤ 127 then type.toNat - 64
    else Bytes.toNat (rest.take 2)

theorem Frame.definedDelta_stored {type : UInt8} (large : 127 < type.toNat) (delta : U2) (rest : Bytes) :
    Frame.definedDelta (type :: (Word.toBytes delta.value ++ rest)) = delta.toNat := by
  have low : ¬ type.toNat ≤ 63 := by omega
  have middle : ¬ type.toNat ≤ 127 := by omega
  have two : (Word.toBytes delta.value).length = 2 := Word.length_toBytes _
  simp only [definedDelta, low, middle, if_false]
  rw [List.take_append_of_le_length (Nat.le_of_eq two.symm), List.take_of_length_le (Nat.le_of_eq two)]
  exact Word.toNat_toBytes _

theorem Frame.bytes_write (type : U1) (body : FrameBody) (offset : Nat) :
    (Frame.write ⟨type, body⟩ offset).bytes = type.value :: (body.write (offset + 1)).bytes := by
  change Word.toBytes type.value ++ ((body.write _).bytes ++ []) = _
  rw [List.append_nil, Word.toBytes_u1]
  rfl

theorem Frame.definedDelta_write {frame : Frame} (formed : frame.Formed) (offset : Nat) :
    Frame.definedDelta (frame.write offset).bytes = frame.delta := by
  rcases frame with ⟨type, body⟩
  rcases formed with ⟨covers, -⟩
  rw [Frame.bytes_write]
  cases body with
  | same =>
    have low : type.value.toNat ≤ 63 := covers
    exact if_pos low
  | oneItem stack =>
    have middle : 64 ≤ type.value.toNat ∧ type.value.toNat ≤ 127 := covers
    have high : ¬ type.value.toNat ≤ 63 := by omega
    exact (if_neg high).trans (if_pos middle.2)
  | oneItemExtended stored | sameExtended stored | full stored =>
    have large : 127 < type.value.toNat := by
      have only : type.value.toNat = _ := covers
      omega
    exact Frame.definedDelta_stored large stored _
  | chop stored =>
    have large : 248 ≤ type.value.toNat ∧ _ := covers
    exact Frame.definedDelta_stored (by omega) stored []
  | append stored locals =>
    have large : 252 ≤ type.value.toNat ∧ _ := covers
    exact Frame.definedDelta_stored (by omega) stored _

end Deltas

/-- How a stack map table is decoded, wherever it stands. -/
structure Frame.TableDecoding (pool : Pool) : Prop where
  /-- The payload of the attribute is the table and no more, whatever length is declared. -/
  payload : ∀ (element : Layout Element) (attributes : Layout Table) (length : Nat) (before : State),
    (Payload.layout element attributes .stackMapTable length).decode pool before =
      ((Layout.list Frame.layout).decode pool >>= fun frames => pure (.stackMapTable frames)) before
  undoes : ((Layout.list Frame.layout).decode pool : Decoder (Counted UInt16 Frame)).Undoes pool
    (Counted.Formed Frame.Formed) (Counted.write Frame.write) (Counted.moved unplaced (Frame.moved unplaced))
  /-- The delta of a frame can be read off its bytes. -/
  delta : ∀ frame : Frame, frame.Formed → ∀ offset,
    Frame.definedDelta (frame.write offset).bytes = frame.delta

theorem Frame.table_decoding (pool : Pool) : Frame.TableDecoding pool where
  payload := fun _ _ _ _ => rfl
  undoes := ((Frame.spelt pool).counted).undoes fun _ =>
    Counted.moved_write fun frame _ => frame.moved_write
  delta := fun _ => Frame.definedDelta_write

end ClassFormat
