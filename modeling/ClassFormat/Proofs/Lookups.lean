import ClassFormat.Proofs.Linking

/-! Lookups in a valid pool. What validation has asked of every entry is all that a later lookup can
stumble over, so one that finds its entry finds the rest as well. -/
namespace ClassFormat

/-- Both succeed or both fail, and then for the same reason. -/
def Agree (one : Except Error α) (other : Except Error β) : Prop :=
  one.map (fun _ => ()) = other.map fun _ => ()

theorem Agree.exists_ok {one : Except Error α} {other : Except Error β} (agree : Agree one other)
    (found : ∃ value, other = .ok value) : ∃ value, one = .ok value := by
  obtain ⟨value, rfl⟩ := found
  cases one with
  | ok here => exact ⟨here, rfl⟩
  | error cause => cases agree

namespace Pool

/-- Whether the text of an entry is put together with the text of another. -/
def Follows (pool : Pool) (index target : Nat) : Prop :=
  ∃ entry kind word, pool.get index = .ok entry ∧ entry.constant = .methodHandle kind word ∧
    (ReferenceKind.ofByte? kind.value).isSome ∧ word.toNat = target

/-- What can be relied on in lookups by index. -/
structure Dependable (pool : Pool) : Prop where
  text : ∀ i, Agree (pool.text i) (pool.getOf i [.utf8])
  className : ∀ i, Agree (pool.className i) (pool.getOf i [.classRef])
  nameAndType : ∀ i, Agree (pool.nameAndType i) (pool.getOf i [.nameAndType])
  resolve : ∀ i, Agree (pool.resolve i) (pool.get i)
  /-- A method handle leads to an entry that is none itself. -/
  once : ∀ i j, pool.Follows i j →
    ∃ entry, pool.get j = .ok entry ∧ entry.constant.tag ≠ .methodHandle ∧ ∀ k, ¬ pool.Follows j k
  /-- Nothing is ever asked of a second handle on the way. -/
  shallow : ∀ i deeper, pool.resolve i = pool.textThrough (pool.textThrough deeper) i
  /-- Following handles without any limit comes to the same. -/
  unlimited : ∀ follow, (∀ i, follow i = pool.textThrough follow i) ↔ follow = pool.resolve

variable {pool : Pool} {i j : Nat}

/-! ### Lookups of one kind -/

/-- A lookup that goes on from an entry of one kind agrees with asking for that kind if going on
never fails. -/
theorem agree_getOf {kind : Tag} {look : Entry → Except Error α}
    (here : ∀ entry, pool.get i = .ok entry → entry.constant.tag = kind → ∃ value, look entry = .ok value)
    (other : ∀ entry, entry.constant.tag ≠ kind →
      look entry = .error (.mismatch i [kind] entry.constant.tag)) :
    Agree (pool.get i >>= look) (pool.getOf i [kind]) := by
  unfold Agree getOf
  cases found : pool.get i with
  | error cause => rfl
  | ok entry =>
    by_cases same : entry.constant.tag = kind
    · obtain ⟨value, ok⟩ := here entry found same
      simp [bind, Except.bind, ok, same, pure, Except.pure, Except.map]
    · simp [bind, Except.bind, other entry same, same, throw, throwThe, MonadExceptOf.throw, Except.map]

theorem text_of_designates (led : pool.Designates i [.utf8]) : ∃ text, pool.text i = .ok text := by
  obtain ⟨entry, found, kind⟩ := led
  cases same : entry.constant with
  | utf8 length text => exact ⟨text, text_eq_ok.mpr ⟨entry, length, found, same⟩⟩
  | _ => simp [same, Constant.tag] at kind

theorem getOf_of_designates {kinds : List Tag} (led : pool.Designates i kinds) :
    ∃ entry, pool.getOf i kinds = .ok entry := by
  obtain ⟨entry, found, kind⟩ := led
  exact ⟨entry, getOf_eq_ok.mpr ⟨found, kind⟩⟩

theorem text_agree (i : Nat) : Agree (pool.text i) (pool.getOf i [.utf8]) := by
  refine agree_getOf (fun entry found kind => ?_) fun entry different => ?_
  · cases same : entry.constant with
    | utf8 length text => exact ⟨text, rfl⟩
    | _ => simp [same, Constant.tag] at kind
  · cases same : entry.constant with
    | utf8 length text => simp [same, Constant.tag] at different
    | _ => rfl

section Valid

variable (valid : pool.validate = .ok ())
include valid

theorem linked_of_get {entry : Entry} (found : pool.get i = .ok entry) : entry.constant.Linked pool :=
  validate_eq_ok.mp valid entry (mem_entries.mpr ⟨i, get_eq_ok.mp found⟩)

theorem className_agree (i : Nat) : Agree (pool.className i) (pool.getOf i [.classRef]) := by
  refine agree_getOf (fun entry found kind => ?_) fun entry different => ?_
  · have linked := linked_of_get valid found
    cases same : entry.constant with
    | classRef name =>
      rw [same] at linked
      exact text_of_designates linked
    | _ => simp [same, Constant.tag] at kind
  · cases same : entry.constant with
    | classRef name => simp [same, Constant.tag] at different
    | _ => rfl

theorem nameAndType_agree (i : Nat) : Agree (pool.nameAndType i) (pool.getOf i [.nameAndType]) := by
  refine agree_getOf (fun entry found kind => ?_) fun entry different => ?_
  · have linked := linked_of_get valid found
    cases same : entry.constant with
    | nameAndType name descriptor =>
      rw [same] at linked
      obtain ⟨first, one⟩ := text_of_designates linked.1
      obtain ⟨second, two⟩ := text_of_designates linked.2
      exact ⟨(first, second), by simp only [one, two]; rfl⟩
    | _ => simp [same, Constant.tag] at kind
  · cases same : entry.constant with
    | nameAndType name descriptor => simp [same, Constant.tag] at different
    | _ => rfl

theorem className_of_designates (led : pool.Designates i [.classRef]) :
    ∃ name, pool.className i = .ok name :=
  (className_agree valid i).exists_ok (getOf_of_designates led)

theorem nameAndType_of_designates (led : pool.Designates i [.nameAndType]) :
    ∃ both, pool.nameAndType i = .ok both :=
  (nameAndType_agree valid i).exists_ok (getOf_of_designates led)

/-! ### Text of entries -/

/-- The text of an entry is found if that of the entry it follows is. -/
theorem textThrough_ok {follow : Nat → Except Error String} {entry : Entry}
    (found : pool.get i = .ok entry) (behind : ∀ j, pool.Follows i j → ∃ text, follow j = .ok text) :
    ∃ text, pool.textThrough follow i = .ok text := by
  have linked := linked_of_get valid found
  unfold textThrough
  simp only [found, bind, Except.bind]
  cases same : entry.constant with
  | utf8 | integer | float | long | double => exact ⟨_, rfl⟩
  | classRef name | string name | methodType name | moduleRef name | packageRef name =>
    rw [same] at linked
    exact text_of_designates linked
  | fieldRef owner member | methodRef owner member | interfaceMethodRef owner member =>
    rw [same] at linked
    obtain ⟨name, one⟩ := className_of_designates valid linked.1
    obtain ⟨both, two⟩ := nameAndType_of_designates valid linked.2
    simp only [one, two]
    exact ⟨_, rfl⟩
  | nameAndType name descriptor =>
    rw [same] at linked
    obtain ⟨first, one⟩ := text_of_designates linked.1
    obtain ⟨second, two⟩ := text_of_designates linked.2
    simp only [one, two]
    exact ⟨_, rfl⟩
  | dynamic bootstrap member | invokeDynamic bootstrap member =>
    rw [same] at linked
    obtain ⟨both, one⟩ := nameAndType_of_designates valid linked
    simp only [one]
    exact ⟨_, rfl⟩
  | methodHandle kind target =>
    rw [same] at linked
    obtain ⟨known, byte, -⟩ := linked
    have name := ReferenceKind.ofByte?_eq_some_iff.mpr byte
    obtain ⟨text, one⟩ := behind target.toNat ⟨entry, kind, target, found, same, by rw [name]; rfl, rfl⟩
    simp only [name, one]
    exact ⟨_, rfl⟩

omit valid in
/-- Only the texts of entries that are followed matter. -/
theorem textThrough_congr {follow other : Nat → Except Error String}
    (agree : ∀ j, pool.Follows i j → follow j = other j) :
    pool.textThrough follow i = pool.textThrough other i := by
  unfold textThrough
  cases found : pool.get i with
  | error cause => rfl
  | ok entry =>
    simp only [bind, Except.bind]
    cases same : entry.constant with
    | methodHandle kind target =>
      cases name : ReferenceKind.ofByte? kind.value with
      | none => simp only [name]
      | some known =>
        simp only [agree target.toNat ⟨entry, kind, target, found, same, by rw [name]; rfl, rfl⟩]
    | _ => rfl

/-- Where a method handle leads there is an entry, and it leads no further. -/
theorem follows_once (follows : pool.Follows i j) : ∃ entry, pool.get j = .ok entry ∧
    entry.constant.tag ≠ .methodHandle ∧ ∀ k, ¬ pool.Follows j k := by
  obtain ⟨entry, kind, target, found, same, -, rfl⟩ := follows
  have linked := linked_of_get valid found
  rw [same] at linked
  obtain ⟨known, -, led, present, allowed⟩ := linked
  have other : led.constant.tag ≠ .methodHandle := by
    intro handle
    rw [handle] at allowed
    cases known <;> simp [ReferenceKind.targets] at allowed
  refine ⟨led, get_eq_ok.mpr present, other, ?_⟩
  rintro k ⟨again, kind, target, found, handle, -, -⟩
  obtain rfl : again = led := Except.ok.inj (found.symm.trans (get_eq_ok.mpr present))
  exact other (by rw [handle]; rfl)

/-- One handle may be gone through on the way to a text but never two, so the bound on handles that
are followed is never felt. -/
theorem resolve_eq (deeper : Nat → Except Error String) :
    pool.resolve i = pool.textThrough (pool.textThrough deeper) i := by
  refine textThrough_congr fun j follows => ?_
  obtain ⟨entry, -, -, found, -⟩ := id follows
  obtain ⟨-, -, -, last⟩ := follows_once valid follows
  -- There is at least one slot, so at least one handle may be followed.
  obtain ⟨k, rfl⟩ : ∃ k, i = k + 1 := by
    cases i with
    | zero => cases found
    | succ k => exact ⟨k, rfl⟩
  have within : k < pool.slots.size :=
    (Array.getElem?_eq_some_iff.mp (get_eq_ok.mp found)).choose
  obtain ⟨hops, size⟩ := Nat.exists_eq_add_of_lt within
  rw [show pool.slots.size = (k + hops) + 1 from size]
  exact textThrough_congr fun again further => absurd further (last again)

theorem resolve_agree (i : Nat) : Agree (pool.resolve i) (pool.get i) := by
  rw [resolve_eq valid pool.text]
  cases found : pool.get i with
  | error cause =>
    unfold textThrough
    rw [found]
    rfl
  | ok entry =>
    have behind : ∀ j, pool.Follows i j → ∃ text, pool.textThrough pool.text j = .ok text := by
      intro j follows
      obtain ⟨led, present, -, last⟩ := follows_once valid follows
      exact textThrough_ok valid present fun k again => absurd again (last k)
    obtain ⟨text, resolved⟩ := textThrough_ok valid found behind
    rw [resolved]
    rfl

/-- Whatever text is put together by following handles is the one that is found. -/
theorem eq_resolve_iff (follow : Nat → Except Error String) :
    (∀ i, follow i = pool.textThrough follow i) ↔ follow = pool.resolve := by
  constructor
  · intro fixed
    funext i
    rw [fixed, resolve_eq valid follow]
    exact textThrough_congr fun j _ => fixed j
  · rintro rfl i
    rw [resolve_eq valid (pool.textThrough pool.text)]
    exact textThrough_congr fun j _ => (resolve_eq valid pool.text).symm

theorem dependable : pool.Dependable where
  text := text_agree
  className := className_agree valid
  nameAndType := nameAndType_agree valid
  resolve := resolve_agree valid
  once _ _ := follows_once valid
  shallow _ := resolve_eq valid
  unlimited := eq_resolve_iff valid

end Valid
end Pool

theorem ClassFile.validate_of_decode {bytes : Bytes} {file : ClassFile}
    (decoded : decode bytes = .ok file) : file.pool.validate = .ok () := by
  obtain ⟨_, _, _, _, _, _, _, _, pooled, _⟩ := decode_eq_ok.mp decoded
  exact pooled.2.2.2

/-- Every valid pool can be relied on, among them the empty one and those of all class files. -/
theorem Pool.dependable_of_valid :
    (∀ pool : Pool, pool.validate = .ok () → pool.Dependable) ∧ Pool.empty.Dependable ∧
      ∀ bytes file, ClassFile.decode bytes = .ok file → file.pool.Dependable :=
  ⟨fun _ => dependable, dependable rfl,
    fun _ _ decoded => dependable (ClassFile.validate_of_decode decoded)⟩

/-- A method handle that gets a field. -/
def Pool.handleSample : Pool := ⟨#[
  some ⟨1, ⟨1, 10⟩, .utf8 ⟨1, 11⟩ "A"⟩, some ⟨2, ⟨7, 14⟩, .classRef ⟨1, 15⟩⟩,
  some ⟨3, ⟨1, 17⟩, .utf8 ⟨1, 18⟩ "f"⟩, some ⟨4, ⟨1, 21⟩, .utf8 ⟨1, 22⟩ "I"⟩,
  some ⟨5, ⟨12, 25⟩, .nameAndType ⟨3, 26⟩ ⟨4, 28⟩⟩, some ⟨6, ⟨9, 30⟩, .fieldRef ⟨2, 31⟩ ⟨5, 33⟩⟩,
  some ⟨7, ⟨15, 35⟩, .methodHandle ⟨1, 36⟩ ⟨6, 37⟩⟩]⟩

theorem Pool.handleSample_dependable : handleSample.validate = .ok () ∧ handleSample.Dependable ∧
    handleSample.resolve 7 = .ok "REF_getField A.f:I" :=
  ⟨rfl, dependable_of_valid.1 handleSample rfl, rfl⟩

end ClassFormat
