import ClassFormat.Proofs.Passing

/-! Decoders against grammars. A grammar says which bytes are written for a value from an
offset on. A decoder reads a grammar if it succeeds exactly on those bytes, whatever follows
them and whatever has been recorded before, and passes no others. -/
namespace ClassFormat

theorem Error.bind_eq_ok {first : Except Error α} {next : α → Except Error β} {value : β} :
    (first >>= next) = .ok value ↔ ∃ part, first = .ok part ∧ next part = .ok value := by
  cases first with
  | ok part => simp [bind, Except.bind]
  | error cause => simp [bind, Except.bind]

theorem Error.map_eq_ok {outcome : Except Error α} :
    (outcome.map fun _ => ()) = .ok () ↔ ∃ value, outcome = .ok value := by
  cases outcome <;> simp [Except.map]

/-- The bytes that may stand for a value from an offset on. -/
abbrev Grammar (α : Type) := Nat → α → Bytes → Prop

/-- Values one behind the other. -/
def Grammar.each (item : Grammar α) : Grammar (List α)
  | _, [], bytes => bytes = []
  | offset, value :: rest, bytes =>
    ∃ xs ys, bytes = xs ++ ys ∧ item offset value xs ∧ each item (offset + xs.length) rest ys

namespace Grammar

/-- A value behind a part that it depends on. -/
def bind (head : Grammar α) (tail : α → Grammar β) : Grammar β := fun offset value bytes =>
  ∃ part xs ys, bytes = xs ++ ys ∧ head offset part xs ∧ tail part (offset + xs.length) value ys

/-- A word in its place. -/
def word {κ : Type} [Word κ] : Grammar (Scalar κ) := fun offset scalar bytes =>
  scalar.offset = offset ∧ bytes = Word.toBytes scalar.value

section Bind

variable {offset : Nat} {value : β} {bytes : Bytes}

theorem bind_word {κ : Type} [Word κ] {tail : Scalar κ → Grammar β} :
    word.bind tail offset value bytes ↔ ∃ (first : κ) (rest : Bytes),
      bytes = Word.toBytes first ++ rest ∧
        tail ⟨first, offset⟩ (offset + Word.width κ) value rest := by
  constructor
  · intro written
    obtain ⟨scalar, _, rest, rfl, ⟨rfl, rfl⟩, written⟩ := written
    rw [Word.length_toBytes] at written
    exact ⟨scalar.value, rest, rfl, written⟩
  · intro written
    obtain ⟨first, rest, rfl, written⟩ := written
    refine ⟨⟨first, offset⟩, _, rest, rfl, ⟨rfl, rfl⟩, ?_⟩
    rw [Word.length_toBytes]
    exact written

/-- What is known without passing anything leaves no trace in the bytes. -/
theorem bind_unwritten (known : Nat → α → Prop) {tail : α → Grammar β} :
    bind (fun offset part bytes => known offset part ∧ bytes = []) tail offset value bytes ↔
      ∃ part, known offset part ∧ tail part offset value bytes := by
  constructor
  · intro written
    obtain ⟨part, _, rest, rfl, ⟨here, rfl⟩, written⟩ := written
    exact ⟨part, here, written⟩
  · intro written
    obtain ⟨part, here, written⟩ := written
    exact ⟨part, [], bytes, rfl, ⟨here, rfl⟩, written⟩

theorem bind_offset {tail : Nat → Grammar β} :
    bind (fun offset place bytes => place = offset ∧ bytes = []) tail offset value bytes ↔
      tail offset offset value bytes := by
  simp only [bind_unwritten fun offset place => place = offset, exists_eq_left]

theorem bind_nothing {tail : Grammar β} :
    bind (fun _ (_ : Unit) bytes => bytes = []) (fun _ => tail) offset value bytes ↔
      tail offset value bytes := by
  constructor
  · intro written
    obtain ⟨_, _, rest, rfl, rfl, written⟩ := written
    exact written
  · intro written
    exact ⟨(), [], bytes, rfl, rfl, written⟩

end Bind
end Grammar

structure Decoder.Reads (decoder : Decoder α) (writes : Grammar α) : Prop where
  sound : ∀ {before after : State} {value : α}, decoder before = .ok value after →
    ∃ bytes, before.cursor.Passes bytes after.cursor ∧ writes before.cursor.offset value bytes
  complete : ∀ {before after : Cursor} {value : α} {bytes : Bytes},
    writes before.offset value bytes → before.Passes bytes after →
    ∀ trace, ∃ recorded, decoder ⟨before, trace⟩ = .ok value ⟨after, recorded⟩

namespace Decoder

theorem bind_eq_ok {first : Decoder α} {next : α → Decoder β} {before after : State} {value : β} :
    (first >>= next) before = .ok value after ↔
      ∃ part middle, first before = .ok part middle ∧ next part middle = .ok value after := by
  constructor
  · intro run
    change EStateM.bind first next before = _ at run
    unfold EStateM.bind at run
    split at run
    next part middle head => exact ⟨part, middle, head, run⟩
    next => cases run
  · intro written
    rcases written with ⟨part, middle, head, tail⟩
    change EStateM.bind first next before = _
    simp only [EStateM.bind, head, tail]

namespace Reads

theorem congr {decoder : Decoder α} {writes others : Grammar α} (reads : decoder.Reads writes)
    (same : ∀ offset value bytes, others offset value bytes ↔ writes offset value bytes) :
    decoder.Reads others where
  sound run := by
    obtain ⟨bytes, passed, written⟩ := reads.sound run
    exact ⟨bytes, passed, (same _ _ _).mpr written⟩
  complete written passed trace := reads.complete ((same _ _ _).mp written) passed trace

theorem pure (value : α) :
    (Pure.pure value : Decoder α).Reads fun _ result bytes => result = value ∧ bytes = [] where
  sound run := by
    cases run
    exact ⟨[], .refl _, rfl, rfl⟩
  complete := by
    rintro before after result bytes ⟨rfl, rfl⟩ passed trace
    obtain rfl := passed.nil
    exact ⟨trace, rfl⟩

theorem throw (cause : Error) : (throw cause : Decoder α).Reads fun _ _ _ => False where
  sound run := by cases run
  complete := False.elim

theorem bind {first : Decoder α} {next : α → Decoder β} {head : Grammar α}
    {tail : α → Grammar β} (starts : first.Reads head) (goes : ∀ part, (next part).Reads (tail part)) :
    (first >>= next).Reads (head.bind tail) where
  sound run := by
    obtain ⟨part, middle, ran, rest⟩ := bind_eq_ok.mp run
    obtain ⟨xs, passed, written⟩ := starts.sound ran
    obtain ⟨ys, further, more⟩ := (goes part).sound rest
    rw [passed.offset] at more
    exact ⟨xs ++ ys, passed.trans further, part, xs, ys, rfl, written, more⟩
  complete := by
    rintro before after value _ ⟨part, xs, ys, rfl, written, more⟩ passed trace
    obtain ⟨middle, first, second⟩ := passed.split
    rw [← first.offset] at more
    obtain ⟨recorded, ran⟩ := starts.complete written first trace
    obtain ⟨final, rest⟩ := (goes part).complete more second recorded
    exact ⟨final, bind_eq_ok.mpr ⟨part, _, ran, rest⟩⟩

theorem onCursor {step : Cursor → Except Error α × Cursor} {writes : Grammar α}
    (exact : ∀ {before after value}, step before = (.ok value, after) ↔
      ∃ bytes, writes before.offset value bytes ∧ before.Passes bytes after) :
    (Decoder.onCursor step).Reads writes where
  sound {before after value} run := by
    have moved : step before.cursor = (.ok value, after.cursor) := by
      unfold Decoder.onCursor at run
      split at run
      next h => cases run; exact h
      next => cases run
    obtain ⟨bytes, written, passed⟩ := exact.mp moved
    exact ⟨bytes, passed, written⟩
  complete {before after value bytes} written passed trace := by
    have moved := exact.mpr ⟨bytes, written, passed⟩
    exact ⟨trace, by simp only [Decoder.onCursor, moved]⟩

theorem read {κ : Type} [Word κ] :
    (Decoder.read : Decoder (Scalar κ)).Reads Grammar.word := by
  refine onCursor (Cursor.read_eq_ok.trans ⟨?_, ?_⟩)
  · rintro ⟨place, passed⟩
    exact ⟨_, ⟨place, rfl⟩, passed⟩
  · intro written
    rcases written with ⟨_, ⟨place, rfl⟩, passed⟩
    exact ⟨place, passed⟩

theorem take (n : Nat) :
    (Decoder.take n).Reads fun _ taken bytes => taken.length = n ∧ bytes = taken := by
  refine onCursor (Cursor.take_eq_ok.trans ⟨?_, ?_⟩)
  · rintro ⟨size, passed⟩
    exact ⟨_, ⟨size, rfl⟩, passed⟩
  · intro written
    rcases written with ⟨_, ⟨size, rfl⟩, passed⟩
    exact ⟨size, passed⟩

theorem skip (n : Nat) : (Decoder.skip n).Reads fun _ _ bytes => bytes.length = n :=
  onCursor Cursor.skip_eq_ok

theorem offset : Decoder.offset.Reads fun offset value bytes => value = offset ∧ bytes = [] where
  sound run := by
    cases run
    exact ⟨[], .refl _, rfl, rfl⟩
  complete := by
    rintro before after value bytes ⟨rfl, rfl⟩ passed trace
    obtain rfl := passed.nil
    exact ⟨trace, rfl⟩

theorem record (event : Event) : (Decoder.record event).Reads fun _ _ bytes => bytes = [] where
  sound run := by
    cases run
    exact ⟨[], .refl _, rfl⟩
  complete := by
    rintro before after value bytes rfl passed trace
    obtain rfl := passed.nil
    exact ⟨trace.push event, rfl⟩

theorem demand (outcome : Except Error α) :
    (Decoder.demand outcome).Reads fun _ value bytes => outcome = .ok value ∧ bytes = [] := by
  cases outcome with
  | ok result => exact (pure result).congr (by simp [eq_comm])
  | error cause => exact (throw cause).congr (by simp)

section Steps

variable {next : α → Decoder β} {tail : α → Grammar β}

theorem readThen {κ : Type} [Word κ] {next : Scalar κ → Decoder β} {tail : Scalar κ → Grammar β}
    (goes : ∀ scalar, (next scalar).Reads (tail scalar)) :
    (Decoder.read >>= next).Reads fun offset value bytes => ∃ (first : κ) (rest : Bytes),
      bytes = Word.toBytes first ++ rest ∧
        tail ⟨first, offset⟩ (offset + Word.width κ) value rest :=
  (bind read goes).congr fun _ _ _ => Grammar.bind_word.symm

theorem takeThen {n : Nat} {next : Bytes → Decoder β} {tail : Bytes → Grammar β}
    (goes : ∀ taken, (next taken).Reads (tail taken)) :
    (Decoder.take n >>= next).Reads fun offset value bytes => ∃ taken rest,
      bytes = taken ++ rest ∧ taken.length = n ∧ tail taken (offset + n) value rest := by
  refine (bind (take n) goes).congr fun offset value bytes => ⟨?_, ?_⟩
  · intro written
    obtain ⟨taken, rest, rfl, rfl, written⟩ := written
    exact ⟨taken, taken, rest, rfl, ⟨rfl, rfl⟩, written⟩
  · intro written
    obtain ⟨taken, _, rest, rfl, ⟨size, rfl⟩, written⟩ := written
    rw [size] at written
    exact ⟨_, rest, rfl, size, written⟩

/-- The offset is known before anything is passed. -/
theorem offsetThen {next : Nat → Decoder β} {tail : Nat → Grammar β}
    (goes : ∀ place, (next place).Reads (tail place)) :
    (Decoder.offset >>= next).Reads fun offset => tail offset offset :=
  (bind offset goes).congr fun _ _ _ => Grammar.bind_offset.symm

theorem demandThen {outcome : Except Error α} (goes : ∀ part, (next part).Reads (tail part)) :
    (Decoder.demand outcome >>= next).Reads fun offset value bytes =>
      ∃ part, outcome = .ok part ∧ tail part offset value bytes :=
  (bind (demand outcome) goes).congr fun _ _ _ =>
    (Grammar.bind_unwritten fun _ part => outcome = .ok part).symm

/-- A step that passes nothing does not show. -/
theorem silent {first : Decoder Unit} {next : Decoder β} {tail : Grammar β}
    (starts : first.Reads fun _ _ bytes => bytes = []) (goes : next.Reads tail) :
    (first >>= fun _ => next).Reads tail :=
  (bind starts fun _ => goes).congr fun _ _ _ => Grammar.bind_nothing.symm

/-- What is made of a part is read as the part is. -/
theorem map {first : Decoder α} {head : Grammar α} {make : α → β} (starts : first.Reads head) :
    (first >>= fun part => Pure.pure (make part)).Reads fun offset value bytes =>
      ∃ part, head offset part bytes ∧ value = make part := by
  refine (bind starts fun part => pure (make part)).congr fun offset value bytes => ⟨?_, ?_⟩
  · intro written
    obtain ⟨part, written, rfl⟩ := written
    exact ⟨part, bytes, [], (List.append_nil _).symm, written, rfl, rfl⟩
  · intro written
    obtain ⟨part, xs, ys, rfl, written, rfl, rfl⟩ := written
    rw [List.append_nil]
    exact ⟨part, written, rfl⟩

end Steps

theorem nested {inner : Decoder α} {writes : Grammar α} (reads : inner.Reads writes) :
    (Decoder.nested inner).Reads writes where
  sound run := by
    unfold Decoder.nested at run
    split at run
    next value middle ran =>
      cases run
      obtain ⟨bytes, passed, written⟩ := reads.sound ran
      exact ⟨bytes, passed, written⟩
    next => cases run
  complete {before after value bytes} written passed trace := by
    obtain ⟨recorded, ran⟩ := reads.complete written passed (trace.push (.opened before.offset))
    exact ⟨recorded.push .closed, by simp only [Decoder.nested, ran]⟩

theorem timesFrom {item : Decoder α} {writes : Grammar α} (reads : item.Reads writes) (n : Nat)
    (decoded : List α) : (Decoder.timesFrom item n decoded).Reads fun offset values bytes =>
      ∃ more, values = decoded.reverse ++ more ∧ more.length = n ∧
        writes.each offset more bytes := by
  induction n generalizing decoded with
  | zero =>
    refine (pure decoded.reverse).congr fun offset values bytes => ⟨?_, ?_⟩
    · intro written
      rcases written with ⟨more, rfl, none, written⟩
      obtain rfl := List.length_eq_zero_iff.mp none
      exact ⟨List.append_nil _, written⟩
    · rintro ⟨rfl, rfl⟩
      exact ⟨[], (List.append_nil _).symm, rfl, rfl⟩
  | succ n ih =>
    refine (bind reads fun value => ih (value :: decoded)).congr fun offset values bytes => ⟨?_, ?_⟩
    · intro written
      rcases written with ⟨more, rfl, size, written⟩
      cases more with
      | nil => cases size
      | cons value more =>
        obtain ⟨xs, ys, rfl, first, others⟩ := written
        exact ⟨value, xs, ys, rfl, first, more, by simp, by simpa using size, others⟩
    · intro written
      rcases written with ⟨value, xs, ys, rfl, first, more, rfl, rfl, others⟩
      exact ⟨value :: more, by simp, rfl, xs, ys, rfl, first, others⟩

theorem times {item : Decoder α} {writes : Grammar α} (reads : item.Reads writes) (n : Nat) :
    (Decoder.times n item).Reads fun offset values bytes =>
      values.length = n ∧ writes.each offset values bytes :=
  (timesFrom reads n []).congr (by simp)

end Reads

/-- A decoder that succeeds only where it uses up all there is. -/
structure Finishes (decoder : Decoder α) (writes : Grammar α) : Prop where
  exact : ∀ (before : State) (value : α), (∃ after, decoder before = .ok value after) ↔
    writes before.cursor.offset value before.cursor.rest

namespace Finishes

theorem congr {decoder : Decoder α} {writes others : Grammar α} (finishes : decoder.Finishes writes)
    (same : ∀ offset value bytes, others offset value bytes ↔ writes offset value bytes) :
    decoder.Finishes others :=
  ⟨fun before value => (finishes.exact before value).trans (same _ _ _).symm⟩

theorem throw (cause : Error) : (throw cause : Decoder α).Finishes fun _ _ _ => False where
  exact before value := by
    constructor
    · rintro ⟨after, run⟩
      cases run
    · exact False.elim

theorem bind {first : Decoder α} {next : α → Decoder β} {head : Grammar α}
    {tail : α → Grammar β} (starts : first.Reads head)
    (ends : ∀ part, (next part).Finishes (tail part)) :
    (first >>= next).Finishes (head.bind tail) where
  exact before value := by
    constructor
    · rintro ⟨after, run⟩
      obtain ⟨part, middle, ran, rest⟩ := bind_eq_ok.mp run
      obtain ⟨xs, passed, written⟩ := starts.sound ran
      have more := ((ends part).exact middle value).mp ⟨after, rest⟩
      rw [passed.offset] at more
      exact ⟨part, xs, _, passed.rest, written, more⟩
    · intro written
      rcases written with ⟨part, xs, ys, all, written, more⟩
      have passed : before.cursor.Passes xs
          ⟨before.cursor.base, before.cursor.position + xs.length, ys⟩ := ⟨rfl, rfl, all⟩
      rw [← passed.offset] at more
      obtain ⟨recorded, ran⟩ := starts.complete written passed before.trace
      obtain ⟨after, rest⟩ := ((ends part).exact ⟨_, recorded⟩ value).mpr more
      exact ⟨after, bind_eq_ok.mpr ⟨part, _, ran, rest⟩⟩

theorem readThen {κ : Type} [Word κ] {next : Scalar κ → Decoder β} {tail : Scalar κ → Grammar β}
    (goes : ∀ scalar, (next scalar).Finishes (tail scalar)) :
    (Decoder.read >>= next).Finishes fun offset value bytes => ∃ (first : κ) (rest : Bytes),
      bytes = Word.toBytes first ++ rest ∧
        tail ⟨first, offset⟩ (offset + Word.width κ) value rest :=
  (bind .read goes).congr fun _ _ _ => Grammar.bind_word.symm

theorem offsetThen {next : Nat → Decoder β} {tail : Nat → Grammar β}
    (goes : ∀ place, (next place).Finishes (tail place)) :
    (Decoder.offset >>= next).Finishes fun offset => tail offset offset :=
  (bind .offset goes).congr fun _ _ _ => Grammar.bind_offset.symm

theorem silent {first : Decoder Unit} {next : Decoder β} {tail : Grammar β}
    (starts : first.Reads fun _ _ bytes => bytes = []) (goes : next.Finishes tail) :
    (first >>= fun _ => next).Finishes tail :=
  (bind starts fun _ => goes).congr fun _ _ _ => Grammar.bind_nothing.symm

end Finishes
end Decoder
end ClassFormat
