import ClassFormat.Proofs.Telling

/-! How a whole run goes, however many levels of nesting it may open. What stands before the access flags is
decoded in silence, everything else is told of the body, and one more line is told of a file that is accepted. -/
namespace ClassFormat.ClassFile

open Decoder

/-- What a class file begins with. -/
structure Preamble where
  magic : U4
  minor : U2
  major : U2
  poolCount : U2
  pool : Pool

/-- Decodes what stands before the access flags. -/
def preamble : Decoder Preamble := do
  let magic : U4 ← Decoder.read
  if magic.value ≠ magicNumber then throw (.wrongMagic magic.value)
  let minor : U2 ← Decoder.read
  let major : U2 ← Decoder.read
  let poolCount : U2 ← Decoder.read
  let pool ← Pool.decode poolCount.toNat
  return ⟨magic, minor, major, poolCount, pool⟩

/-- The body of a class, with so many levels of nesting. -/
def bodyLayout (limit : Nat) : Layout Body := Body.layout (Table.layout limit limit)

/-- All that is decoded once the pool has been accepted. -/
def afterPreamble (limit : Nat) (head : Preamble) : Decoder ClassFile := do
  record (.poolDecoded head.pool.entries.length (← offset))
  let body ← (bodyLayout limit).decode head.pool
  finish { body with
    magic := head.magic, minor := head.minor, major := head.major, poolCount := head.poolCount, pool := head.pool }

theorem decodeWithin_preamble (limit : Nat) : decodeWithin limit = preamble >>= afterPreamble limit := by
  rw [decodeWithin_eq, contents, preamble]
  simp only [bind_assoc]
  congr 1
  funext magic
  by_cases right : magic.value = magicNumber
  · simp only [right, ne_eq, not_true_eq_false, ↓reduceIte, pure_bind, bind_assoc]
    rfl
  · simp only [right, ne_eq, not_false_eq_true, ↓reduceIte]
    rfl

theorem preamble_silent : preamble.Silent := by
  have steps := silent_sequential
  refine steps.bind steps.read fun magic => ?_
  have rest := steps.bind steps.read fun minor : U2 => steps.bind steps.read fun major : U2 =>
    steps.bind steps.read fun poolCount : U2 => steps.bind (steps.decodePool poolCount.toNat) fun pool =>
      steps.pure (⟨magic, minor, major, poolCount, pool⟩ : Preamble)
  by_cases right : magic.value = magicNumber
  · simp only [right, ne_eq, not_true_eq_false, ↓reduceIte]
    exact rest
  · simp only [right, ne_eq, not_false_eq_true, ↓reduceIte]
    exact steps.bind (steps.throw Unit _) fun _ => rest

/-- The state in which the body is begun, behind a preamble that has been passed. -/
def bodyStart (head : Preamble) (s : State) : State :=
  s.recording (.poolDecoded head.pool.entries.length s.cursor.offset)

/-- While a file is decoded, its pool being `pool`, something is begun in the state `within`. -/
def Begins (limit : Nat) (bytes : Bytes) (pool : Pool) (inner : Layout β) (within : State) : Prop :=
  ∃ head s, preamble (start bytes) = .ok head s ∧ head.pool = pool ∧
    inner.Enters pool within (bodyLayout limit) (bodyStart head s)

theorem finish_cases (file : ClassFile) (s : State) :
    finish file s = .ok file (s.recording (.classDecoded file.version file.fields.items.length
      file.methods.items.length file.attributes.size)) ∨ ∃ cause, finish file s = .error cause s := by
  obtain ⟨⟨base, position, rest⟩, trace⟩ := s
  cases rest with
  | nil => exact .inl rfl
  | cons byte rest => exact .inr ⟨_, rfl⟩

section Run

variable {limit : Nat} {bytes : Bytes} {head : Preamble} {s : State}

theorem decodeWithin_of_rejected {cause : Error} {after : State}
    (failed : preamble (start bytes) = .error cause after) :
    decodeWithin limit (start bytes) = .error cause after := by
  rw [decodeWithin_preamble, bind_of_error failed]

/-- Behind the preamble the body is decoded, once the pool has been told of. -/
theorem decodeWithin_of_preamble (ran : preamble (start bytes) = .ok head s) : decodeWithin limit (start bytes) =
    ((bodyLayout limit).decode head.pool >>= fun body => finish { body with
      magic := head.magic, minor := head.minor, major := head.major, poolCount := head.poolCount
      pool := head.pool }) (bodyStart head s) := by
  rw [decodeWithin_preamble, bind_of_ok ran]
  rfl

theorem told_of_rejected {cause : Error} {after : State} (failed : preamble (start bytes) = .error cause after) :
    (decodeWithin limit).told (start bytes) = [] := by
  rw [told_of_error (decodeWithin_of_rejected failed), preamble_silent.trace_of_error failed]
  rfl

theorem bodyStart_trace (ran : preamble (start bytes) = .ok head s) : (bodyStart head s).trace.toList =
    [.poolDecoded head.pool.entries.length s.cursor.offset] := by
  rw [bodyStart, State.recording, Array.toList_push, preamble_silent.trace ran]
  rfl

/-- What has been told by the end of the body, and what may be told behind it. -/
theorem told_cases (limit : Nat) (ran : preamble (start bytes) = .ok head s) :
    ((decodeWithin limit).told (start bytes) = ((bodyLayout limit).decode head.pool).told (bodyStart head s) ∧
      ∃ cause final, decodeWithin limit (start bytes) = .error cause final) ∨
    ∃ after file final, (bodyLayout limit).decode head.pool (bodyStart head s) = .ok file.toBody after ∧
      file.pool = head.pool ∧ decodeWithin limit (start bytes) = .ok file final ∧
      (decodeWithin limit).told (start bytes) =
        ((bodyLayout limit).decode head.pool).told (bodyStart head s) ++ [.classDecoded file.version
          file.fields.items.length file.methods.items.length file.attributes.size] := by
  have all : decodeWithin limit (start bytes) = _ := decodeWithin_of_preamble ran
  cases body : (bodyLayout limit).decode head.pool (bodyStart head s) with
  | error cause after =>
    rw [bind_of_error body] at all
    rw [told_of_error body, told_of_error all]
    exact .inl ⟨rfl, _, _, all⟩
  | ok found after =>
    rw [bind_of_ok body] at all
    rw [told_of_ok body]
    rcases finish_cases _ after with ended | ⟨cause, failed⟩
    · rw [told_of_ok (all.trans ended)]
      exact .inr ⟨after, _, _, rfl, rfl, all.trans ended, Array.toList_push⟩
    · rw [told_of_error (all.trans failed)]
      exact .inl ⟨rfl, _, _, all.trans failed⟩

/-- What is told of something in the body is told of the file. -/
theorem Begins.told {pool : Pool} {inner : Layout β} {within : State}
    (begins : Begins limit bytes pool inner within) :
    (inner.decode pool).told within <+: (decodeWithin limit).told (start bytes) := by
  obtain ⟨head, s, ran, rfl, enters⟩ := begins
  rcases told_cases limit ran with ⟨all, -⟩ | ⟨after, file, final, -, -, -, all⟩
  · rw [all]
    exact enters.told
  · rw [all]
    exact enters.told.trans (List.prefix_append _ _)

/-- What is wrong with something in the body is wrong with the file. -/
theorem Begins.failed {pool : Pool} {inner : Layout β} {within after : State} {cause : Error}
    (begins : Begins limit bytes pool inner within) (here : inner.decode pool within = .error cause after) :
    ∃ final, decodeWithin limit (start bytes) = .error cause final := by
  obtain ⟨head, s, ran, rfl, enters⟩ := begins
  obtain ⟨final, body⟩ := enters.failed here
  exact ⟨final, (decodeWithin_of_preamble ran).trans (bind_of_error body)⟩

/-- What is told by the end of the body is about the pool or has a source in the body. -/
theorem source_cases (ran : preamble (start bytes) = .ok head s) {before : List Event} {event : Event}
    (told : before ++ [event] <+: ((bodyLayout limit).decode head.pool).told (bodyStart head s)) :
    (before = [] ∧ ∃ entries offset, event = .poolDecoded entries offset) ∨
    Layout.Source head.pool (bodyLayout limit) (bodyStart head s) before event := by
  rcases Layout.last_cases (((bodyLayout limit).decode_forward head.pool).told _) told with early | late
  · rw [bodyStart_trace ran] at early
    obtain ⟨rfl, rfl⟩ := Layout.eq_last List.nil_prefix early
    exact .inl ⟨rfl, _, _, rfl⟩
  · exact .inr ((Layout.tells_graded head.pool limit).body limit _ before event late told)

/-- The first event is about the pool and the last one about a file that is accepted; what is told in between
has a source in the body. -/
theorem event_cases {before : List Event} {event : Event}
    (told : before ++ [event] <+: (decodeWithin limit).told (start bytes)) :
    (before = [] ∧ ∃ entries offset, event = .poolDecoded entries offset) ∨
    (∃ head s, preamble (start bytes) = .ok head s ∧
      Layout.Source head.pool (bodyLayout limit) (bodyStart head s) before event) ∨
    ∃ file final, decodeWithin limit (start bytes) = .ok file final ∧
      (decodeWithin limit).told (start bytes) = before ++ [event] ∧ event = .classDecoded file.version
        file.fields.items.length file.methods.items.length file.attributes.size := by
  cases ran : preamble (start bytes) with
  | error cause after =>
    rw [told_of_rejected ran] at told
    simpa using told.length_le
  | ok head s =>
    rcases told_cases limit ran with ⟨all, -⟩ | ⟨after, file, final, -, -, accepted, all⟩
    · rw [all] at told
      exact (source_cases ran told).imp id fun source => .inl ⟨head, s, rfl, source⟩
    · rw [all] at told
      rcases Layout.last_cases (List.prefix_append _ _) told with early | late
      · exact (source_cases ran early).imp id fun source => .inl ⟨head, s, rfl, source⟩
      · obtain ⟨rfl, rfl⟩ := Layout.eq_last late told
        exact .inr (.inr ⟨file, final, accepted, all, rfl⟩)

end Run
end ClassFormat.ClassFile
