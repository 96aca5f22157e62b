import ClassFormat.Proofs.Accounting
import ClassFormat.Proofs.Computing
import ClassFormat.Proofs.Delimiting
import ClassFormat.Proofs.Measuring
import ClassFormat.Proofs.Nesting
import ClassFormat.Proofs.Slots

/-! What decoding leaves as it found it. However a run ends, and however deep it was when it failed, all levels
that it opened are closed again, the bytes and their place in the file are the same, and the cursor has gone on
within them; if the run succeeds, by as much as its value fills. -/
namespace ClassFormat

/-- How many levels of nesting are open. -/
def State.depth (s : State) : Nat := s.trace.toList.foldl Event.step 0

/-- Where a run may end that began at `before`, in bytes that lie at `base`. -/
structure State.Follows (base : Nat) (bytes : Bytes) (after before : State) : Prop where
  lies : after.cursor.Over base bytes
  forth : before.cursor.position ≤ after.cursor.position
  depth : after.depth = before.depth

theorem State.depth_opened (s : State) : s.opened.depth = s.depth + 1 := by
  rw [depth, opened, Array.toList_push, List.foldl_append]
  rfl

theorem State.depth_closed (s : State) : s.closed.depth = s.depth - 1 := by
  rw [depth, closed, Array.toList_push, List.foldl_append]
  rfl

/-- A cursor that passes some of the bytes it is over stays over them. -/
theorem Cursor.Over.passes {base : Nat} {bytes run : Bytes} {cursor after : Cursor}
    (lies : cursor.Over base bytes) (passed : cursor.Passes run after) : after.Over base bytes := by
  have moved := passed.advance
  rw [← moved]
  refine lies.advance ?_
  rw [Cursor.remaining, passed.rest, List.length_append]
  exact Nat.le_add_right _ _

namespace Decoder

/-- Whether a run leaves as many levels open as were open before it, however it ends. -/
def Closes (decoder : Decoder α) : Prop := ∀ s, (decoder.reached s).depth = s.depth

theorem closes_onCursor (step : Cursor → Except Error α × Cursor) : (onCursor step).Closes := by
  intro s
  rw [reached_onCursor]
  rfl

theorem Closes.bind {first : Decoder α} {next : α → Decoder β} (starts : first.Closes)
    (goes : ∀ value, (next value).Closes) : (first >>= next).Closes := by
  intro s
  have begun := starts s
  cases run : first s with
  | ok value after =>
    rw [reached_of_ok run] at begun
    rw [reached_bind_of_ok run]
    exact (goes value after).trans begun
  | error cause after =>
    rw [reached_of_error run] at begun
    rwa [reached_of_error (bind_of_error run)]

theorem closes_steps : Stepwise fun _ decoder _ => decoder.Closes where
  pure _ _ := rfl
  throw _ _ _ _ := rfl
  bind := Closes.bind
  read := closes_onCursor _
  take _ := closes_onCursor _
  skip _ := closes_onCursor _
  offset _ := rfl
  record event plain s := by
    change ({ s with trace := s.trace.push event } : State).depth = _
    rw [State.depth, Array.toList_push, List.foldl_append]
    cases event <;> first | rfl | cases plain

/-- The level around a run is closed as well, whether the run fails or not. -/
theorem Closes.nested {inner : Decoder α} (closes : inner.Closes) : (Decoder.nested inner).Closes := by
  intro s
  rw [reached_nested, State.depth_closed, closes s.opened, State.depth_opened, Nat.add_sub_cancel]

theorem closes_of_plain (pool : Pool) {layout : Layout α} (plain : layout.Plain True) :
    (layout.decode pool).Closes :=
  closes_steps.layout plain (fun _ => Closes.nested) fun _ _ _ _ => rfl

/-- What decoding values of some size leaves as it was, in whatever state it begins. -/
structure Framed (decoder : Decoder α) (size : α → Nat) : Prop where
  frame : ∀ {base bytes} {s : State}, s.cursor.Over base bytes →
    (decoder.reached s).Follows base bytes s
  moved : ∀ {s after : State} {value}, decoder s = .ok value after →
    after.cursor.position = s.cursor.position + size value

variable {decoder : Decoder α}

theorem Closes.frame (closes : decoder.Closes) (forward : decoder.Forward) {base : Nat} {bytes : Bytes}
    {s : State} (lies : s.cursor.Over base bytes) : (decoder.reached s).Follows base bytes s := by
  obtain ⟨⟨run, passed⟩, -⟩ := forward s
  exact ⟨lies.passes passed, by rw [passed.position]; exact Nat.le_add_right _ _, closes s⟩

theorem Reads.framed {writes : Grammar α} {size : α → Nat} (reads : decoder.Reads writes)
    (closes : decoder.Closes) (forward : decoder.Forward)
    (fills : ∀ offset value bytes, writes offset value bytes → bytes.length = size value) :
    decoder.Framed size where
  frame := closes.frame forward
  moved run := by
    obtain ⟨bytes, passed, written⟩ := reads.sound run
    rw [passed.position, fills _ _ _ written]

theorem framed_layout (pool : Pool) {layout : Layout α} {limit levels : Nat}
    (levelled : layout.Levelled limit levels) : (layout.decode pool).Framed layout.size :=
  (Layout.decode_reads pool layout).framed (closes_of_plain pool levelled.plain)
    (forward_of_plain pool levelled.plain) fun _ _ _ => Layout.size_of_writes levelled

theorem framed_pool (count : Nat) :
    (Pool.decode count).Framed fun pool => (pool.entries.map Entry.width).sum :=
  (Pool.decode_reads count).framed (closes_steps.decodePool count) (forward_steps.decodePool count)
    fun _ _ _ written => (Pool.entriesFrom_width written.2.2.1).symm

end Decoder

namespace Guarded

/-! ### On a machine -/

/-- Whether a machine has a result in these registers and leaves all of them as they were but for its place,
which goes on within the buffer and, if there is a value, by as much as that fills. -/
inductive Framed (guarded : Guarded α) (size : α → Nat) (r : Registers) : Prop where
  | ok (value : α) (after : Registers) : guarded r = some (.ok value after) → after.Follows r →
    after.position = r.position + size value → Framed guarded size r
  | error (cause : Error) (after : Registers) : guarded r = some (.error cause after) → after.Follows r →
    Framed guarded size r

variable {r : Registers} {guarded : Guarded α} {size : α → Nat}

theorem Agrees.framed {decoder : Decoder α} (agrees : Agrees guarded decoder r)
    (framed : decoder.Framed size) : guarded.Framed size r := by
  cases agrees with
  | ok value after run decoded follows => exact .ok value after run follows (framed.moved decoded)
  | error cause after run _ follows => exact .error cause after run follows

/-- The registers that a run leaves, however it ends. -/
def left : EStateM.Result Error Registers α → Registers
  | .ok _ after | .error _ after => after

/-- Whether all that a machine may leave, if it has a result at all, follows what it began with. -/
def Keeps (guarded : Guarded α) : Prop :=
  ∀ r result, r.Sound → guarded r = some result → (left result).Follows r

theorem Exact.keeps {decoder : Decoder α} (exact : Exact (fun _ => True) guarded decoder) : guarded.Keeps := by
  intro r result sound run
  cases exact r sound trivial with
  | ok value after same _ follows =>
    cases same.symm.trans run
    exact follows
  | error cause after same _ follows =>
    cases same.symm.trans run
    exact follows

theorem Keeps.bind {next : α → Guarded β} (starts : guarded.Keeps) (goes : ∀ value, (next value).Keeps) :
    (guarded >>= next).Keeps := by
  intro r result sound run
  cases first : guarded r with
  | none =>
    change Guarded.bind guarded next r = _ at run
    rw [Guarded.bind, first] at run
    cases run
  | some outcome =>
    have begun := starts r outcome sound first
    cases outcome with
    | ok value middle =>
      rw [bind_of_ok first] at run
      exact begun.trans (goes value middle result (begun.sound sound) run)
    | error cause after =>
      rw [bind_of_error first] at run
      cases run
      exact begun

theorem keeps_need (result : Option α) : (need result).Keeps := by
  intro r outcome sound run
  cases result with
  | none => cases run
  | some value =>
    cases run
    exact .refl sound

theorem keeps_registers : registers.Keeps := by
  intro r outcome sound run
  cases run
  exact .refl sound

/-! ### Code arrays on a machine -/

section Code

open Instruction (totalWidth)

variable {declared : Nat}

theorem keeps_takeOperands (declared n : Nat) : (takeOperands declared n).Keeps := by
  refine keeps_registers.bind fun r => ?_
  split
  next => exact (exact_take n).keeps
  next => exact (keeps_need _).bind fun _ => (exact_fail _).keeps

theorem keeps_operands (declared pc : Nat) (unknown : UInt8 → Error) (kind : Operands) :
    (operands declared pc unknown kind).Keeps := by
  cases kind with
  | fixed n => exact (keeps_takeOperands _ _).bind fun _ => (exact_pure _).keeps
  | wide =>
    refine (keeps_takeOperands _ _).bind fun front => (keeps_need _).bind fun widened => ?_
    split
    next => exact (keeps_takeOperands _ _).bind fun _ => (exact_pure _).keeps
    next => exact (exact_fail _).keeps
  | tableSwitch =>
    refine (keeps_need _).bind fun padding => (keeps_need _).bind fun size =>
      (keeps_takeOperands _ _).bind fun header => (keeps_need _).bind fun low =>
        (keeps_need _).bind fun high => ?_
    split
    next => exact (exact_fail _).keeps
    next =>
      exact (keeps_need _).bind fun _ => (keeps_takeOperands _ _).bind fun _ => (exact_pure _).keeps
  | lookupSwitch =>
    refine (keeps_need _).bind fun padding => (keeps_need _).bind fun size =>
      (keeps_takeOperands _ _).bind fun header => (keeps_need _).bind fun count => ?_
    split
    next => exact (exact_fail _).keeps
    next =>
      exact (keeps_need _).bind fun _ => (keeps_takeOperands _ _).bind fun _ => (exact_pure _).keeps

theorem keeps_instruction (declared : Nat) : (instruction declared).Keeps := by
  refine keeps_registers.bind fun r => (keeps_need _).bind fun pc => exact_read.keeps.bind fun opcode => ?_
  split
  next => exact (exact_fail _).keeps
  next => exact (keeps_operands _ _ _ _).bind fun _ => (exact_pure _).keeps

theorem keeps_instructions (declared turns : Nat) (decoded : Array Instruction) :
    (instructions declared turns decoded).Keeps := by
  induction turns generalizing decoded with
  | zero =>
    refine keeps_registers.bind fun r => ?_
    split
    next => exact (exact_pure _).keeps
    -- Bytes that no turn is left for give no result.
    next => exact keeps_need none
  | succ turns ih =>
    refine keeps_registers.bind fun r => ?_
    split
    next => exact (exact_pure _).keeps
    next => exact (keeps_instruction declared).bind fun next => ih (decoded.push next)

theorem Meets.framed {outcome : Except Error α} (met : Meets (guarded r) r size outcome) (keeps : guarded.Keeps)
    (sound : r.Sound) : guarded.Framed size r := by
  cases outcome with
  | ok value => exact .ok value _ met (keeps r _ sound met) rfl
  | error cause =>
    obtain ⟨after, failed⟩ := met
    exact .error cause after failed (keeps r _ sound failed)

variable (sound : r.Sound) (short : r.buffer.length < UInt32.size)
include sound short

theorem framed_takeOperands {n : Nat} (small : n ≤ 0x400000000) :
    (takeOperands declared n).Framed List.length r := by
  by_cases enough : n ≤ r.remaining
  · have run : takeOperands declared n r = _ := takeOperands_of_enough sound enough
    refine .ok _ _ run (keeps_takeOperands declared n r _ sound run) ?_
    rw [List.length_take_of_le (by rwa [Registers.length_rest])]
    rfl
  · have run : takeOperands declared n r = _ :=
      takeOperands_of_few sound short (Nat.not_le.mp enough) small
    exact .error _ _ run (keeps_takeOperands declared n r _ sound run)

/-- Where no byte is left there is no opcode. -/
theorem framed_instruction : (instruction declared).Framed Instruction.width r := by
  cases next : r.state.cursor.rest with
  | cons byte rest =>
    exact (instruction_meets sound short next).framed (keeps_instruction declared) sound
  | nil =>
    have inside := sound.inside
    have length := r.length_rest
    rw [next] at length
    have pc : Machine.fit? UInt32.size r.position = some r.position := Machine.fit?_of_lt (by omega)
    have none := read_of_few (κ := UInt8) sound (by rw [← length]; exact Nat.one_pos)
    have run : instruction declared r = some (.error .endOfInput (r.advance r.remaining)) :=
      (bind_need pc).trans (bind_of_error none)
    exact .error _ _ run (keeps_instruction declared r _ sound run)

theorem framed_instructions {turns : Nat} (enough : r.remaining ≤ turns) :
    (instructions declared turns #[]).Framed (fun decoded => totalWidth decoded.toList) r := by
  have met : Meets (instructions declared turns #[] r) r _ _ := instructions_meet sound short enough #[]
  cases run : Instruction.decodeFrom declared #[] r.state.cursor with
  | ok decoded =>
    rw [run] at met
    obtain ⟨later, rfl, cut⟩ := Instruction.decodeFrom_eq_ok.mp run
    refine .ok _ _ met (keeps_instructions declared turns #[] r _ sound met) ?_
    rw [Array.empty_append, Instruction.length_of_cut cut, Registers.length_rest]
    rfl
  | error cause =>
    rw [run] at met
    obtain ⟨after, failed⟩ := met
    exact .error cause after failed (keeps_instructions declared turns #[] r _ sound failed)

end Code
end Guarded

/-- What values of a layout leave as it was when they are decoded where so many levels are left, in whatever
state this begins and whatever pool they refer to. On a machine the depth is a number, and the levels that are
left are those that it is short of the limit. -/
structure Layout.Framed (levels : Nat) (layout : Layout α) : Prop where
  decoder : ∀ pool, (layout.decode pool).Framed layout.size
  machine : ∀ (pool : Pool) (r : Registers), pool.count < UInt16.size → r.Sound →
    r.depth + levels = ClassFile.maxNesting → Guarded.Agrees (layout.guarded pool) (layout.decode pool) r ∧
      (layout.guarded pool).Framed layout.size r

theorem Layout.Levelled.framed {layout : Layout α} {levels : Nat}
    (levelled : layout.Levelled ClassFile.maxNesting levels) : layout.Framed levels where
  decoder pool := Decoder.framed_layout pool levelled
  machine pool r counted sound here :=
    have agrees := Guarded.exact_layout counted levelled r sound here
    ⟨agrees, agrees.framed (Decoder.framed_layout pool levelled)⟩

/-- What each routine of the decoder leaves as it was. -/
structure Decoder.RoutinesFramed : Prop where
  /-- The parts of a layout that counts its levels count theirs, so this is so all the way down. -/
  layouts : ∀ {α : Type} (layout : Layout α) (levels : Nat),
    layout.Levelled ClassFile.maxNesting levels → layout.Framed levels
  tables : ∀ levels, (Table.layout ClassFile.maxNesting levels).Levelled ClassFile.maxNesting levels
  elements : ∀ levels, (Element.layout ClassFile.maxNesting levels).Levelled ClassFile.maxNesting levels
  annotations : ∀ levels, (Layout.list <| Annotation.layoutWith <| Element.layout ClassFile.maxNesting
    levels).Levelled ClassFile.maxNesting levels
  frames : ∀ levels, Frame.layout.Levelled ClassFile.maxNesting levels
  entries : ∀ index levels, (Entry.layout index).Levelled ClassFile.maxNesting levels
  /-- A table fills what all attributes that were written for it fill. -/
  filled : ∀ levels pool (s : State) (held : Table) (after : State),
    (Table.layout ClassFile.maxNesting levels).decode pool s = .ok held after → ∃ all, held.Keeps all ∧
      after.cursor.position = s.cursor.position + 2 + (all.map fun item => 6 + item.length.toNat).sum
  pools : ∀ count, (Pool.decode count).Framed fun pool => (pool.entries.map Entry.width).sum
  poolsMachine : ∀ count (r : Registers), count < UInt16.size → r.Sound →
    Guarded.Agrees (Guarded.pool count) (Pool.decode count) r ∧
      (Guarded.pool count).Framed (fun pool => (pool.entries.map Entry.width).sum) r
  /-- Code arrays are cut in registers of their own. -/
  operands : ∀ declared n (r : Registers), r.Sound → r.buffer.length < UInt32.size → n ≤ 0x400000000 →
    (Guarded.takeOperands declared n).Framed List.length r
  instructions : ∀ declared (r : Registers), r.Sound → r.buffer.length < UInt32.size →
    (Guarded.instruction declared).Framed Instruction.width r ∧
      (Guarded.instructions declared r.buffer.length #[]).Framed
        (fun decoded => Instruction.totalWidth decoded.toList) r

namespace ClassFile

open Decoder

/-- How a decoder of these bytes is left, whatever comes of it, and even where it has been used on them before. -/
structure Settles (bytes : Bytes) : Prop where
  again : ∀ s : State, s.cursor.Over 0 bytes → ((decodeWithin maxNesting).reached s).Follows 0 bytes s
  machine : ∀ r : Registers, r.Sound → r.base = 0 → r.buffer = bytes → r.depth = 0 →
    Guarded.Agrees Guarded.classFile (decodeWithin maxNesting) r
  depth : ((decodeWithin maxNesting).reached (start bytes)).depth = 0
  offset : ((decodeWithin maxNesting).reached (start bytes)).cursor.offset ≤ bytes.length

/-- What every table fills is told by all attributes that were written for it. -/
theorem filled_of_table {levels : Nat} {pool : Pool} {s after : State} {held : Table}
    (run : (Table.layout maxNesting levels).decode pool s = .ok held after) : ∃ all, held.Keeps all ∧
      after.cursor.position = s.cursor.position + 2 + (all.map fun item => 6 + item.length.toNat).sum := by
  obtain ⟨bytes, passed, written⟩ := (Layout.decode_reads pool _).sound run
  obtain ⟨attributes, layout, -⟩ := Table.exists_layout pool maxNesting levels
  rw [layout] at written
  obtain ⟨all, kept, size⟩ := Layout.exists_filling_of_table written
  exact ⟨all, kept, by rw [passed.position, size, Nat.add_assoc]⟩

theorem routines_framed : RoutinesFramed where
  layouts _ _ levelled := levelled.framed
  tables := (Layout.levelled_graded maxNesting).tables
  elements := (Layout.levelled_graded maxNesting).element
  annotations levels :=
    have closed := Layout.levelled_closed True maxNesting levels
    closed.counted _ (closed.annotationOf ((Layout.levelled_graded maxNesting).element levels))
  frames levels := (Layout.levelled_closed True maxNesting levels).flat Frame.layout_flat
  entries index levels := (Layout.levelled_closed False maxNesting levels).flat (Entry.layout_flat index)
  filled _ _ _ _ _ := filled_of_table
  pools := framed_pool
  poolsMachine count r told sound :=
    have exact : Guarded.Exact (fun _ => True) (Guarded.pool count) (Pool.decode count) := Guarded.exact_pool told
    have agrees := exact r sound trivial
    ⟨agrees, agrees.framed (framed_pool count)⟩
  operands _ _ _ sound short small := Guarded.framed_takeOperands sound short small
  instructions _ _ sound short :=
    ⟨Guarded.framed_instruction sound short, Guarded.framed_instructions sound short (Nat.sub_le _ _)⟩

theorem cursor_finish (file : ClassFile) (s : State) : ((finish file).reached s).cursor = s.cursor := by
  obtain ⟨⟨base, position, rest⟩, trace⟩ := s
  cases rest <;> rfl

theorem decodeWithin_forward (limit : Nat) : (decodeWithin limit).Forward := by
  have ends (file : ClassFile) : (finish file).Forward := by
    intro s
    obtain ⟨later, -, recorded⟩ := finish_trace file s
    rw [cursor_finish]
    exact ⟨⟨[], .refl _⟩, later, recorded⟩
  rw [decodeWithin_eq]
  exact @Stepwise.bind _ forward_steps _ _ _ (contents limit) _ finish (contents_forward limit) ends

theorem decodeWithin_closes (limit : Nat) : (decodeWithin limit).Closes := by
  have begins : (contents limit).Closes :=
    contents_steps closes_steps limit Closes.nested fun _ _ _ _ => rfl
  have ends (file : ClassFile) : (finish file).Closes := by
    intro s
    -- What is recorded at the end opens no level and closes none.
    obtain ⟨later, plain, recorded⟩ := finish_trace file s
    rw [State.depth, recorded, List.foldl_append]
    rcases plain with rfl | ⟨_, _, _, _, rfl⟩ <;> rfl
  rw [decodeWithin_eq]
  exact begins.bind ends

/-- Wherever decoding ends, it ends with no level open and within the bytes. -/
theorem settles (bytes : Bytes) : Settles bytes where
  again _ lies := (decodeWithin_closes maxNesting).frame (decodeWithin_forward maxNesting) lies
  machine r sound _ _ here := Guarded.exact_classFile r sound (here ▸ Nat.zero_add _)
  depth := decodeWithin_closes maxNesting (start bytes)
  offset := by
    have lies : (start bytes).cursor.Over 0 bytes := Cursor.startingAt_over 0 bytes
    have ended := ((decodeWithin_closes maxNesting).frame (decodeWithin_forward maxNesting) lies).lies
    rw [Cursor.offset, ended.base, Nat.zero_add]
    exact ended.inside

/-- Decoding leaves the frame it works in as it found it, in every routine and as a whole. -/
theorem decode_settles (bytes : Bytes) : RoutinesFramed ∧ Settles bytes :=
  ⟨routines_framed, settles bytes⟩

/-- A class whose only attribute nests arrays, one level more than there may be. -/
def deepSample : Bytes :=
  [0xca, 0xfe, 0xba, 0xbe, 0, 0, 0, 52, 0, 4, 1, 0, 1, 0x43, 7, 0, 1, 1, 0, 17, 0x41, 0x6e, 0x6e, 0x6f, 0x74] ++
  [0x61, 0x74, 0x69, 0x6f, 0x6e, 0x44, 0x65, 0x66, 0x61, 0x75, 0x6c, 0x74] ++
  [0, 0x21, 0, 2, 0, 0, 0, 0, 0, 0, 0, 0, 0, 1, 0, 3, 0, 0, 0, 195] ++
  (List.replicate 65 [0x5b, 0, 1]).flatten

theorem decode_deepSample : rejection? deepSample = some (.tooDeep 64 252) ∧
    ((decodeWithin maxNesting).reached (start deepSample)).depth = 0 ∧
    ((decodeWithin maxNesting).reached (start deepSample)).cursor.offset ≤ 252 := by
  have length : deepSample.length = 252 := by decide +kernel
  have settled := (decode_settles deepSample).2
  exact ⟨by decide +kernel, settled.depth, length ▸ settled.offset⟩

end ClassFile
end ClassFormat
