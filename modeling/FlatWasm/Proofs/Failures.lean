import FlatWasm.Proofs.Histories
import FlatWasm.Proofs.Values

/-!
# Instructions that fail

A reader moves forward also when it fails, and never past the end of its input. An instruction has
all its operands read before the control state is asked for labels, and a call on the control state
that fails does nothing. So an instruction that cannot be decoded leaves a trace in the cursor
alone: whoever tries further instructions on the same control state finds it as though the failed
ones had been tried on a copy.
-/

namespace FlatWasm

/-- The second cursor is as far into the input as the first, or further, and not past the end. -/
def Cursor.MovesTo (cursor left : Cursor) : Prop :=
  ∃ count, count ≤ cursor.remaining ∧ left = cursor.advance count

namespace Cursor.MovesTo

variable {first second third : Cursor}

@[refl] theorem refl (cursor : Cursor) : cursor.MovesTo cursor := ⟨0, Nat.zero_le _, rfl⟩

theorem trans (h : first.MovesTo second) (h' : second.MovesTo third) : first.MovesTo third := by
  obtain ⟨count, hcount, rfl⟩ := h
  obtain ⟨more, hmore, rfl⟩ := h'
  rw [remaining] at hcount
  rw [remaining, advance, List.length_drop] at hmore
  refine ⟨count + more, ?_, ?_⟩
  · rw [remaining]
    omega
  · rw [advance, advance, advance, List.drop_drop, Nat.add_assoc]

end Cursor.MovesTo

/-! ## Readers move forward -/

namespace Read

variable {α β : Type}

/-- Whether it succeeds or fails, the reader leaves the cursor where it was or further on. -/
def Advances (reader : Read α) : Prop := ∀ cursor : Cursor, cursor.MovesTo (reader cursor).2

theorem advances_pure (value : α) : (pure value : Read α).Advances := by
  intro cursor
  exact .refl cursor

theorem advances_fail (cause : Malformed) : (fail cause : Read α).Advances := by
  intro cursor
  exact .refl cursor

theorem Advances.bind {reader : Read α} {next : α → Read β} (hr : reader.Advances)
    (hn : ∀ value, (next value).Advances) : (reader >>= next).Advances := by
  intro cursor
  have hfirst := hr cursor
  rw [bind_apply]
  rcases hread : reader cursor with ⟨cause | value, middle⟩ <;> rw [hread] at hfirst
  · exact hfirst
  · exact hfirst.trans (hn value middle)

theorem advances_byte : byte.Advances := by
  intro cursor
  obtain ⟨offset, bytes⟩ := cursor
  cases bytes with
  | nil => exact .refl _
  | cons value rest => exact ⟨1, Nat.succ_pos _, rfl⟩

theorem advances_bytes (count : Nat) : (bytes count).Advances := by
  intro cursor
  rw [bytes]
  split_ifs with hh
  · exact ⟨count, hasAtLeast_iff.mp hh, rfl⟩
  · exact .refl cursor

theorem advances_hasAtLeast (count : Nat) : (hasAtLeast count).Advances := by
  intro cursor
  exact .refl cursor

theorem advances_times {item : Read α} (hi : item.Advances) (count : Nat) :
    (times item count).Advances := by
  induction count with
  | zero => exact advances_pure []
  | succ count ih =>
    rw [times_succ]
    apply hi.bind
    intro value
    apply ih.bind
    intro values
    exact advances_pure _

end Read

namespace Leb128

/-- A loop over the groups of an integer moves forward byte by byte. -/
theorem ByGroups.movesTo {α : Type} {groups : Nat → Nat → List UInt8 → Except Malformed α × Cursor}
    (h : ByGroups groups) {room : Nat} (hr : 0 < room) (cursor : Cursor) :
    cursor.MovesTo (groups room cursor.offset cursor.rest).2 := by
  obtain ⟨count, -, hcount, hleft⟩ := h.advances hr cursor.offset cursor.rest
  exact ⟨count, hcount, hleft⟩

theorem advances_readUnsigned (width : Nat) : (readUnsigned width).Advances := by
  intro cursor
  rw [readUnsigned]
  split_ifs with hw
  · exact byGroups_unsignedGroups.movesTo (width_pos hw) cursor
  · exact .refl cursor

theorem advances_readSigned (width : Nat) : (readSigned width).Advances := by
  intro cursor
  rw [readSigned]
  split_ifs with hw
  · exact byGroups_signedGroups.movesTo (width_pos hw) cursor
  · exact .refl cursor

end Leb128

namespace Read

theorem advances_index : index.Advances :=
  (Leb128.advances_readUnsigned 32).bind fun _ => advances_pure _

theorem advances_indices : indices.Advances := by
  apply (Leb128.advances_readUnsigned 32).bind
  intro length
  split_ifs
  · exact advances_fail _
  · apply (advances_hasAtLeast length).bind
    intro enough
    cases enough with
    | true => exact advances_times advances_index length
    | false => exact advances_fail _

theorem advances_blockType : blockType.Advances := by
  apply (Leb128.advances_readSigned 33).bind
  intro code
  cases BlockType.ofCode? code with
  | none => exact advances_fail _
  | some type => exact advances_pure type

theorem advances_memArg : memArg.Advances :=
  advances_index.bind fun _ => advances_index.bind fun _ => advances_pure _

theorem advances_reserved (use : ReservedUse) : (reserved use).Advances := by
  apply advances_byte.bind
  intro value
  split_ifs
  · exact advances_pure ()
  · exact advances_fail _

theorem advances_read32 : Word.read32.Advances :=
  (advances_bytes 4).bind fun _ => advances_pure _

theorem advances_read64 : Word.read64.Advances :=
  (advances_bytes 8).bind fun _ => advances_pure _

theorem advances_constant (type : ValueType) : (constant type).Advances := by
  cases type with
  | i32 =>
    have hread : Leb128.readInt32.Advances :=
      (Leb128.advances_readSigned 32).bind fun _ => advances_pure _
    exact hread.bind fun _ => advances_pure _
  | i64 =>
    have hread : Leb128.readInt64.Advances :=
      (Leb128.advances_readSigned 64).bind fun _ => advances_pure _
    exact hread.bind fun _ => advances_pure _
  | f32 => exact advances_read32.bind fun _ => advances_pure _
  | f64 => exact advances_read64.bind fun _ => advances_pure _

end Read

open Read in
theorem Operator.advances_readOperands (op : Operator) : op.readOperands.Advances := by
  cases op with
  | unreachable | nop | ret | otherwise | close | parametric op | numeric op =>
    exact advances_pure _
  | enter kind => exact advances_blockType.bind fun _ => advances_pure _
  | br | brIf | call | «variable» op => exact advances_index.bind fun _ => advances_pure _
  | brTable =>
    apply advances_indices.bind
    intro depths
    exact advances_index.bind fun _ => advances_pure _
  | callIndirect =>
    apply advances_index.bind
    intro type
    exact (advances_reserved _).bind fun _ => advances_pure _
  | memory op => exact advances_memArg.bind fun _ => advances_pure _
  | memorySize op => exact (advances_reserved _).bind fun _ => advances_pure _
  | const type => exact (advances_constant type).bind fun _ => advances_pure _

/-! ## A control state that refuses -/

namespace Control

variable {control next : Control} {index : Nat} {error : DecodeError}

theorem eq_of_enter_error {kind : BlockKind} {type : BlockType}
    (h : control.enter kind type index = (.error error, next)) : next = control := by
  have ho := control.outcome_perform (.enter kind type index)
  rw [perform, h] at ho
  cases ho with
  | tooDeep => rfl

theorem eq_of_otherwise_error (h : control.otherwise index = (.error error, next)) :
    next = control := by
  have ho := control.outcome_perform (.otherwise index)
  rw [perform, h] at ho
  cases ho with
  | misplaced => rfl

/-- An instruction that gets no labels changes nothing. -/
theorem eq_of_label_error {instruction : Instruction}
    (h : control.label instruction index = (.error error, next)) : next = control := by
  cases instruction with
  | plain instruction | close => cases h
  | enter kind type =>
    rw [label] at h
    rcases he : control.enter kind type index with ⟨cause | entered, after⟩ <;> rw [he] at h
    · cases h
      exact eq_of_enter_error he
    · cases h
  | otherwise =>
    rw [label] at h
    rcases ho : control.otherwise index with ⟨cause | divided, after⟩ <;> rw [ho] at h
    · cases h
      exact eq_of_otherwise_error ho
    · cases h
  | br depth | brIf depth => exact (Prod.mk.inj h).2.symm
  | brTable depths default =>
    -- the targets are looked up one after another, and none of them is stored
    rw [label] at h
    cases hm : depths.mapM control.resolve with
    | error cause =>
      rw [hm] at h
      cases h
      rfl
    | ok targets =>
      rw [hm] at h
      exact (Prod.mk.inj h).2.symm

end Control

/-! ## One instruction that fails -/

namespace Decoder

/-- All that a failure leaves behind: the control state as it was, and a cursor further on. -/
structure Spared (before after : Decoder) : Prop where
  openBlocks_eq : after.control.openBlocks = before.control.openBlocks
  blocks_eq : after.control.blocks = before.control.blocks
  depth_eq : after.control.depth = before.control.depth
  forward : before.cursor.MovesTo after.cursor

theorem Spared.control_eq {before after : Decoder} (h : Spared before after) :
    after.control = before.control := by
  obtain ⟨cursor, openBlocks, blocks, depth⟩ := after
  obtain ⟨rfl, rfl, rfl, -⟩ := h
  rfl

theorem spared_of_movesTo {cursor left : Cursor} (control : Control) (h : cursor.MovesTo left) :
    Spared ⟨cursor, control⟩ ⟨left, control⟩ := ⟨rfl, rfl, rfl, h⟩

variable {decoder next : Decoder} {index : Nat} {error : DecodeError}

theorem spared_of_operands_error {op : Operator}
    (h : decoder.operands op index = (.error error, next)) : decoder.Spared next := by
  obtain ⟨cursor, control⟩ := decoder
  have hforward := op.advances_readOperands cursor
  rw [operands] at h
  rcases hr : op.readOperands cursor with ⟨cause | instruction, left⟩ <;> rw [hr] at h hforward
  · cases h
    exact spared_of_movesTo control hforward
  · rcases hl : control.label instruction index with ⟨result, after⟩
    simp only [hl, Prod.mk.injEq] at h
    obtain ⟨rfl, rfl⟩ := h
    rw [Control.eq_of_label_error hl]
    exact spared_of_movesTo control hforward

/-- Decodes an instruction of the given family, or of any. -/
def instructionIn : Option Family → UInt8 → Nat → Decoder → Except DecodeError Labelled × Decoder
  | none => instruction
  | some family => instructionOf family

theorem spared_of_instructionOf_error {family : Family} {opcode : UInt8}
    (h : decoder.instructionOf family opcode index = (.error error, next)) :
    decoder.Spared next := by
  unfold instructionOf at h
  split at h
  · exact spared_of_operands_error h
  · cases h
    exact spared_of_movesTo decoder.control (.refl decoder.cursor)

theorem spared_of_instructionIn_error {family : Option Family} {opcode : UInt8}
    (h : decoder.instructionIn family opcode index = (.error error, next)) :
    decoder.Spared next := by
  cases family with
  | none =>
    rw [instructionIn, instruction] at h
    split at h
    · exact spared_of_instructionOf_error h
    · cases h
      exact spared_of_movesTo decoder.control (.refl decoder.cursor)
  | some family => exact spared_of_instructionOf_error h

end Decoder

/-! ## Any number of failures -/

/-- A call to decode one instruction. Without an opcode it takes the next byte for one; without an
input of its own it reads on where the call before it stopped. -/
structure Attempt where
  family : Option Family
  opcode : Option UInt8
  index : Nat
  input : Option Cursor

namespace Decoder

def attempt (call : Attempt) (decoder : Decoder) : Except DecodeError Labelled × Decoder :=
  match call.opcode, call.input.getD decoder.cursor with
  | some opcode, cursor => instructionIn call.family opcode call.index ⟨cursor, decoder.control⟩
  | none, cursor =>
    match Read.byte cursor with
    | (.ok opcode, cursor) => instructionIn call.family opcode call.index ⟨cursor, decoder.control⟩
    | (.error cause, cursor) => (.error (.malformed cause), ⟨cursor, decoder.control⟩)

/-- Makes the calls one after another, all on one control state. -/
def attemptEach : List Attempt → Decoder → List (Except DecodeError Labelled) × Decoder
  | [], decoder => ([], decoder)
  | call :: rest, decoder =>
    match decoder.attempt call with
    | (answer, next) =>
      match attemptEach rest next with
      | (answers, last) => (answer :: answers, last)

/-- Makes the calls one after another, each on a copy of the control state. The copy takes the place
of the state when the call succeeds, and is thrown away when it fails. -/
def attemptEachOnCopy : List Attempt → Decoder → List (Except DecodeError Labelled) × Decoder
  | [], decoder => ([], decoder)
  | call :: rest, decoder =>
    match decoder.attempt call with
    | (.ok labelled, next) =>
      match attemptEachOnCopy rest next with
      | (answers, last) => (.ok labelled :: answers, last)
    | (.error error, failed) =>
      match attemptEachOnCopy rest ⟨failed.cursor, decoder.control⟩ with
      | (answers, last) => (.error error :: answers, last)

theorem control_of_attempt_error {call : Attempt} {decoder next : Decoder} {error : DecodeError}
    (h : decoder.attempt call = (.error error, next)) : next.control = decoder.control := by
  rw [attempt] at h
  split at h
  · exact (spared_of_instructionIn_error h).control_eq
  · split at h
    · exact (spared_of_instructionIn_error h).control_eq
    · cases h
      rfl

theorem attemptEach_eq_onCopy (calls : List Attempt) (decoder : Decoder) :
    decoder.attemptEach calls = decoder.attemptEachOnCopy calls := by
  induction calls generalizing decoder with
  | nil => rfl
  | cons call rest ih =>
    rw [attemptEach, attemptEachOnCopy]
    rcases ha : decoder.attempt call with ⟨error | labelled, next⟩
    · dsimp only
      rw [ih, ← control_of_attempt_error ha]
    · dsimp only
      rw [ih]

/-- An instruction that fails, whatever its family, leaves the open blocks, the records and the
depth of the control state as they are, and the cursor further on in the input or where it was.
Hence calls that are made on one control state give the same answers and end in the same state as if
those that fail had been made on a copy of it. -/
theorem failures_spare_control :
    (∀ (family : Option Family) (opcode : UInt8) (index : Nat) (decoder next : Decoder)
        (error : DecodeError),
      decoder.instructionIn family opcode index = (.error error, next) → decoder.Spared next) ∧
      ∀ (calls : List Attempt) (decoder : Decoder),
        decoder.attemptEach calls = decoder.attemptEachOnCopy calls := by
  constructor
  · intro family opcode index decoder next error h
    exact spared_of_instructionIn_error h
  · exact attemptEach_eq_onCopy

/-- A condition is open, and has its else. A table fails at its second depth behind a good one; an
opening fails for want of its type, a second else for being one, and a load in the wrong family. The
branch that follows them finds the condition, which then ends. -/
theorem failures_spare_control_condition :
    let control := Control.empty.after [.enter .cond .empty 0, .otherwise 1]
    let start : Decoder := ⟨⟨3, [0x02, 0x00, 0x01, 0x00, 0x02, 0x80, 0x80]⟩, control⟩
    let calls : List Attempt := [⟨none, some 0x0E, 2, none⟩, ⟨none, none, 3, none⟩,
      ⟨some .control, some 0x05, 4, none⟩, ⟨some .numeric, some 0x28, 5, none⟩,
      ⟨none, none, 6, some ⟨0, [0x0C, 0x00, 0x0B]⟩⟩, ⟨none, none, 7, none⟩]
    (∃ next, start.instructionIn none 0x0E 2 = (.error (.unresolvedTarget 1 1), next) ∧
        start.Spared next ∧ next.cursor = ⟨7, [0x02, 0x80, 0x80]⟩) ∧
      start.attemptEachOnCopy calls =
        ([.error (.unresolvedTarget 1 1), .error (.malformed .unexpectedEnd),
            .error (.malformed (.secondElse 0)), .error (.illegalOpcode 0x28), .ok (.br ⟨0, 0⟩),
            .ok (.close (some 0))],
          ⟨⟨3, []⟩, ⟨[], #[⟨.cond, .empty, 0, some 1, some 7⟩], 0⟩⟩) := by
  intro control start calls
  have hfails : start.instructionIn none 0x0E 2 =
      (.error (.unresolvedTarget 1 1), ⟨⟨7, [0x02, 0x80, 0x80]⟩, control⟩) := by
    decide +kernel
  constructor
  · exact ⟨_, hfails, failures_spare_control.1 none 0x0E 2 start _ _ hfails, rfl⟩
  · rw [← failures_spare_control.2 calls start]
    decide +kernel

end Decoder

end FlatWasm
