import FlatWasm.Proofs.Scanning

/-!
# Functions and segments

A whole function and a segment are read by the same rounds. The two differ at an else outside of all
blocks, which ends a segment and is an error in a function, and behind the last instruction, where a
function leaves no byte over. What reading a function comes to is therefore settled by what reading
a segment from the same place comes to.
-/

namespace FlatWasm

theorem Control.label_otherwise_of_empty {control : Control} (ho : control.openBlocks = [])
    (index : Nat) :
    control.label .otherwise index = (.error (.unresolvedTarget 0 0), control) := by
  rw [label, otherwise, ho]
  rfl

/-- An else outside of all blocks cannot be decoded; the state stays as it is. -/
theorem Decoder.instruction_otherwise_of_empty {control : Control} (ho : control.openBlocks = [])
    (index : Nat) (cursor : Cursor) :
    instruction Operator.otherwise.opcode index ⟨cursor, control⟩ =
      (.error (.unresolvedTarget 0 0), ⟨cursor, control⟩) := by
  have hread : Operator.otherwise.readOperands cursor = (.ok .otherwise, cursor) := rfl
  rw [instruction_opcode, operands, hread]
  dsimp only
  rw [Control.label_otherwise_of_empty ho]

namespace Scan

/-- The outcome of a scan as it is in a function, where a segment comes to the given one. -/
def inFunction : Except DecodeError Bool × Scan → Except DecodeError Bool × Scan
  | (.ok true, final) => (.error (.unresolvedTarget 0 0), final)
  | (.ok false, final) => (.ok false, final)
  | (.error error, final) => (.error error, final)

theorem run_function_eq (begin rounds : Nat) (scan : Scan) :
    run .function begin rounds scan = inFunction (run .segment begin rounds scan) := by
  induction rounds generalizing scan with
  | zero =>
    unfold run
    split <;> rfl
  | succ rounds ih =>
    obtain ⟨⟨offset, input⟩, control, instructions⟩ := scan
    unfold run
    split
    · rfl
    cases input with
    | nil => rfl
    | cons opcode rest =>
      dsimp only
      rw [if_neg (by simp)]
      by_cases he : BodyMode.segment = .segment ∧ opcode = Operator.otherwise.opcode ∧
          control.isEmpty = true
      · -- the one place where the modes part
        rw [if_pos he]
        obtain ⟨-, rfl, hempty⟩ := he
        have ho : control.openBlocks = [] := by simpa [Control.isEmpty] using hempty
        rw [Decoder.instruction_otherwise_of_empty ho]
        rfl
      · rw [if_neg he]
        rcases Decoder.instruction opcode instructions.size ⟨⟨offset + 1, rest⟩, control⟩ with
          ⟨_ | labelled, ⟨left, next⟩⟩
        · rfl
        · dsimp only
          split
          · rfl
          · exact ih _

end Scan

namespace Body

/-- The outcome of reading a function, where reading a segment comes to the given one. -/
def inFunction : Except DecodeError Body × Cursor → Except DecodeError Body × Cursor
  | (.error error, left) => (.error error, left)
  | (.ok body, left) =>
    if body.elseTerminated then (.error (.unresolvedTarget 0 0), left)
    else if 0 < left.remaining then (.error (.malformed (.trailingBytes left.remaining)), left)
    else (.ok body, left)

theorem inFunction_eq_ok_iff {outcome : Except DecodeError Body × Cursor} {body : Body}
    {left : Cursor} :
    inFunction outcome = (.ok body, left) ↔
      outcome = (.ok body, left) ∧ body.elseTerminated = false ∧ left.remaining = 0 := by
  constructor
  · intro h
    obtain ⟨_ | read, after⟩ := outcome
    · cases h
    rw [inFunction] at h
    split at h
    · cases h
    split at h
    · cases h
    next he hr =>
    cases h
    exact ⟨rfl, by simpa using he, by omega⟩
  · rintro ⟨rfl, he, hr⟩
    rw [inFunction, he, hr]
    rfl

/-- The end of a function is looked at behind a scan that ended as a segment may end too. -/
theorem ofScan_function (params : UInt32) (scan : Scan) :
    (ofScan .function params false scan, scan.cursor) =
      inFunction (ofScan .segment params false scan, scan.cursor) := by
  have hs : ofScan .segment params false scan =
      .ok ⟨scan.instructions, scan.control.blocks, params, false⟩ := by
    rw [ofScan, if_neg (by simp)]
  rw [hs, inFunction, if_neg Bool.false_ne_true, ofScan]
  cases hr : scan.cursor.rest with
  | nil => simp [Cursor.remaining, hr]
  | cons byte rest => simp [Cursor.remaining, hr]

/-- A function is read as the segment at the same place is read, up to the end of that segment, and
is refused if the segment ends at an else or further bytes follow. Hence a function is read exactly
where a segment is that ends at an end, behind which nothing is left. -/
theorem read_function_eq_inFunction (params : UInt32) (cursor : Cursor) :
    read .function params cursor = inFunction (read .segment params cursor) ∧
      (∀ body left, read .function params cursor = (.ok body, left) ↔
        read .segment params cursor = (.ok body, left) ∧ body.elseTerminated = false ∧
          left.remaining = 0) ∧
      ∀ count, (DecodeError.malformed (.trailingBytes count)).message =
        "malformed encoding: " ++ (toString count ++ " trailing byte(s) after end of function") := by
  have heq : read .function params cursor = inFunction (read .segment params cursor) := by
    rw [read, read, scan, scan, Scan.run_function_eq]
    rcases Scan.run .segment cursor.offset cursor.remaining (.start cursor) with
      ⟨_ | elseTerminated, final⟩
    · rfl
    · cases elseTerminated with
      | true => rfl
      | false => exact ofScan_function params final
  refine ⟨heq, ?_, fun count => rfl⟩
  intro body left
  rw [heq, inFunction_eq_ok_iff]

end Body

end FlatWasm
