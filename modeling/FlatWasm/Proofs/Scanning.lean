import FlatWasm.Body
import FlatWasm.Proofs.Operands

/-!
# What a scan has read

A body that was read with success is the record of two things that do not touch each other. The
bytes fall into chunks, each of which spells one instruction; and the control state, following the
instructions from the first to the last, gives them their labels. `Transcript` puts the two
together with the way a scan ends, and is all there is to say of a success: a body is read from a
cursor exactly when such a transcript exists.
-/

namespace FlatWasm

/-- A labelled instruction and the bytes that spell it. -/
structure Chunk where
  labelled : Labelled
  bytes : List UInt8
  spelled : labelled.instruction.Spelled bytes

namespace Chunk

/-- The chunks in their places, the first at the given offset. -/
def place : Nat → List Chunk → List Placed
  | _, [] => []
  | offset, chunk :: rest =>
    ⟨chunk.labelled, offset, chunk.bytes.length⟩ :: place (offset + chunk.bytes.length) rest

def code (chunks : List Chunk) : List Labelled := chunks.map labelled

def input (chunks : List Chunk) : List UInt8 := chunks.flatMap bytes

theorem place_labelled (offset : Nat) (chunks : List Chunk) :
    (place offset chunks).map Placed.labelled = code chunks := by
  induction chunks generalizing offset with
  | nil => rfl
  | cons chunk rest ih => rw [place, List.map_cons, ih, code, code, List.map_cons]

/-- Instructions that can be written are written in chunks. -/
theorem exists_of_encodable {row : List Labelled}
    (h : ∀ labelled ∈ row, labelled.instruction.Encodable) :
    ∃ chunks, code chunks = row ∧ input chunks = row.flatMap Labelled.encode := by
  induction row with
  | nil => exact ⟨[], rfl, rfl⟩
  | cons labelled row ih =>
    obtain ⟨hl, hrest⟩ := List.forall_mem_cons.mp h
    obtain ⟨chunks, hc, hi⟩ := ih hrest
    refine ⟨⟨labelled, labelled.encode, Instruction.spelled_encode hl⟩ :: chunks, ?_, ?_⟩
    · rw [← hc]
      rfl
    · rw [List.flatMap_cons, ← hi]
      rfl

end Chunk

/-! ## Labels -/

namespace Control

/-- The target names the block that its depth finds among the open ones. -/
def Resolves (control : Control) (target : Target) : Prop :=
  (control.openBlocks.map OpenBlock.label)[target.depth.toNat]? = some target.label

def opened (kind : BlockKind) (type : BlockType) (index : Nat) (control : Control) : Control :=
  { openBlocks := ⟨control.blocks.size, kind, false⟩ :: control.openBlocks
    blocks := control.blocks.push ⟨kind, type, index, none, none⟩
    depth := control.depth + 1 }

def divided (label : Label) (outer : List OpenBlock) (index : Nat) (control : Control) : Control :=
  { openBlocks := ⟨label, .cond, true⟩ :: outer
    blocks := control.blocks.modify label ({ · with elseAt := some index })
    depth := control.depth }

def closed (label : Label) (outer : List OpenBlock) (index : Nat) (control : Control) : Control :=
  { openBlocks := outer
    blocks := control.blocks.modify label ({ · with endAt := some index })
    depth := control.depth - 1 }

/-- Everything that the control state can do for the instruction at an index. -/
inductive Step (index : Nat) (control : Control) : Labelled → Control → Prop
  | plain (instruction : Plain) : Step index control (.plain instruction) control
  | enter (kind : BlockKind) (type : BlockType) (nested : control.openCount < maxNesting) :
    Step index control (.enter kind type control.blocks.size) (control.opened kind type index)
  | otherwise (label : Label) (outer : List OpenBlock)
    (innermost : control.openBlocks = ⟨label, .cond, false⟩ :: outer) :
    Step index control (.otherwise label) (control.divided label outer index)
  | close (block : OpenBlock) (outer : List OpenBlock)
    (innermost : control.openBlocks = block :: outer) :
    Step index control (.close (some block.label)) (control.closed block.label outer index)
  | finish (empty : control.openBlocks = []) :
    Step index control (.close none) { control with depth := control.depth - 1 }
  | br (target : Target) (resolves : control.Resolves target) :
    Step index control (.br target) control
  | brIf (target : Target) (resolves : control.Resolves target) :
    Step index control (.brIf target) control
  | brTable (targets : List Target) (default : Target)
    (resolves : ∀ target ∈ targets, control.Resolves target)
    (default_resolves : control.Resolves default) :
    Step index control (.brTable targets default) control

theorem resolve_eq_ok_iff {control : Control} {depth : UInt32} {target : Target} :
    control.resolve depth = .ok target ↔ target.depth = depth ∧ control.Resolves target := by
  obtain ⟨depth', label⟩ := target
  rw [resolve, Resolves, List.getElem?_map]
  cases hb : control.openBlocks[depth.toNat]? with
  | none =>
    simp only [reduceCtorEq, false_iff, not_and]
    rintro rfl
    simp [hb]
  | some block =>
    simp only [Except.ok.injEq, Target.mk.injEq]
    constructor
    · rintro ⟨rfl, rfl⟩
      simp [hb]
    · rintro ⟨rfl, hl⟩
      simpa [hb] using hl

theorem mapM_resolve_eq_ok_iff {control : Control} {depths : List UInt32} {targets : List Target} :
    depths.mapM control.resolve = .ok targets ↔
      targets.map Target.depth = depths ∧ ∀ target ∈ targets, control.Resolves target := by
  induction depths generalizing targets with
  | nil =>
    simp only [List.mapM_nil, pure, Except.pure, Except.ok.injEq, List.map_eq_nil_iff]
    constructor
    · rintro rfl
      simp
    · rintro ⟨rfl, -⟩
      rfl
  | cons depth depths ih =>
    rw [List.mapM_cons]
    constructor
    · intro h
      cases hr : control.resolve depth with
      | error error => rw [hr] at h; cases h
      | ok first =>
        cases hm : depths.mapM control.resolve with
        | error error => rw [hr, hm] at h; cases h
        | ok rest =>
          rw [hr, hm] at h
          cases h
          obtain ⟨hd, hf⟩ := resolve_eq_ok_iff.mp hr
          obtain ⟨hds, hrest⟩ := ih.mp hm
          exact ⟨by rw [List.map_cons, hd, hds], List.forall_mem_cons.mpr ⟨hf, hrest⟩⟩
    · rintro ⟨hd, hall⟩
      cases targets with
      | nil => simp at hd
      | cons first rest =>
        rw [List.map_cons, List.cons.injEq] at hd
        obtain ⟨hf, hrest⟩ := List.forall_mem_cons.mp hall
        rw [resolve_eq_ok_iff.mpr ⟨hd.1, hf⟩, ih.mpr ⟨hd.2, hrest⟩]
        rfl

theorem label_ok {control next : Control} {instruction : Instruction} {index : Nat}
    {labelled : Labelled} (h : control.label instruction index = (.ok labelled, next)) :
    labelled.instruction = instruction ∧ Step index control labelled next := by
  cases instruction with
  | plain instruction =>
    cases h
    exact ⟨rfl, .plain instruction⟩
  | enter kind type =>
    rw [label, enter] at h
    by_cases hn : maxNesting ≤ control.openCount
    · rw [if_pos hn] at h
      cases h
    · rw [if_neg hn] at h
      cases h
      exact ⟨rfl, .enter kind type (Nat.lt_of_not_le hn)⟩
  | otherwise =>
    rw [label, otherwise] at h
    cases ho : control.openBlocks with
    | nil => rw [ho] at h; cases h
    | cons block outer =>
      obtain ⟨label, kind, hasElse⟩ := block
      simp only [ho] at h
      split at h
      · cases h
      · next hk =>
        split at h
        · cases h
        · next he =>
          cases h
          rw [not_not] at hk
          rw [Bool.not_eq_true] at he
          subst hk he
          exact ⟨rfl, .otherwise label outer ho⟩
  | close =>
    rw [label, close] at h
    cases ho : control.openBlocks with
    | nil =>
      have hs := @Step.finish index control ho
      simp only [ho] at h hs
      cases h
      exact ⟨rfl, hs⟩
    | cons block outer =>
      simp only [ho] at h
      cases h
      exact ⟨rfl, .close block outer ho⟩
  | br depth =>
    rw [label, Prod.mk.injEq] at h
    obtain ⟨hm, rfl⟩ := h
    cases hr : control.resolve depth with
    | error error => rw [hr] at hm; cases hm
    | ok target =>
      rw [hr] at hm
      cases hm
      obtain ⟨rfl, hres⟩ := resolve_eq_ok_iff.mp hr
      exact ⟨rfl, .br target hres⟩
  | brIf depth =>
    rw [label, Prod.mk.injEq] at h
    obtain ⟨hm, rfl⟩ := h
    cases hr : control.resolve depth with
    | error error => rw [hr] at hm; cases hm
    | ok target =>
      rw [hr] at hm
      cases hm
      obtain ⟨rfl, hres⟩ := resolve_eq_ok_iff.mp hr
      exact ⟨rfl, .brIf target hres⟩
  | brTable depths default =>
    rw [label] at h
    cases hm : depths.mapM control.resolve with
    | error error => rw [hm] at h; cases h
    | ok targets =>
      simp only [hm, Prod.mk.injEq] at h
      obtain ⟨hd, rfl⟩ := h
      obtain ⟨rfl, hall⟩ := mapM_resolve_eq_ok_iff.mp hm
      cases hr : control.resolve default with
      | error error => rw [hr] at hd; cases hd
      | ok target =>
        rw [hr] at hd
        cases hd
        obtain ⟨rfl, hres⟩ := resolve_eq_ok_iff.mp hr
        exact ⟨rfl, .brTable targets target hall hres⟩

theorem Step.label_eq {control next : Control} {index : Nat} {labelled : Labelled}
    (h : Step index control labelled next) :
    control.label labelled.instruction index = (.ok labelled, next) := by
  cases h with
  | plain instruction => rfl
  | enter kind type nested =>
    rw [Labelled.instruction, label, Control.enter, if_neg (Nat.not_le.mpr nested)]
    rfl
  | otherwise label outer innermost =>
    simp [Labelled.instruction, Control.label, Control.otherwise, innermost, Except.map, divided]
  | close block outer innermost =>
    simp [Labelled.instruction, Control.label, Control.close, innermost, closed]
  | finish empty => simp [Labelled.instruction, Control.label, Control.close, empty]
  | br target resolves =>
    rw [Labelled.instruction, label, resolve_eq_ok_iff.mpr ⟨rfl, resolves⟩]
    rfl
  | brIf target resolves =>
    rw [Labelled.instruction, label, resolve_eq_ok_iff.mpr ⟨rfl, resolves⟩]
    rfl
  | brTable targets default resolves default_resolves =>
    rw [Labelled.instruction, label, mapM_resolve_eq_ok_iff.mpr ⟨rfl, resolves⟩,
      resolve_eq_ok_iff.mpr ⟨rfl, default_resolves⟩]
    rfl

/-- The control state labels the instructions one after another, the first at the given index. -/
def Follows : Nat → Control → List Labelled → Control → Prop
  | _, control, [], final => control = final
  | index, control, labelled :: rest, final =>
    ∃ next, Step index control labelled next ∧ Follows (index + 1) next rest final

theorem follows_append {index : Nat} {control final : Control} {front back : List Labelled} :
    Follows index control (front ++ back) final ↔
      ∃ middle, Follows index control front middle ∧
        Follows (index + front.length) middle back final := by
  induction front generalizing index control with
  | nil => simp [Follows]
  | cons labelled front ih =>
    simp only [List.cons_append, Follows, ih, List.length_cons]
    constructor
    · rintro ⟨next, hl, middle, hf, hb⟩
      exact ⟨middle, ⟨next, hl, hf⟩, by rwa [Nat.add_comm front.length, ← Nat.add_assoc]⟩
    · rintro ⟨middle, ⟨next, hl, hf⟩, hb⟩
      exact ⟨next, hl, middle, hf, by rwa [Nat.add_comm front.length, ← Nat.add_assoc] at hb⟩

/-- At an end that closes no block, no block is open. -/
theorem Follows.openBlocks_eq_nil {index : Nat} {control final : Control} {front : List Labelled}
    (h : Follows index control (front ++ [.close none]) final) : final.openBlocks = [] := by
  obtain ⟨middle, -, next, hs, rfl⟩ := follows_append.mp h
  cases hs with
  | finish empty => exact empty

end Control

/-! ## One instruction -/

namespace Decoder

theorem instruction_opcode (op : Operator) (index : Nat) (decoder : Decoder) :
    instruction op.opcode index decoder = decoder.operands op index := by
  simp only [instruction, Operator.family_of_opcode, instructionOf, Operator.ofOpcodeIn?_opcode]

theorem instruction_illegal {opcode : UInt8} (h : Operator.ofOpcode? opcode = none) (index : Nat)
    (decoder : Decoder) :
    instruction opcode index decoder = (.error (.illegalOpcode opcode), decoder) := by
  rw [Operator.ofOpcode?, Option.bind_eq_none_iff] at h
  unfold instruction
  split
  next family hfamily => rw [instructionOf, h family hfamily]
  · rfl

theorem instruction_ok {opcode : UInt8} {index offset : Nat} {rest : List UInt8}
    {control next : Control} {left : Cursor} {labelled : Labelled}
    (h : instruction opcode index ⟨⟨offset, rest⟩, control⟩ = (.ok labelled, ⟨left, next⟩)) :
    ∃ operands tail, rest = operands ++ tail ∧ left = ⟨offset + operands.length, tail⟩ ∧
      labelled.instruction.Spelled (opcode :: operands) ∧ control.Step index labelled next := by
  cases ho : Operator.ofOpcode? opcode with
  | none =>
    rw [instruction_illegal ho] at h
    cases h
  | some op =>
    obtain rfl := Operator.ofOpcode?_eq_some_iff.mp ho
    rw [instruction_opcode, Decoder.operands] at h
    rcases hr : op.readOperands ⟨offset, rest⟩ with ⟨_ | read, middle⟩ <;> rw [hr] at h
    · cases h
    obtain ⟨operands, tail, rfl, rfl, ht⟩ := (codec_readOperands op).isLocal _ _ _ _ hr
    rcases hl : control.label read index with ⟨result, control'⟩
    simp only [hl, Prod.mk.injEq, Decoder.mk.injEq] at h
    obtain ⟨rfl, rfl, rfl⟩ := h
    obtain ⟨rfl, hs⟩ := Control.label_ok hl
    obtain ⟨⟨rfl, -⟩, -⟩ := (codec_readOperands op).sound operands _ ht
    exact ⟨operands, tail, rfl, rfl, ⟨operands, rfl, ht⟩, hs⟩

theorem instruction_of_spelled {opcode : UInt8} {index offset : Nat} {operands tail : List UInt8}
    {control next : Control} {labelled : Labelled}
    (hs : labelled.instruction.Spelled (opcode :: operands))
    (hl : control.Step index labelled next) :
    instruction opcode index ⟨⟨offset, operands ++ tail⟩, control⟩ =
      (.ok labelled, ⟨⟨offset + operands.length, tail⟩, next⟩) := by
  obtain ⟨operands', he, ht⟩ := hs
  rw [List.cons.injEq] at he
  obtain ⟨rfl, rfl⟩ := he
  simp only [instruction_opcode, Decoder.operands, ht offset tail, hl.label_eq]

end Decoder

/-! ## The whole scan -/

/-- The byte behind the instructions of a segment that ends at an else. -/
def terminator (elseTerminated : Bool) : List UInt8 :=
  if elseTerminated then [Operator.otherwise.opcode] else []

/-- A scan ends at the first end that closes no block, or, in a segment, at an else outside of all
blocks, which is not counted among the instructions. -/
def Finished (mode : BodyMode) (elseTerminated : Bool) (code : List Labelled) (final : Control) :
    Prop :=
  if elseTerminated then mode = .segment ∧ final.openBlocks = [] ∧ .close none ∉ code
  else ∃ front, code = front ++ [.close none] ∧ .close none ∉ front

theorem finished_cons {mode : BodyMode} {elseTerminated : Bool} {labelled : Labelled}
    {code : List Labelled} {final : Control} (hl : labelled ≠ .close none) :
    Finished mode elseTerminated (labelled :: code) final ↔
      Finished mode elseTerminated code final := by
  cases elseTerminated with
  | true => simp [Finished, hl.symm]
  | false =>
    simp only [Finished, Bool.false_eq_true, if_false]
    constructor
    · rintro ⟨front, he, hn⟩
      cases front with
      | nil => exact absurd (List.cons.inj he).1 hl
      | cons first front =>
        rw [List.cons_append, List.cons.injEq] at he
        exact ⟨front, he.2, fun hm => hn (List.mem_cons_of_mem _ hm)⟩
    · rintro ⟨front, rfl, hn⟩
      exact ⟨labelled :: front, rfl, by simp [hl.symm, hn]⟩

theorem finished_close {mode : BodyMode} {elseTerminated : Bool} {code : List Labelled}
    {final : Control} (h : Finished mode elseTerminated (.close none :: code) final) :
    elseTerminated = false ∧ code = [] := by
  cases elseTerminated with
  | true =>
    obtain ⟨-, -, hn⟩ := h
    exact absurd List.mem_cons_self hn
  | false =>
    obtain ⟨front, he, hn⟩ := h
    cases front with
    | nil => exact ⟨rfl, (List.cons.inj he).2⟩
    | cons first front =>
      rw [List.cons_append, List.cons.injEq] at he
      exact absurd (he.1 ▸ List.mem_cons_self) hn

namespace Scan

/-- The scan behind a chunk. -/
def past (chunk : Chunk) (offset : Nat) (rest : List UInt8) (next : Control)
    (instructions : Array Placed) : Scan :=
  ⟨⟨offset + chunk.bytes.length, rest⟩, next,
    instructions.push ⟨chunk.labelled, offset, chunk.bytes.length⟩⟩

/-- Everything that one round of a successful scan can do: stop at an else, or read a chunk and
then stop or go on. -/
theorem run_round {mode : BodyMode} {begin rounds offset : Nat} {input : List UInt8}
    {control : Control} {instructions : Array Placed} {elseTerminated : Bool} {final : Scan}
    (h : run mode begin (rounds + 1) ⟨⟨offset, input⟩, control, instructions⟩ =
      (.ok elseTerminated, final)) :
    offset - begin ≤ maxBodySize ∧
      ((∃ rest, input = Operator.otherwise.opcode :: rest ∧ mode = .segment ∧
          control.openBlocks = [] ∧ elseTerminated = true ∧
          final = ⟨⟨offset + 1, rest⟩, control, instructions⟩) ∨
        ∃ (chunk : Chunk) (rest : List UInt8) (next : Control), input = chunk.bytes ++ rest ∧
          control.Step instructions.size chunk.labelled next ∧
          ((chunk.labelled = .close none ∧ elseTerminated = false ∧
              final = past chunk offset rest next instructions) ∨
            (chunk.labelled ≠ .close none ∧
              run mode begin rounds (past chunk offset rest next instructions) =
                (.ok elseTerminated, final)))) := by
  unfold run at h
  split at h
  · cases h
  next hs =>
  refine ⟨by simpa [tooLarge] using hs, ?_⟩
  cases input with
  | nil => cases h
  | cons opcode rest =>
    dsimp only at h
    split at h
    · next he =>
      obtain ⟨rfl, rfl, ho⟩ := he
      cases h
      exact Or.inl ⟨rest, rfl, rfl, by simpa [Control.isEmpty] using ho, rfl, rfl⟩
    · rcases hd : Decoder.instruction opcode instructions.size ⟨⟨offset + 1, rest⟩, control⟩ with
        ⟨_ | labelled, ⟨left, next⟩⟩ <;> rw [hd] at h
      · cases h
      obtain ⟨operands, tail, rfl, rfl, hsp, hst⟩ := Decoder.instruction_ok hd
      have hp : past ⟨labelled, opcode :: operands, hsp⟩ offset tail next instructions =
          ⟨⟨offset + 1 + operands.length, tail⟩, next,
            instructions.push ⟨labelled, offset, offset + 1 + operands.length - offset⟩⟩ := by
        have ha : offset + (operands.length + 1) = offset + 1 + operands.length := by omega
        have hl : offset + 1 + operands.length - offset = operands.length + 1 := by omega
        simp only [past, List.length_cons, ha, hl]
      refine Or.inr ⟨⟨labelled, opcode :: operands, hsp⟩, tail, next, rfl, hst, ?_⟩
      rw [hp]
      dsimp only at h
      split at h
      · next hlast =>
        cases h
        exact Or.inl ⟨hlast, rfl, rfl⟩
      · next hgo => exact Or.inr ⟨hgo, h⟩

theorem run_sound {mode : BodyMode} {begin rounds offset : Nat} {input : List UInt8}
    {control : Control} {instructions : Array Placed} {elseTerminated : Bool} {final : Scan}
    (h : run mode begin rounds ⟨⟨offset, input⟩, control, instructions⟩ =
      (.ok elseTerminated, final)) :
    ∃ chunks rest, input = Chunk.input chunks ++ terminator elseTerminated ++ rest ∧
      final.cursor =
        ⟨offset + (Chunk.input chunks ++ terminator elseTerminated).length, rest⟩ ∧
      final.instructions.toList = instructions.toList ++ Chunk.place offset chunks ∧
      Control.Follows instructions.size control (Chunk.code chunks) final.control ∧
      Finished mode elseTerminated (Chunk.code chunks) final.control ∧
      offset + (Chunk.input chunks ++ terminator elseTerminated).length - begin ≤
        maxBodySize + 1 := by
  induction rounds generalizing offset input control instructions with
  | zero =>
    unfold run at h
    split at h <;> cases h
  | succ rounds ih =>
    obtain ⟨hsize, ⟨rest, rfl, rfl, ho, rfl, rfl⟩ | ⟨chunk, rest, next, rfl, hst, hend⟩⟩ := run_round h
    · refine ⟨[], rest, rfl, rfl, (List.append_nil _).symm, rfl, ⟨rfl, ho, List.not_mem_nil⟩, ?_⟩
      change offset + 1 - begin ≤ maxBodySize + 1
      omega
    obtain ⟨hlast, rfl, rfl⟩ | ⟨hgo, hrun⟩ := hend
    · have hone : chunk.bytes.length = 1 := by
        have hsp := chunk.spelled
        rw [hlast] at hsp
        rw [hsp.eq_of_close]
        rfl
      refine ⟨[chunk], rest, by simp [Chunk.input, terminator], ?_, ?_, ⟨next, hst, rfl⟩, ?_, ?_⟩
      · simp [past, Chunk.input, terminator]
      · simp [past, Chunk.place]
      · exact ⟨[], by simp [Chunk.code, hlast], List.not_mem_nil⟩
      · simp only [Chunk.input, List.flatMap_singleton, terminator, Bool.false_eq_true, if_false,
          List.append_nil]
        omega
    · -- the rest of the scan begins behind the chunk
      obtain ⟨chunks, rest', rfl, hcur, hins, hfol, hfin, hle⟩ := ih hrun
      have hinput : Chunk.input (chunk :: chunks) = chunk.bytes ++ Chunk.input chunks := rfl
      have hlen : offset + (chunk.bytes ++ Chunk.input chunks ++ terminator elseTerminated).length =
          offset + chunk.bytes.length + (Chunk.input chunks ++ terminator elseTerminated).length := by
        simp only [List.length_append]
        omega
      refine ⟨chunk :: chunks, rest', ?_, ?_, ?_, ⟨next, hst, ?_⟩, ?_, ?_⟩
      · simp only [hinput, List.append_assoc]
      · rw [hcur, hinput, hlen]
      · rw [hins, Array.toList_push, List.append_assoc]
        rfl
      · rwa [Array.size_push] at hfol
      · exact (finished_cons hgo).mpr hfin
      · rw [hinput, hlen]
        exact hle

theorem run_else {begin rounds offset : Nat} {rest : List UInt8} {control : Control}
    {instructions : Array Placed} (hs : offset - begin ≤ maxBodySize)
    (ho : control.openBlocks = []) :
    run .segment begin (rounds + 1)
        ⟨⟨offset, Operator.otherwise.opcode :: rest⟩, control, instructions⟩ =
      (.ok true, ⟨⟨offset + 1, rest⟩, control, instructions⟩) := by
  have ht : tooLarge begin ⟨⟨offset, Operator.otherwise.opcode :: rest⟩, control, instructions⟩ =
      false := by
    simpa [tooLarge] using hs
  unfold run
  simp [ht, Control.isEmpty, ho]

/-- An else that the control state has a place for does not end a segment. -/
theorem step_opcode_else {index : Nat} {control next : Control} {labelled : Labelled}
    (hst : control.Step index labelled next)
    (ho : labelled.instruction.operator.opcode = Operator.otherwise.opcode) :
    control.isEmpty = false := by
  have hop := Operator.opcode_injective ho
  cases hst with
  | plain instruction => cases instruction <;> cases hop
  | otherwise label outer innermost => rw [Control.isEmpty, innermost]; rfl
  | _ => cases hop

theorem run_chunk {mode : BodyMode} {begin rounds offset : Nat} {chunk : Chunk} {rest : List UInt8}
    {control next : Control} {instructions : Array Placed} (hs : offset - begin ≤ maxBodySize)
    (hst : control.Step instructions.size chunk.labelled next) :
    run mode begin (rounds + 1) ⟨⟨offset, chunk.bytes ++ rest⟩, control, instructions⟩ =
      if chunk.labelled = .close none then (.ok false, past chunk offset rest next instructions)
      else run mode begin rounds (past chunk offset rest next instructions) := by
  obtain ⟨labelled, bytes, hsp⟩ := chunk
  have hsp' := hsp
  obtain ⟨operands, rfl, -⟩ := hsp'
  have hne : ¬ (mode = .segment ∧
      labelled.instruction.operator.opcode = Operator.otherwise.opcode ∧ control.isEmpty = true) := by
    rintro ⟨-, ho, hc⟩
    rw [step_opcode_else hst ho] at hc
    cases hc
  have ht : tooLarge begin ⟨⟨offset, labelled.instruction.operator.opcode :: (operands ++ rest)⟩,
      control, instructions⟩ = false := by
    simpa [tooLarge] using hs
  have hd : Decoder.instruction _ _ ⟨⟨offset + 1, operands ++ rest⟩, control⟩ = _ :=
    Decoder.instruction_of_spelled hsp hst
  have ha : offset + (operands.length + 1) = offset + 1 + operands.length := by omega
  have hl : offset + 1 + operands.length - offset = operands.length + 1 := by omega
  rw [List.cons_append, run]
  simp only [ht, Bool.false_eq_true, if_false, hne, hd, past, List.length_cons, ha, hl]

theorem run_complete {mode : BodyMode} {begin rounds offset : Nat} {chunks : List Chunk}
    {rest : List UInt8} {control final : Control} {instructions : Array Placed}
    {elseTerminated : Bool}
    (hrounds : (Chunk.input chunks ++ terminator elseTerminated).length ≤ rounds)
    (hfol : Control.Follows instructions.size control (Chunk.code chunks) final)
    (hfin : Finished mode elseTerminated (Chunk.code chunks) final)
    (hsize : offset + (Chunk.input chunks ++ terminator elseTerminated).length - begin ≤
      maxBodySize + 1) :
    run mode begin rounds
        ⟨⟨offset, Chunk.input chunks ++ terminator elseTerminated ++ rest⟩, control, instructions⟩ =
      (.ok elseTerminated,
        ⟨⟨offset + (Chunk.input chunks ++ terminator elseTerminated).length, rest⟩, final,
          instructions ++ Chunk.place offset chunks⟩) := by
  induction chunks generalizing rounds offset control instructions with
  | nil =>
    cases elseTerminated with
    | false =>
      obtain ⟨front, he, -⟩ := hfin
      exact absurd he (by simp [Chunk.code])
    | true =>
      obtain ⟨rfl, ho, -⟩ := hfin
      obtain rfl : control = final := hfol
      change 1 ≤ rounds at hrounds
      change offset + 1 - begin ≤ maxBodySize + 1 at hsize
      obtain ⟨rounds, rfl⟩ := Nat.exists_eq_add_of_le' hrounds
      have hr := @run_else begin rounds offset rest control instructions (by omega) ho
      simpa [Chunk.input, terminator, Chunk.place] using hr
  | cons chunk chunks ih =>
    obtain ⟨next, hst, hfol⟩ := hfol
    have hpos := chunk.spelled.length_pos
    have hinput : Chunk.input (chunk :: chunks) = chunk.bytes ++ Chunk.input chunks := rfl
    have hlen : (chunk.bytes ++ Chunk.input chunks ++ terminator elseTerminated).length =
        chunk.bytes.length + (Chunk.input chunks ++ terminator elseTerminated).length := by
      simp only [List.length_append]
      omega
    rw [hinput, hlen] at hrounds hsize
    obtain ⟨rounds, rfl⟩ := Nat.exists_eq_add_of_le' (show 1 ≤ rounds by omega)
    rw [hinput, hlen, List.append_assoc, List.append_assoc, run_chunk (by omega) hst]
    split
    · next hlast =>
      rw [Chunk.code, List.map_cons, hlast] at hfin
      obtain ⟨rfl, hnil⟩ := finished_close hfin
      obtain rfl := List.map_eq_nil_iff.mp hnil
      obtain rfl : next = final := hfol
      simp [past, Chunk.input, terminator, Chunk.place]
    · next hgo =>
      have hr := @ih rounds (offset + chunk.bytes.length) next
        (instructions.push ⟨chunk.labelled, offset, chunk.bytes.length⟩) (by omega)
        (by rwa [Array.size_push]) ((finished_cons hgo).mp hfin) (by omega)
      rw [← List.append_assoc, past, hr, Nat.add_assoc]
      simp [Chunk.place]

end Scan

/-! ## Bodies -/

/-- How a body was read from a cursor: the chunks of the input, and the control state that labelled
them and is left at the end. -/
structure Transcript (mode : BodyMode) (cursor : Cursor) (chunks : List Chunk) (control : Control)
    (body : Body) (left : Cursor) : Prop where
  input_eq : cursor.rest =
    Chunk.input chunks ++ terminator body.elseTerminated ++ left.rest
  offset_eq : left.offset =
    cursor.offset + (Chunk.input chunks ++ terminator body.elseTerminated).length
  follows : Control.Follows 0 .empty (Chunk.code chunks) control
  finished : Finished mode body.elseTerminated (Chunk.code chunks) control
  size_le : (Chunk.input chunks ++ terminator body.elseTerminated).length ≤ maxBodySize + 1
  instructions_eq : body.instructions.toList = Chunk.place cursor.offset chunks
  blocks_eq : body.blocks = control.blocks
  exhausted : mode = .function → left.rest = []

namespace Body

theorem ofScan_ok {mode : BodyMode} {params : UInt32} {elseTerminated : Bool} {scan : Scan}
    {body : Body} :
    ofScan mode params elseTerminated scan = .ok body ↔
      (mode = .function → scan.cursor.rest = []) ∧
        body = ⟨scan.instructions, scan.control.blocks, params, elseTerminated⟩ := by
  unfold ofScan
  by_cases hc : mode = .function ∧ !scan.cursor.rest.isEmpty
  · rw [if_pos hc]
    constructor
    · intro h
      cases h
    · rintro ⟨hf, -⟩
      simp [hf hc.1] at hc
  · rw [if_neg hc, Except.ok.injEq, eq_comm]
    constructor
    · intro h
      exact ⟨fun hf => by simpa [hf] using hc, h⟩
    · exact And.right

theorem scan_complete {mode : BodyMode} {offset : Nat} {chunks : List Chunk} {rest : List UInt8}
    {final : Control} {elseTerminated : Bool}
    (hfol : Control.Follows 0 .empty (Chunk.code chunks) final)
    (hfin : Finished mode elseTerminated (Chunk.code chunks) final)
    (hsize : (Chunk.input chunks ++ terminator elseTerminated).length ≤ maxBodySize + 1) :
    scan mode ⟨offset, Chunk.input chunks ++ terminator elseTerminated ++ rest⟩ =
      (.ok elseTerminated,
        ⟨⟨offset + (Chunk.input chunks ++ terminator elseTerminated).length, rest⟩, final,
          (Chunk.place offset chunks).toArray⟩) := by
  have hr := @Scan.run_complete mode offset
    (Chunk.input chunks ++ terminator elseTerminated ++ rest).length offset chunks rest .empty
    final #[] elseTerminated (by simp) hfol hfin (by omega)
  have harray : (#[] : Array Placed) ++ Chunk.place offset chunks =
      (Chunk.place offset chunks).toArray := by simp
  rw [harray] at hr
  exact hr

/-- A body is read exactly when there is a transcript of it. -/
theorem read_ok_iff {mode : BodyMode} {params : UInt32} {cursor left : Cursor} {body : Body} :
    read mode params cursor = (.ok body, left) ↔
      body.params = params ∧ ∃ chunks control, Transcript mode cursor chunks control body left := by
  obtain ⟨offset, input⟩ := cursor
  constructor
  · intro h
    rw [read, scan] at h
    rcases hr : Scan.run mode offset (Cursor.remaining ⟨offset, input⟩) (.start ⟨offset, input⟩) with
      ⟨_ | elseTerminated, final⟩ <;> rw [hr] at h
    · cases h
    obtain ⟨hbody, rfl⟩ := Prod.mk.inj h
    obtain ⟨hex, rfl⟩ := ofScan_ok.mp hbody
    obtain ⟨chunks, rest, rfl, hcur, hins, hfol, hfin, hle⟩ := Scan.run_sound hr
    refine ⟨rfl, chunks, final.control, ?_⟩
    have hsize : (Chunk.input chunks ++ terminator elseTerminated).length ≤ maxBodySize + 1 := by
      omega
    exact ⟨by rw [hcur], by rw [hcur], hfol, hfin, hsize, by simpa using hins, rfl, hex⟩
  · rintro ⟨rfl, chunks, control, h⟩
    obtain ⟨leftOffset, rest⟩ := left
    obtain ⟨instructions, blocks, params, elseTerminated⟩ := body
    obtain ⟨hin, hoff, hfol, hfin, hsize, hins, hblocks, hex⟩ := h
    dsimp only at hin hoff hfin hsize hins hblocks hex ⊢
    subst hin hoff hblocks
    obtain rfl : instructions = (Chunk.place offset chunks).toArray := by
      apply Array.toList_inj.mp
      simpa using hins
    rw [read, scan_complete hfol hfin hsize]
    dsimp only
    rw [ofScan_ok.mpr ⟨hex, rfl⟩]

/-- The instructions with their labels, without their places. -/
def code (body : Body) : List Labelled := body.instructions.toList.map Placed.labelled

theorem encode_eq (body : Body) : body.encode = body.code.flatMap Labelled.encode := by
  rw [encode, code, List.flatMap_map]

end Body

namespace Transcript

variable {mode : BodyMode} {cursor left : Cursor} {chunks : List Chunk} {control : Control}
  {body : Body}

theorem code_eq (h : Transcript mode cursor chunks control body left) :
    body.code = Chunk.code chunks := by
  rw [Body.code, h.instructions_eq, Chunk.place_labelled]

/-- At the end of a body no block is open. -/
theorem openBlocks_eq (h : Transcript mode cursor chunks control body left) :
    control.openBlocks = [] := by
  have hfin := h.finished
  cases he : body.elseTerminated with
  | true =>
    rw [he] at hfin
    exact hfin.2.1
  | false =>
    rw [he] at hfin
    obtain ⟨front, hcode, -⟩ := hfin
    have hfol := h.follows
    rw [hcode] at hfol
    exact hfol.openBlocks_eq_nil

end Transcript

namespace Body

theorem exists_transcript {bytes : List UInt8} {params : UInt32} {body : Body}
    (h : decode bytes params = .ok body) :
    body.params = params ∧
      ∃ chunks control left, Transcript .function (.ofBytes bytes) chunks control body left := by
  rcases hr : read .function params (.ofBytes bytes) with ⟨result, left⟩
  rw [decode, hr] at h
  obtain rfl : result = .ok body := h
  obtain ⟨hp, chunks, control, ht⟩ := read_ok_iff.mp hr
  exact ⟨hp, chunks, control, left, ht⟩

/-- The bytes of a function body are its chunks, of which the last alone closes no block. -/
theorem decode_ok_iff {bytes : List UInt8} {params : UInt32} {body : Body} :
    decode bytes params = .ok body ↔
      body.params = params ∧ body.elseTerminated = false ∧
        ∃ chunks control front, bytes = Chunk.input chunks ∧
          Control.Follows 0 .empty (Chunk.code chunks) control ∧
          Chunk.code chunks = front ++ [.close none] ∧ .close none ∉ front ∧
          bytes.length ≤ maxBodySize + 1 ∧
          body.instructions.toList = Chunk.place 0 chunks ∧ body.blocks = control.blocks := by
  constructor
  · intro h
    obtain ⟨hp, chunks, control, left, ht⟩ := exists_transcript h
    have he : body.elseTerminated = false := by
      rw [← Bool.not_eq_true]
      intro he
      have hfin := ht.finished
      rw [he] at hfin
      cases hfin.1
    have hfin := ht.finished
    have hin := ht.input_eq
    have hsize := ht.size_le
    rw [he] at hfin hin hsize
    obtain ⟨front, hcode, hn⟩ := hfin
    have hbytes : bytes = Chunk.input chunks := by
      simpa [ht.exhausted rfl, terminator, Cursor.ofBytes] using hin
    rw [terminator, if_neg Bool.false_ne_true, List.append_nil, ← hbytes] at hsize
    exact ⟨hp, he, chunks, control, front, hbytes, ht.follows, hcode, hn, hsize,
      ht.instructions_eq, ht.blocks_eq⟩
  · rintro ⟨hp, he, chunks, control, front, rfl, hfol, hcode, hn, hsize, hins, hblocks⟩
    have hr := (@read_ok_iff .function params (.ofBytes (Chunk.input chunks))
      ⟨(Chunk.input chunks).length, []⟩ body).mpr ⟨hp, chunks, control, ?_⟩
    · rw [decode, hr]
    · refine ⟨?_, ?_, hfol, ?_, ?_, hins, hblocks, fun _ => rfl⟩ <;> rw [he]
      · simp [terminator, Cursor.ofBytes]
      · simp [terminator, Cursor.ofBytes]
      · exact ⟨front, hcode, hn⟩
      · simpa [terminator] using hsize

end Body

end FlatWasm
