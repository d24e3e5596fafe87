import FlatWasm.Proofs.Checked
import FlatWasm.Proofs.Scanning

/-!
# Bodies read with every partial operation checked

The scan of a body over checked operations: labels must fit 32 bits, the depth 64 bits, a depth is
turned into a place on the stack of open blocks by subtraction, the record of a block is looked up
by its label, and the end of a body asserts the depth that it leaves. The scan has no bound on its
rounds.

It comes to a result on every input, and to the one of the scan it stands beside. What a round keeps
is that open blocks have their records, that there are no more records than instructions, no more
instructions than bytes read, and that the depth counts the open blocks.
-/

namespace FlatWasm

namespace Checked

/-! ## Blocks -/

def toInt64 (value : Int) : Option Int :=
  if Int64.minValue.toInt ≤ value ∧ value ≤ Int64.maxValue.toInt then some value else none

/-- Changes the record of a block, which must exist. -/
def record (blocks : Array Block) (label : Label) (change : Block → Block) :
    Option (Array Block) :=
  if label < blocks.size then some (blocks.modify label change) else none

def enter (kind : BlockKind) (type : BlockType) (index : Nat) (control : Control) :
    Option (Except DecodeError Label × Control) :=
  if maxNesting ≤ control.openCount then
    some (.error (.malformed (.nestedTooDeep maxNesting)), control)
  else do
    let label := (← toUInt32 control.blocks.size).toNat
    let depth ← toInt64 (control.depth + 1)
    return (.ok label,
      { openBlocks := ⟨label, kind, false⟩ :: control.openBlocks
        blocks := control.blocks.push ⟨kind, type, index, none, none⟩
        depth })

/-- Counts from the outermost open block. -/
def resolve (control : Control) (depth : UInt32) : Option (Except DecodeError Target) :=
  if control.openCount ≤ depth.toNat then
    some (.error (.unresolvedTarget depth control.openCount))
  else do
    let last ← subtract control.openCount 1
    let place ← subtract last depth.toNat
    let block ← control.openBlocks.reverse[place]?
    return .ok ⟨depth, block.label⟩

def resolveAll (control : Control) : List UInt32 → Option (Except DecodeError (List Target))
  | [] => some (.ok [])
  | depth :: depths => do
    match ← resolve control depth with
    | .error error => return .error error
    | .ok target =>
      match ← resolveAll control depths with
      | .error error => return .error error
      | .ok targets => return .ok (target :: targets)

def otherwise (index : Nat) (control : Control) : Option (Except DecodeError Label × Control) :=
  match control.openBlocks with
  | [] => some (.error (.unresolvedTarget 0 0), control)
  | block :: outer =>
    if block.kind ≠ .cond then
      some (.error (.malformed (.elseOutsideIf block.kind block.label)), control)
    else if block.hasElse then some (.error (.malformed (.secondElse block.label)), control)
    else do
      let blocks ← record control.blocks block.label ({ · with elseAt := some index })
      return (.ok block.label,
        { control with openBlocks := { block with hasElse := true } :: outer, blocks })

def close (index : Nat) (control : Control) : Option (Option Label × Control) := do
  let depth ← toInt64 (control.depth - 1)
  match control.openBlocks with
  | [] => return (none, { control with depth })
  | block :: outer =>
    let blocks ← record control.blocks block.label ({ · with endAt := some index })
    return (some block.label, { openBlocks := outer, blocks, depth })

/-- Labels the instruction at an index of the body, and follows it. -/
def label (instruction : Instruction) (index : Nat) (control : Control) :
    Option (Except DecodeError Labelled × Control) :=
  match instruction with
  | .plain instruction => some (.ok (.plain instruction), control)
  | .enter kind type => do
    let (result, control) ← enter kind type index control
    return (result.map (.enter kind type), control)
  | .otherwise => do
    let (result, control) ← otherwise index control
    return (result.map .otherwise, control)
  | .close => do
    let (label, control) ← close index control
    return (.ok (.close label), control)
  | .br depth => do return ((← resolve control depth).map .br, control)
  | .brIf depth => do return ((← resolve control depth).map .brIf, control)
  | .brTable depths default => do
    match ← resolveAll control depths with
    | .error error => return (.error error, control)
    | .ok targets => return ((← resolve control default).map (.brTable targets), control)

/-! ## Bodies -/

/-- How far the reading of a body has come. -/
structure Progress where
  buffer : Buffer
  control : Control
  instructions : Array Placed

/-- Decodes the instruction with the given opcode, which the position has passed. -/
noncomputable def instruction (opcode : UInt8) (index : Nat) (buffer : Buffer) (control : Control) :
    Option (Except DecodeError Labelled × Buffer × Control) :=
  match Operator.ofOpcode? opcode with
  | none => some (.error (.illegalOpcode opcode), buffer, control)
  | some op => do
    match ← operands op buffer with
    | (.error cause, buffer) => return (.error (.malformed cause), buffer, control)
    | (.ok instruction, buffer) =>
      let (result, control) ← label instruction index control
      return (result, buffer, control)

/-- Reads a further instruction of a body that begins at a position. If it ends the body, the round
tells whether it was an else. -/
noncomputable def round (mode : BodyMode) (begin : Nat) (progress : Progress) :
    Option ((Except DecodeError Bool × Progress) ⊕ Progress) := do
  let ⟨buffer, control, instructions⟩ := progress
  let size ← subtract buffer.pos begin
  if maxBodySize < size then
    return .inl (.error (.malformed (.bodyTooLarge maxBodySize)), progress)
  else
  let left ← subtract buffer.bytes.length buffer.pos
  if left < 1 then
    return .inl (.error (.malformed (.blocksLeftOpen control.openCount)), progress)
  else
  match ← byte buffer with
  | (.error cause, buffer) =>
    return .inl (.error (.malformed cause), ⟨buffer, control, instructions⟩)
  | (.ok opcode, next) =>
    if mode = .segment ∧ opcode = Operator.otherwise.opcode ∧ control.isEmpty then
      return .inl (.ok true, ⟨next, control, instructions⟩)
    else
    match ← instruction opcode instructions.size next control with
    | (.error error, next, control) => return .inl (.error error, ⟨next, control, instructions⟩)
    | (.ok labelled, next, control) =>
      let length ← subtract next.pos buffer.pos
      let progress := ⟨next, control, instructions.push ⟨labelled, buffer.pos, length⟩⟩
      if labelled = .close none then
        if control.depth = -1 then return .inl (.ok false, progress) else none
      else return .inr progress

noncomputable def scan (mode : BodyMode) (begin : Nat) (progress : Progress) :
    Option (Except DecodeError Bool × Progress) :=
  loop (round mode begin) progress

/-- Reads one body at the position. -/
noncomputable def read (mode : BodyMode) (params : UInt32) (buffer : Buffer) :
    Option (Except DecodeError Body × Buffer) := do
  match ← scan mode buffer.pos ⟨buffer, .empty, #[]⟩ with
  | (.error error, ⟨buffer, _, _⟩) => return (.error error, buffer)
  | (.ok elseTerminated, ⟨buffer, control, instructions⟩) =>
    let left ← subtract buffer.bytes.length buffer.pos
    if mode = .function ∧ 0 < left then
      return (.error (.malformed (.trailingBytes left)), buffer)
    else return (.ok ⟨instructions, control.blocks, params, elseTerminated⟩, buffer)

/-! ## Labelling -/

/-- Of a control state behind so many instructions: open blocks have their records, every record has
its instruction, and the depth counts the open blocks. -/
structure Accounted (count : Nat) (control : Control) : Prop where
  label_lt : ∀ block ∈ control.openBlocks, block.label < control.blocks.size
  openCount_le : control.openCount ≤ control.blocks.size
  size_le : control.blocks.size ≤ count
  depth_eq : control.depth = control.openCount

theorem toInt64_eq {value : Int} (hl : -1 ≤ value) (hu : value ≤ UInt32.size) :
    toInt64 value = some value := by
  rw [UInt32.size] at hu
  rw [toInt64, Int64.toInt_minValue, Int64.toInt_maxValue, if_pos (by omega)]

theorem resolve_eq (control : Control) (depth : UInt32) :
    resolve control depth = some (control.resolve depth) := by
  unfold resolve Control.resolve Control.openCount
  by_cases hd : control.openBlocks.length ≤ depth.toNat
  · rw [if_pos hd, List.getElem?_eq_none hd]
  · have hlt : depth.toNat < control.openBlocks.length := by omega
    have hplace : control.openBlocks.length - 1 - (control.openBlocks.length - 1 - depth.toNat) =
        depth.toNat := by omega
    rw [if_neg hd, subtract_eq (by omega : 1 ≤ control.openBlocks.length)]
    simp only [Option.bind_eq_bind, Option.bind_some]
    rw [subtract_eq (by omega : depth.toNat ≤ control.openBlocks.length - 1), Option.bind_some,
      List.getElem?_reverse (by omega), hplace, List.getElem?_eq_getElem hlt]
    rfl

theorem resolveAll_eq (control : Control) (depths : List UInt32) :
    resolveAll control depths = some (depths.mapM control.resolve) := by
  induction depths with
  | nil => rfl
  | cons depth depths ih =>
    rw [resolveAll, resolve_eq, List.mapM_cons, ih]
    cases control.resolve depth with
    | error error => rfl
    | ok target => cases depths.mapM control.resolve <;> rfl

namespace Accounted

variable {count : Nat} {control next : Control} {labelled : Labelled}

theorem empty : Accounted 0 .empty := ⟨by simp [Control.empty], by decide, by decide, by decide⟩

theorem enter (a : Accounted count control) (hc : count < UInt32.size) (kind : BlockKind)
    (type : BlockType) (index : Nat) :
    Checked.enter kind type index control = some (control.enter kind type index) := by
  have hle := a.openCount_le
  have hsize := a.size_le
  unfold Checked.enter Control.enter
  by_cases hn : maxNesting ≤ control.openCount
  · rw [if_pos hn, if_pos hn]
  · rw [if_neg hn, if_neg hn, toUInt32, if_pos (by omega),
      toInt64_eq (by rw [a.depth_eq]; omega) (by rw [a.depth_eq]; omega)]
    simp only [Option.bind_eq_bind, Option.bind_some]
    rw [UInt32.toNat_ofNat_of_lt' (by omega)]
    rfl

theorem record_eq (a : Accounted count control) {block : OpenBlock} {outer : List OpenBlock}
    (h : control.openBlocks = block :: outer) (change : Block → Block) :
    record control.blocks block.label change = some (control.blocks.modify block.label change) :=
  if_pos (a.label_lt block (by rw [h]; exact List.mem_cons_self))

theorem otherwise (a : Accounted count control) (index : Nat) :
    Checked.otherwise index control = some (control.otherwise index) := by
  unfold Checked.otherwise Control.otherwise
  cases ho : control.openBlocks with
  | nil => rfl
  | cons block outer =>
    dsimp only
    split
    · rfl
    · split
      · rfl
      · rw [a.record_eq ho]
        rfl

theorem close (a : Accounted count control) (hc : count < UInt32.size) (index : Nat) :
    Checked.close index control = some (control.close index) := by
  have hle := a.openCount_le
  have hsize := a.size_le
  unfold Checked.close Control.close
  rw [toInt64_eq (by rw [a.depth_eq]; omega) (by rw [a.depth_eq]; omega)]
  simp only [Option.bind_eq_bind, Option.bind_some]
  cases ho : control.openBlocks with
  | nil => rfl
  | cons block outer =>
    dsimp only
    rw [a.record_eq ho]
    rfl

theorem label (a : Accounted count control) (hc : count < UInt32.size) (instruction : Instruction)
    (index : Nat) :
    Checked.label instruction index control = some (control.label instruction index) := by
  cases instruction with
  | plain instruction => rfl
  | enter kind type =>
    rw [Checked.label, a.enter hc]
    rfl
  | otherwise =>
    rw [Checked.label, a.otherwise]
    rfl
  | close =>
    rw [Checked.label, a.close hc]
    rfl
  | br depth =>
    rw [Checked.label, resolve_eq]
    rfl
  | brIf depth =>
    rw [Checked.label, resolve_eq]
    rfl
  | brTable depths default =>
    rw [Checked.label, resolveAll_eq, resolve_eq, Control.label]
    cases depths.mapM control.resolve <;> rfl

theorem idle (a : Accounted count control) : Accounted (count + 1) control :=
  ⟨a.label_lt, a.openCount_le, Nat.le_succ_of_le a.size_le, a.depth_eq⟩

theorem opened (a : Accounted count control) (kind : BlockKind) (type : BlockType) (index : Nat) :
    Accounted (count + 1) (control.opened kind type index) := by
  have hle := a.openCount_le
  have hsize := a.size_le
  have hdepth := a.depth_eq
  refine ⟨?_, ?_, ?_, ?_⟩
  · intro block hm
    show block.label < (control.blocks.push _).size
    rw [Array.size_push]
    rcases List.mem_cons.mp hm with rfl | hm
    · exact Nat.lt_succ_self _
    · exact Nat.lt_succ_of_lt (a.label_lt block hm)
  · show control.openBlocks.length + 1 ≤ (control.blocks.push _).size
    rw [Array.size_push]
    exact Nat.succ_le_succ hle
  · show (control.blocks.push _).size ≤ count + 1
    rw [Array.size_push]
    exact Nat.succ_le_succ hsize
  · show control.depth + 1 = (control.openBlocks.length + 1 : Nat)
    rw [hdepth, Control.openCount]
    omega

theorem divided (a : Accounted count control) {label : Label} {outer : List OpenBlock}
    (h : control.openBlocks = ⟨label, .cond, false⟩ :: outer) (index : Nat) :
    Accounted (count + 1) (control.divided label outer index) := by
  have hlabel := a.label_lt
  have hle := a.openCount_le
  have hdepth := a.depth_eq
  rw [Control.openCount, h] at hle hdepth
  rw [h, List.forall_mem_cons] at hlabel
  refine ⟨?_, ?_, ?_, hdepth⟩
  · show ∀ block ∈ _ :: outer, block.label < (control.blocks.modify _ _).size
    rw [Array.size_modify, List.forall_mem_cons]
    exact hlabel
  · show _ ≤ (control.blocks.modify _ _).size
    rw [Array.size_modify]
    exact hle
  · show (control.blocks.modify _ _).size ≤ _
    rw [Array.size_modify]
    exact Nat.le_succ_of_le a.size_le

theorem closed (a : Accounted count control) {block : OpenBlock} {outer : List OpenBlock}
    (h : control.openBlocks = block :: outer) (index : Nat) :
    Accounted (count + 1) (control.closed block.label outer index) := by
  have hlabel := a.label_lt
  have hle := a.openCount_le
  have hdepth := a.depth_eq
  rw [Control.openCount, h, List.length_cons] at hle hdepth
  rw [h, List.forall_mem_cons] at hlabel
  refine ⟨?_, ?_, ?_, ?_⟩
  · show ∀ block ∈ outer, block.label < (control.blocks.modify _ _).size
    rw [Array.size_modify]
    exact hlabel.2
  · show outer.length ≤ (control.blocks.modify _ _).size
    rw [Array.size_modify]
    omega
  · show (control.blocks.modify _ _).size ≤ _
    rw [Array.size_modify]
    exact Nat.le_succ_of_le a.size_le
  · show control.depth - 1 = outer.length
    omega

/-- An instruction keeps the account, unless it ends the body. -/
theorem step (a : Accounted count control) {index : Nat}
    (h : Control.Step index control labelled next) (hl : labelled ≠ .close none) :
    Accounted (count + 1) next := by
  cases h with
  | plain instruction => exact a.idle
  | enter kind type nested => exact a.opened kind type index
  | otherwise label outer innermost => exact a.divided innermost index
  | close block outer innermost => exact a.closed innermost index
  | finish empty => exact absurd rfl hl
  | br target resolves => exact a.idle
  | brIf target resolves => exact a.idle
  | brTable targets default resolves default_resolves => exact a.idle

/-- The end of a body leaves a depth of minus one. -/
theorem finish (a : Accounted count control) {index : Nat}
    (h : Control.Step index control (.close none) next) : next.depth = -1 := by
  cases h with
  | finish hempty =>
    show control.depth - 1 = -1
    rw [a.depth_eq, Control.openCount, hempty]
    rfl

end Accounted

/-! ## Scanning -/

variable {mode : BodyMode} {begin count : Nat} {input : List UInt8} {control : Control}

theorem instruction_eq {pos : Nat} (hpos : pos ≤ input.length) (a : Accounted count control)
    (hc : count < UInt32.size) (opcode : UInt8) (index : Nat) :
    ∃ result last next, pos ≤ last ∧ last ≤ input.length ∧
      instruction opcode index ⟨input, pos⟩ control = some (result, ⟨input, last⟩, next) ∧
      Decoder.instruction opcode index ⟨⟨pos, input.drop pos⟩, control⟩ =
        (result, ⟨⟨last, input.drop last⟩, next⟩) := by
  unfold instruction
  cases ho : Operator.ofOpcode? opcode with
  | none =>
    rw [Decoder.instruction_illegal ho]
    exact ⟨_, pos, control, Nat.le_refl pos, hpos, rfl, rfl⟩
  | some op =>
    obtain ⟨result, last, hle, hlast, hop, hread⟩ := implements_operands op input pos hpos
    rw [← Operator.ofOpcode?_eq_some_iff.mp ho, Decoder.instruction_opcode, Decoder.operands]
    simp only [hop, hread, Option.bind_eq_bind, Option.bind_some]
    cases result with
    | error cause => exact ⟨_, last, control, hle, hlast, rfl, rfl⟩
    | ok instruction =>
      refine ⟨(control.label instruction index).1, last, (control.label instruction index).2, hle,
        hlast, ?_, rfl⟩
      dsimp only
      rw [a.label hc]
      rfl

/-- What is known of a scan between two rounds: it is within the input, and has read at least a byte
for each instruction. -/
structure Underway (begin : Nat) (progress : Progress) : Prop where
  pos_le : progress.buffer.pos ≤ progress.buffer.bytes.length
  size_le : begin + progress.instructions.size ≤ progress.buffer.pos
  accounted : Accounted progress.instructions.size progress.control

def Progress.scan (progress : Progress) : Scan :=
  ⟨⟨progress.buffer.pos, progress.buffer.bytes.drop progress.buffer.pos⟩, progress.control,
    progress.instructions⟩

theorem Underway.count_lt {progress : Progress} (u : Underway begin progress)
    (hsize : ¬ maxBodySize < progress.buffer.pos - begin) :
    progress.instructions.size < UInt32.size := by
  have hle := u.size_le
  rw [maxBodySize] at hsize
  rw [UInt32.size]
  omega

/-- Behind an instruction that does not end the body. -/
theorem Underway.next {pos last : Nat} {next : Control} {instructions : Array Placed}
    {labelled : Labelled} (u : Underway begin ⟨⟨input, pos⟩, control, instructions⟩)
    (hle : pos + 1 ≤ last) (hlast : last ≤ input.length)
    (hst : control.Step instructions.size labelled next) (hl : labelled ≠ .close none)
    (length : Nat) :
    Underway begin ⟨⟨input, last⟩, next, instructions.push ⟨labelled, pos, length⟩⟩ := by
  have hsize : begin + instructions.size ≤ pos := u.size_le
  refine ⟨hlast, ?_, ?_⟩
  · show begin + (instructions.push _).size ≤ last
    rw [Array.size_push]
    omega
  · show Accounted (instructions.push _).size next
    rw [Array.size_push]
    exact u.accounted.step hst hl

/-- With a round for each byte that is left, a bounded scan comes as far as one without a bound. -/
theorem scan_eq {progress : Progress} (u : Underway begin progress) {rounds : Nat}
    (hrounds : progress.buffer.bytes.length - progress.buffer.pos ≤ rounds) :
    ∃ result last, last.buffer.bytes = progress.buffer.bytes ∧
      progress.buffer.pos ≤ last.buffer.pos ∧ last.buffer.pos ≤ last.buffer.bytes.length ∧
      scan mode begin progress = some (result, last) ∧
      Scan.run mode begin rounds progress.scan = (result, last.scan) := by
  induction rounds using Nat.strong_induction_on generalizing progress with
  | _ rounds ih =>
  obtain ⟨⟨input, pos⟩, control, instructions⟩ := progress
  have hpos : pos ≤ input.length := u.pos_le
  have hbegin : begin + instructions.size ≤ pos := u.size_le
  dsimp only at hrounds
  rw [scan, loop_eq, round, Progress.scan]
  unfold Scan.run
  simp only [subtract_eq (by omega : begin ≤ pos), subtract_eq hpos, Option.bind_eq_bind,
    Option.bind_some, Scan.tooLarge, decide_eq_true_eq]
  by_cases hsize : maxBodySize < pos - begin
  · rw [if_pos hsize, if_pos hsize]
    exact ⟨_, _, rfl, Nat.le_refl pos, hpos, rfl, rfl⟩
  rw [if_neg hsize, if_neg hsize]
  cases hd : input.drop pos with
  | nil =>
    have hleft : input.length - pos < 1 := by
      rw [List.drop_eq_nil_iff] at hd
      omega
    rw [if_pos hleft]
    refine ⟨_, _, rfl, Nat.le_refl pos, hpos, rfl, ?_⟩
    rw [Progress.scan, hd]
    cases rounds <;> rfl
  | cons opcode rest =>
    have hlt := pos_lt hd
    have hrest := drop_succ hd
    obtain ⟨rounds, rfl⟩ : ∃ more, rounds = more + 1 := ⟨rounds - 1, by omega⟩
    rw [if_neg (by omega), byte_cons hd]
    simp only [Option.bind_some]
    by_cases he : mode = .segment ∧ opcode = Operator.otherwise.opcode ∧ control.isEmpty
    · rw [if_pos he, if_pos he]
      refine ⟨_, ⟨⟨input, pos + 1⟩, control, instructions⟩, rfl, Nat.le_succ pos, hlt, rfl, ?_⟩
      rw [Progress.scan, hrest]
    rw [if_neg he, if_neg he]
    obtain ⟨result, last, next, hle, hlast, hop, hread⟩ :=
      instruction_eq hlt u.accounted (u.count_lt hsize) opcode instructions.size
    have hpast : pos ≤ last := Nat.le_of_succ_le hle
    rw [hrest] at hread
    rw [hop, hread, Option.bind_some]
    cases result with
    | error error => exact ⟨_, _, rfl, hpast, hlast, rfl, rfl⟩
    | ok labelled =>
      obtain ⟨-, -, -, -, -, hst⟩ := Decoder.instruction_ok hread
      dsimp only
      rw [subtract_eq hpast, Option.bind_some]
      by_cases hl : labelled = .close none
      · subst hl
        rw [if_pos rfl, if_pos rfl, if_pos (u.accounted.finish hst)]
        exact ⟨_, _, rfl, hpast, hlast, rfl, rfl⟩
      · rw [if_neg hl, if_neg hl]
        obtain ⟨result, final, hbytes, hle', hlast', hscan, hrun⟩ :=
          ih rounds (Nat.lt_succ_self rounds) (u.next hle hlast hst hl (last - pos)) (by
            show input.length - last ≤ rounds
            omega)
        exact ⟨result, final, hbytes, Nat.le_trans hpast hle', hlast', hscan, hrun⟩

/-- From every position within an input, reading a body with checked operations comes to a result,
which is the result of reading the body, and to a position within the input. -/
theorem read_defined (mode : BodyMode) (params : UInt32) (input : List UInt8) (pos : Nat)
    (h : pos ≤ input.length) :
    ∃ result last, pos ≤ last ∧ last ≤ input.length ∧
      read mode params ⟨input, pos⟩ = some (result, ⟨input, last⟩) ∧
      Body.read mode params ⟨pos, input.drop pos⟩ = (result, ⟨last, input.drop last⟩) := by
  have hu : Underway pos ⟨⟨input, pos⟩, .empty, #[]⟩ := ⟨h, Nat.le_refl pos, .empty⟩
  obtain ⟨result, ⟨⟨input', last⟩, control, instructions⟩, hinput, hle, hlast, hscan, hrun⟩ :=
    @scan_eq mode pos _ hu (input.drop pos).length (by rw [List.length_drop])
  obtain rfl : input' = input := hinput
  have hbody : Body.scan mode ⟨pos, input'.drop pos⟩ = (result, _) := hrun
  rw [read, hscan, Body.read, hbody]
  cases result with
  | error error => exact ⟨_, last, hle, hlast, rfl, rfl⟩
  | ok elseTerminated =>
    refine ⟨Body.ofScan mode params elseTerminated ⟨⟨last, input'.drop last⟩, control, instructions⟩,
      last, hle, hlast, ?_, rfl⟩
    have hleft : (!(input'.drop last).isEmpty) = true ↔ 0 < input'.length - last := by
      rw [← List.length_drop, List.length_pos_iff, Bool.not_eq_true', List.isEmpty_eq_false_iff]
    simp only [Option.bind_eq_bind, Option.bind_some, subtract_eq hlast, Body.ofScan, hleft,
      Cursor.remaining, List.length_drop]
    split <;> rfl

/-- A segment behind a byte that is not part of it: a conditional with a branch table, a 64-bit
constant in its longest spelling, and the else that ends the segment. -/
theorem read_defined_segment :
    ∃ body, read .segment 0 ⟨[0xFF, 0x04, 0x7E, 0x42, 0x80, 0x80, 0x80, 0x80, 0x80, 0x80, 0x80, 0x80,
        0x80, 0x7F, 0x41, 0x00, 0x0E, 0x01, 0x00, 0x00, 0x05, 0x0B, 0x05, 0x0B], 1⟩ =
      some (.ok body, ⟨[0xFF, 0x04, 0x7E, 0x42, 0x80, 0x80, 0x80, 0x80, 0x80, 0x80, 0x80, 0x80,
        0x80, 0x7F, 0x41, 0x00, 0x0E, 0x01, 0x00, 0x00, 0x05, 0x0B, 0x05, 0x0B], 23⟩) ∧
      body.blocks = #[⟨.cond, .value .i64, 0, some 4, some 5⟩] ∧ body.elseTerminated = true := by
  obtain ⟨result, last, -, -, hread, hbody⟩ :=
    read_defined .segment 0 [0xFF, 0x04, 0x7E, 0x42, 0x80, 0x80, 0x80, 0x80, 0x80, 0x80, 0x80, 0x80,
      0x80, 0x7F, 0x41, 0x00, 0x0E, 0x01, 0x00, 0x00, 0x05, 0x0B, 0x05, 0x0B] 1 (by decide)
  let body : Body :=
    ⟨#[⟨.enter .cond (.value .i64) 0, 1, 2⟩,
        ⟨.plain (.const (.i64 (-0x8000000000000000))), 3, 11⟩, ⟨.plain (.const (.i32 0)), 14, 2⟩,
        ⟨.brTable [⟨0, 0⟩] ⟨0, 0⟩, 16, 4⟩, ⟨.otherwise 0, 20, 1⟩, ⟨.close (some 0), 21, 1⟩],
      #[⟨.cond, .value .i64, 0, some 4, some 5⟩], 0, true⟩
  have hvalue : Body.read .segment 0 ⟨1, [0x04, 0x7E, 0x42, 0x80, 0x80, 0x80, 0x80, 0x80, 0x80, 0x80,
      0x80, 0x80, 0x7F, 0x41, 0x00, 0x0E, 0x01, 0x00, 0x00, 0x05, 0x0B, 0x05, 0x0B]⟩ =
      (.ok body, ⟨23, [0x0B]⟩) := by
    decide +kernel
  obtain ⟨hresult, hcursor⟩ := Prod.mk.inj (hbody.symm.trans hvalue)
  obtain ⟨rfl, -⟩ := Cursor.mk.inj hcursor
  subst hresult
  exact ⟨body, hread, rfl, rfl⟩

end Checked

end FlatWasm
