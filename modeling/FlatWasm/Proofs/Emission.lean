import FlatWasm.Assembly
import FlatWasm.Proofs.Numerals
import FlatWasm.Proofs.Operators

/-!
# What the assembler emits

The assembler finds opcodes in tables of its own and writes operands in the form that the opcode
asks for; the encoder writes an instruction by its constructor. Both agree. The tables give each
mnemonic the opcode of the operator that has it, and a line comes to the bytes of the instruction
that it shows, or to an error if it shows none.
-/

namespace FlatWasm

namespace Assembly

/-! ## Results -/

theorem map_ok {ε α β : Type} {result : Except ε α} {a : α} (h : result = .ok a) (f : α → β) :
    result.map f = .ok (f a) := by
  rw [h]
  rfl

theorem map_eq_ok {ε α β : Type} {result : Except ε α} {f : α → β} {b : β}
    (h : result.map f = .ok b) : ∃ a, result = .ok a ∧ f a = b := by
  cases result with
  | error error => cases h
  | ok a => exact ⟨a, rfl, Except.ok.inj h⟩

theorem bind_eq_ok {ε α β : Type} {result : Except ε α} {next : α → Except ε β} {b : β}
    (h : (result >>= next) = .ok b) : ∃ a, result = .ok a ∧ next a = .ok b := by
  cases result with
  | error error => cases h
  | ok a => exact ⟨a, rfl, h⟩

theorem map_map {ε α β γ : Type} (result : Except ε α) (f : α → β) (g : β → γ) :
    (result.map f).map g = result.map fun a => g (f a) := by
  cases result <;> rfl

theorem mapM_eq_ok_iff {ε α β : Type} {f : α → Except ε β} {items : List α} {results : List β} :
    items.mapM f = .ok results ↔
      List.Forall₂ (fun item result => f item = .ok result) items results := by
  constructor
  · intro h
    induction items generalizing results with
    | nil =>
      cases h
      exact .nil
    | cons item items ih =>
      rw [List.mapM_cons] at h
      obtain ⟨first, hfirst, h⟩ := bind_eq_ok h
      obtain ⟨rest, hrest, h⟩ := bind_eq_ok h
      cases h
      exact .cons hfirst (ih hrest)
  · intro h
    induction h with
    | nil => rfl
    | cons hfirst _ ih =>
      rw [List.mapM_cons, hfirst, ih]
      rfl

/-! ## The tables -/

theorem operator_of_mem_mnemonics {mnemonic : String} {opcode : UInt8}
    (h : (mnemonic, opcode) ∈ mnemonics) :
    ∃ op : Operator, op.mnemonic = mnemonic ∧ op.opcode = opcode := by
  have hnamed : ∀ entry ∈ controlMnemonics ++ otherMnemonics,
      ∃ op ∈ Operator.all, (op.mnemonic, op.opcode) = entry := by
    decide +kernel
  have hoperator : ∀ op : Operator, (op.mnemonic, op.opcode) = (mnemonic, opcode) →
      ∃ op : Operator, op.mnemonic = mnemonic ∧ op.opcode = opcode := by
    intro op heq
    exact ⟨op, Prod.mk.inj heq⟩
  simp only [mnemonics, List.flatten_cons, List.flatten_nil, List.append_nil, List.mem_append,
    List.mem_map] at h
  rcases h with h | h | ⟨op, -, heq⟩ | ⟨op, -, heq⟩ | ⟨op, -, heq⟩ | ⟨op, -, heq⟩
  · obtain ⟨op, -, heq⟩ := hnamed _ (List.mem_append_left _ h)
    exact hoperator op heq
  · obtain ⟨op, -, heq⟩ := hnamed _ (List.mem_append_right _ h)
    exact hoperator op heq
  · exact hoperator (.parametric op) heq
  · exact hoperator (.variable op) heq
  · exact hoperator (.memory op) heq
  · exact hoperator (.numeric op) heq

theorem opcode?_mnemonic (op : Operator) : opcode? op.mnemonic = some op.opcode := by
  have htable : ∀ op ∈ Operator.all, opcode? op.mnemonic = some op.opcode := by decide +kernel
  exact htable op (Operator.mem_all op)

/-- Each entry of the tables is found: no two of them give a mnemonic different opcodes, so their
order does not matter. -/
theorem mem_mnemonics_iff {mnemonic : String} {opcode : UInt8} :
    (mnemonic, opcode) ∈ mnemonics ↔ opcode? mnemonic = some opcode := by
  constructor
  · intro h
    obtain ⟨op, rfl, rfl⟩ := operator_of_mem_mnemonics h
    exact opcode?_mnemonic op
  · intro h
    obtain ⟨before, behind, hsplit, -⟩ := List.lookup_eq_some_iff.mp h
    rw [hsplit]
    simp

/-- A mnemonic has an opcode if it is that of an operator, and then it has the operator's. -/
theorem opcode?_eq_some_iff {mnemonic : String} {opcode : UInt8} :
    opcode? mnemonic = some opcode ↔
      ∃ op : Operator, op.mnemonic = mnemonic ∧ op.opcode = opcode := by
  constructor
  · intro h
    exact operator_of_mem_mnemonics (mem_mnemonics_iff.mpr h)
  · intro h
    obtain ⟨op, rfl, rfl⟩ := h
    exact opcode?_mnemonic op

/-- The block type that a word shows. -/
def blockType (word : List Char) : Except LineError BlockType :=
  match ValueType.all.find? fun type => type.name == String.ofList word with
  | some type => .ok (.value type)
  | none =>
    match (typeIndex? word).bind (Numeral.unsigned? 10 32) with
    | some n => .ok (.index (UInt32.ofNat n))
    | none => .error (.invalidBlockType (String.ofList word))

theorem lookup_valueTypeCodes (name : String) :
    valueTypeCodes.lookup name =
      (ValueType.all.find? fun type => type.name == name).map fun type =>
        (BlockType.value type).code := by
  by_cases hi32 : name = "i32"
  · subst hi32
    rfl
  by_cases hi64 : name = "i64"
  · subst hi64
    rfl
  by_cases hf32 : name = "f32"
  · subst hf32
    rfl
  by_cases hf64 : name = "f64"
  · subst hf64
    rfl
  have hcodes : valueTypeCodes.lookup name = none := by
    simp [valueTypeCodes, hi32, hi64, hf32, hf64]
  have htypes : (ValueType.all.find? fun type => type.name == name) = none := by
    simp [ValueType.all, ValueType.name, Ne.symm hi32, Ne.symm hi64, Ne.symm hf32, Ne.symm hf64]
  rw [hcodes, htypes]
  rfl

/-- The assembler's numbers for block types are those of the encoder. -/
theorem blockTypeCode_eq (word : List Char) :
    blockTypeCode word = (blockType word).map BlockType.code := by
  unfold blockTypeCode blockType
  rw [lookup_valueTypeCodes]
  cases ValueType.all.find? fun type => type.name == String.ofList word with
  | some type => rfl
  | none =>
    cases hindex : (typeIndex? word).bind (Numeral.unsigned? 10 32) with
    | none => rfl
    | some n =>
      obtain ⟨digits, -, hread⟩ := Option.bind_eq_some_iff.mp hindex
      have hlt : n < UInt32.size := Numeral.unsigned?_lt hread
      show Except.ok (n : Int) = .ok ((UInt32.ofNat n).toNat : Int)
      rw [UInt32.toNat_ofNat_of_lt' hlt]

theorem constantBytes_eq (value : Constant) : constantBytes value = value.encode := by
  cases value <;> rfl

/-! ## Instructions -/

end Assembly

namespace Operator

/-- How the operands of an operator stand on a line. -/
def operandForm : Operator → Assembly.OperandForm
  | .unreachable | .nop | .ret | .otherwise | .close | .parametric _ | .numeric _ => .nothing
  | .enter _ => .blockType
  | .br | .brIf | .call | .variable _ => .index
  | .callIndirect => .indexReserved
  | .brTable => .table
  | .memorySize _ => .reserved
  | .const type => .constant type
  | .memory _ => .twoIndices

theorem form_of_opcode (op : Operator) :
    Assembly.OperandForm.ofOpcode op.opcode = op.operandForm := by
  have htable : ∀ op ∈ all, Assembly.OperandForm.ofOpcode op.opcode = op.operandForm := by
    decide +kernel
  exact htable op (mem_all op)

end Operator

namespace Assembly

variable {floats : FloatCodec}

/-- The instruction that an operator and the words behind its mnemonic show. -/
def instruction (floats : FloatCodec) : Operator → List (List Char) → Except LineError Instruction
  | .unreachable, [] => .ok (.plain .unreachable)
  | .nop, [] => .ok (.plain .nop)
  | .ret, [] => .ok (.plain .ret)
  | .enter kind, [] => .ok (.enter kind .empty)
  | .enter kind, [word] => (blockType word).map (.enter kind)
  | .otherwise, [] => .ok .otherwise
  | .close, [] => .ok .close
  | .br, [word] => (index word).map .br
  | .brIf, [word] => (index word).map .brIf
  | .brTable, first :: rest => do
    let first ← index first
    let rest ← rest.mapM index
    return .brTable (first :: rest).dropLast ((first :: rest).getLast (List.cons_ne_nil first rest))
  | .call, [word] => (index word).map fun n => .plain (.call n)
  | .callIndirect, [word] => (index word).map fun n => .plain (.callIndirect n)
  | .parametric op, [] => .ok (.plain (.parametric op))
  | .variable op, [word] => (index word).map fun n => .plain (.variable op n)
  | .memory op, [align, offset] => do
    let align ← index align
    let offset ← index offset
    return .plain (.memory op ⟨align, offset⟩)
  | .memorySize op, [] => .ok (.plain (.memorySize op))
  | .const type, [word] => (constant floats type word).map fun value => .plain (.const value)
  | .numeric op, [] => .ok (.plain (.numeric op))
  | op, words =>
    .error (.operandCount op.mnemonic op.operandForm.least op.operandForm.most words.length)

theorem type_of_constant {type : ValueType} {word : List Char} {value : Constant}
    (h : constant floats type word = .ok value) : value.type = type := by
  have hread : constant? floats type word = some value := by
    unfold constant at h
    split at h
    next read hread => rw [hread, Except.ok.inj h]
    · cases h
  cases type <;> obtain ⟨_, -, rfl⟩ := Option.map_eq_some_iff.mp hread <;> rfl

/-- Operands decide the operands of an instruction, and nothing of its operator. -/
theorem operator_of_instruction {op : Operator} {operands : List (List Char)} {i : Instruction}
    (h : instruction floats op operands = .ok i) : i.operator = op := by
  cases op with
  | unreachable | nop | ret | otherwise | close | parametric op | memorySize op | numeric op =>
    cases operands with
    | nil =>
      cases h
      rfl
    | cons word operands => cases h
  | br | brIf | call | callIndirect | «variable» op =>
    rcases operands with _ | ⟨word, _ | ⟨more, operands⟩⟩
    · cases h
    · obtain ⟨operand, -, rfl⟩ := map_eq_ok h
      rfl
    · cases h
  | const type =>
    rcases operands with _ | ⟨word, _ | ⟨more, operands⟩⟩
    · cases h
    · obtain ⟨value, hvalue, rfl⟩ := map_eq_ok h
      exact congrArg Operator.const (type_of_constant hvalue)
    · cases h
  | enter kind =>
    rcases operands with _ | ⟨word, _ | ⟨more, operands⟩⟩
    · cases h
      rfl
    · obtain ⟨type, -, rfl⟩ := map_eq_ok h
      rfl
    · cases h
  | memory op =>
    rcases operands with _ | ⟨align, _ | ⟨offset, _ | ⟨more, operands⟩⟩⟩
    · cases h
    · cases h
    · obtain ⟨align, -, h⟩ := bind_eq_ok h
      obtain ⟨offset, -, h⟩ := bind_eq_ok h
      cases h
      rfl
    · cases h
  | brTable =>
    cases operands with
    | nil => cases h
    | cons first rest =>
      obtain ⟨first, -, h⟩ := bind_eq_ok h
      obtain ⟨rest, -, h⟩ := bind_eq_ok h
      cases h
      rfl

/-- The operands of a line are written as the encoder writes those of the instruction; and if they
show no instruction, the assembler reports what is wrong with them. -/
theorem bytes_eq (op : Operator) (operands : List (List Char)) :
    op.operandForm.bytes floats op.mnemonic operands =
      (instruction floats op operands).map Instruction.operandBytes := by
  cases op with
  | unreachable | nop | ret | otherwise | close | parametric op | memorySize op | numeric op =>
    cases operands <;> rfl
  | br | brIf | call | callIndirect | «variable» op =>
    rcases operands with _ | ⟨word, _ | ⟨more, operands⟩⟩
    · rfl
    · show Except.map _ (index word) = Except.map _ (Except.map _ (index word))
      rw [map_map]
      rfl
    · rfl
  | const type =>
    rcases operands with _ | ⟨word, _ | ⟨more, operands⟩⟩
    · rfl
    · show (constant floats type word).map constantBytes =
        ((constant floats type word).map fun value => Instruction.plain (.const value)).map _
      rw [map_map, funext constantBytes_eq]
      rfl
    · rfl
  | enter kind =>
    rcases operands with _ | ⟨word, _ | ⟨more, operands⟩⟩
    · rfl
    · show (blockTypeCode word).map Leb128.encodeSigned =
        ((blockType word).map (Instruction.enter kind)).map _
      rw [blockTypeCode_eq, map_map, map_map]
      rfl
    · rfl
  | memory op =>
    rcases operands with _ | ⟨align, _ | ⟨offset, _ | ⟨more, operands⟩⟩⟩
    · rfl
    · rfl
    · show (index align >>= fun first => index offset >>= fun second =>
          Except.ok (encodeIndex first ++ encodeIndex second)) =
        Except.map _ (index align >>= fun align => index offset >>= fun offset =>
          Except.ok (Instruction.plain (.memory op ⟨align, offset⟩)))
      cases index align with
      | error error => rfl
      | ok align => cases index offset <;> rfl
    · rfl
  | brTable =>
    cases operands with
    | nil => rfl
    | cons first rest =>
      show (index first >>= fun first => rest.mapM index >>= fun rest => _) =
        Except.map _ (index first >>= fun first => rest.mapM index >>= fun rest => _)
      cases index first with
      | error error => rfl
      | ok first => cases rest.mapM index <;> rfl

/-! ## Lines -/

/-- A line that begins with the mnemonic of an operator is assembled to the encoding of the
instruction on it. -/
theorem line_eq {text : List Char} {op : Operator} {operands : List (List Char)}
    (h : Text.words (Text.uncommented text) = op.mnemonic.toList :: operands) :
    line floats text = (instruction floats op operands).map Instruction.encode := by
  have hbytes : line floats text =
      (op.operandForm.bytes floats op.mnemonic operands).map (op.opcode :: ·) := by
    simp only [line, h, String.ofList_toList, opcode?_mnemonic, Operator.form_of_opcode]
  rw [hbytes, bytes_eq, map_map]
  cases hi : instruction floats op operands with
  | error cause => rfl
  | ok i =>
    show Except.ok (op.opcode :: i.operandBytes) = .ok i.encode
    rw [Instruction.encode, operator_of_instruction hi]

/-- The first word names the operator of the instruction, and the others give its operands. -/
def Reads (floats : FloatCodec) (row : List (List Char)) (i : Instruction) : Prop :=
  ∃ operands, row = i.operator.mnemonic.toList :: operands ∧
    instruction floats i.operator operands = .ok i

/-- A line that is accepted has no word and no bytes, or shows an instruction and has its bytes. -/
theorem line_ok {text : List Char} {bytes : List UInt8} (h : line floats text = .ok bytes) :
    Text.words (Text.uncommented text) = [] ∧ bytes = [] ∨
      ∃ i : Instruction, bytes = i.encode ∧
        Reads floats (Text.words (Text.uncommented text)) i := by
  cases hwords : Text.words (Text.uncommented text) with
  | nil =>
    rw [line, hwords] at h
    exact .inl ⟨rfl, (Except.ok.inj h).symm⟩
  | cons word operands =>
    cases hopcode : opcode? (String.ofList word) with
    | none =>
      simp only [line, hwords, hopcode] at h
      cases h
    | some opcode =>
      obtain ⟨op, hop, -⟩ := opcode?_eq_some_iff.mp hopcode
      have hword : word = op.mnemonic.toList := by rw [hop, String.toList_ofList]
      rw [hword] at hwords ⊢
      rw [line_eq hwords] at h
      obtain ⟨i, hread, hbytes⟩ := map_eq_ok h
      obtain rfl := operator_of_instruction hread
      exact .inr ⟨i, hbytes.symm, operands, rfl, hread⟩

end Assembly

end FlatWasm
