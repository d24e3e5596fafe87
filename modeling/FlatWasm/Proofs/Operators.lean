import FlatWasm.Operator
import Mathlib.Data.List.Nodup

/-!
# The table of operators

The lists of operators are complete, and no two operators share an opcode. The family in whose range
an opcode lies is that of its operator. An opcode is therefore found, through its family, as the one
operator that has it.
-/

namespace FlatWasm

namespace BlockKind

theorem mem_all (kind : BlockKind) : kind ∈ all := by cases kind <;> decide

end BlockKind

namespace ValueType

theorem mem_all (type : ValueType) : type ∈ all := by cases type <;> decide

end ValueType

namespace IntType

theorem mem_all (type : IntType) : type ∈ all := by cases type <;> decide

end IntType

namespace FloatType

theorem mem_all (type : FloatType) : type ∈ all := by cases type <;> decide

end FloatType

namespace Signedness

theorem mem_all (sign : Signedness) : sign ∈ all := by cases sign <;> decide

end Signedness

namespace IntRelation

theorem mem_all : ∀ relation : IntRelation, relation ∈ all := by
  rintro (_ | _ | (_ | _) | (_ | _) | (_ | _) | (_ | _)) <;> decide

end IntRelation

namespace FloatRelation

theorem mem_all (relation : FloatRelation) : relation ∈ all := by cases relation <;> decide

end FloatRelation

namespace IntUnary

theorem mem_all (op : IntUnary) : op ∈ all := by cases op <;> decide

end IntUnary

namespace IntBinary

theorem mem_all : ∀ op : IntBinary, op ∈ all := by
  rintro (_ | _ | _ | (_ | _) | (_ | _) | _ | _ | _ | _ | (_ | _) | _ | _) <;> decide

end IntBinary

namespace FloatUnary

theorem mem_all (op : FloatUnary) : op ∈ all := by cases op <;> decide

end FloatUnary

namespace FloatBinary

theorem mem_all (op : FloatBinary) : op ∈ all := by cases op <;> decide

end FloatBinary

namespace Conversion

theorem mem_all (conversion : Conversion) : conversion ∈ all := by
  cases conversion with
  | wrap | demote | promote => decide
  | extend sign => cases sign <;> decide
  | truncate target source sign => cases target <;> cases source <;> cases sign <;> decide
  | convert target source sign => cases target <;> cases source <;> cases sign <;> decide
  | reinterpretFloat target => cases target <;> decide
  | reinterpretInt target => cases target <;> decide

end Conversion

namespace NumericOp

theorem mem_all (op : NumericOp) : op ∈ all := by
  cases op with
  | eqz type => simp [all, IntType.mem_all]
  | compareInt type relation => simp [all, IntType.mem_all, IntRelation.mem_all]
  | compareFloat type relation => simp [all, FloatType.mem_all, FloatRelation.mem_all]
  | unaryInt type op => simp [all, IntType.mem_all, IntUnary.mem_all]
  | binaryInt type op => simp [all, IntType.mem_all, IntBinary.mem_all]
  | unaryFloat type op => simp [all, FloatType.mem_all, FloatUnary.mem_all]
  | binaryFloat type op => simp [all, FloatType.mem_all, FloatBinary.mem_all]
  | convert conversion => simp [all, Conversion.mem_all]

end NumericOp

namespace Packing

theorem mem_all (packing : Packing) : packing ∈ all := by cases packing <;> decide

end Packing

namespace MemoryOp

theorem mem_all (op : MemoryOp) : op ∈ all := by
  cases op with
  | load type => simp [all, ValueType.mem_all]
  | loadPacked packing sign => simp [all, Packing.mem_all, Signedness.mem_all]
  | store type => simp [all, ValueType.mem_all]
  | storePacked packing => simp [all, Packing.mem_all]

end MemoryOp

namespace ParametricOp

theorem mem_all (op : ParametricOp) : op ∈ all := by cases op <;> decide

end ParametricOp

namespace VariableOp

theorem mem_all (op : VariableOp) : op ∈ all := by cases op <;> decide

end VariableOp

namespace Operator

/-- All operators, in the order of their opcodes. -/
def all : List Operator :=
  List.flatten [
    [.unreachable, .nop],
    BlockKind.all.map enter,
    [.otherwise, .close, .br, .brIf, .brTable, .ret, .call, .callIndirect],
    ParametricOp.all.map parametric,
    VariableOp.all.map «variable»,
    MemoryOp.all.map memory,
    [.memorySize .current, .memorySize .grow],
    ValueType.all.map const,
    NumericOp.all.map numeric]

theorem mem_all (op : Operator) : op ∈ all := by
  cases op with
  | enter kind => simp [all, BlockKind.mem_all]
  | parametric op => simp [all, ParametricOp.mem_all]
  | «variable» op => simp [all, VariableOp.mem_all]
  | memory op => simp [all, MemoryOp.mem_all]
  | memorySize op => cases op <;> simp [all]
  | const type => simp [all, ValueType.mem_all]
  | numeric op => simp [all, NumericOp.mem_all]
  | _ => simp [all]

theorem opcodes_increasing : (all.map fun op => op.opcode.toNat).IsChain (· < ·) := by
  decide +kernel

theorem opcode_injective {op op' : Operator} (h : op.opcode = op'.opcode) : op = op' := by
  have hn : (all.map fun op => op.opcode.toNat).Nodup :=
    (List.isChain_iff_pairwise.mp opcodes_increasing).imp Nat.ne_of_lt
  exact List.inj_on_of_nodup_map hn (mem_all op) (mem_all op') (congrArg UInt8.toNat h)

/-! ## Opcodes and families -/

theorem family_of_opcode (op : Operator) : Family.ofOpcode? op.opcode = some op.family := by
  have htable : ∀ op ∈ all, Family.ofOpcode? op.opcode = some op.family := by decide +kernel
  exact htable op (mem_all op)

theorem ofOpcodeIn?_opcode (op : Operator) : ofOpcodeIn? op.family op.opcode = some op := by
  have htable : ∀ op ∈ all, ofOpcodeIn? op.family op.opcode = some op := by decide +kernel
  exact htable op (mem_all op)

theorem opcode_of_controlOfOpcode? {opcode : UInt8} {op : Operator}
    (h : controlOfOpcode? opcode = some op) : op.opcode = opcode ∧ op.family = .control := by
  unfold controlOfOpcode? at h
  split at h <;> cases h <;> exact ⟨rfl, rfl⟩

theorem opcode_of_memoryOfOpcode? {opcode : UInt8} {op : Operator}
    (h : memoryOfOpcode? opcode = some op) : op.opcode = opcode ∧ op.family = .memory := by
  unfold memoryOfOpcode? at h
  split at h
  · cases h
    exact ⟨rfl, rfl⟩
  · cases h
    exact ⟨rfl, rfl⟩
  · obtain ⟨found, hfound, rfl⟩ := Option.map_eq_some_iff.mp h
    have hopcode := List.find?_some hfound
    exact ⟨eq_of_beq hopcode, rfl⟩

theorem opcode_of_numericOfOpcode? {opcode : UInt8} {op : Operator}
    (h : numericOfOpcode? opcode = some op) : op.opcode = opcode ∧ op.family = .numeric := by
  unfold numericOfOpcode? at h
  split at h
  iterate 4
    · cases h
      exact ⟨rfl, rfl⟩
  · obtain ⟨found, hfound, rfl⟩ := Option.map_eq_some_iff.mp h
    have hopcode := List.find?_some hfound
    exact ⟨eq_of_beq hopcode, rfl⟩

/-- Within a family, an opcode is that of the one operator of the family that has it. -/
theorem ofOpcodeIn?_eq_some_iff {family : Family} {opcode : UInt8} {op : Operator} :
    ofOpcodeIn? family opcode = some op ↔ op.opcode = opcode ∧ op.family = family := by
  constructor
  · intro h
    cases family with
    | control => exact opcode_of_controlOfOpcode? h
    | parametric | «variable» =>
      obtain ⟨found, hfound, rfl⟩ := Option.map_eq_some_iff.mp h
      have hopcode := List.find?_some hfound
      exact ⟨eq_of_beq hopcode, rfl⟩
    | memory => exact opcode_of_memoryOfOpcode? h
    | numeric => exact opcode_of_numericOfOpcode? h
  · intro h
    obtain ⟨rfl, rfl⟩ := h
    exact ofOpcodeIn?_opcode op

/-- The operator of an opcode in the family that the opcode lies in. -/
def ofOpcode? (opcode : UInt8) : Option Operator :=
  (Family.ofOpcode? opcode).bind fun family => ofOpcodeIn? family opcode

/-- The operator of an opcode is the one that has it. -/
theorem ofOpcode?_eq_some_iff {opcode : UInt8} {op : Operator} :
    ofOpcode? opcode = some op ↔ op.opcode = opcode := by
  constructor
  · intro h
    obtain ⟨family, -, hop⟩ := Option.bind_eq_some_iff.mp h
    exact (ofOpcodeIn?_eq_some_iff.mp hop).1
  · intro h
    subst h
    rw [ofOpcode?, family_of_opcode, Option.bind_some, ofOpcodeIn?_opcode]

end Operator

end FlatWasm
