import FlatWasm.Instruction

/-!
# Reading instructions

The operands of an operator, in the order of the binary format. Reading looks only at the bytes:
whether a depth names an open block is decided afterwards.
-/

namespace FlatWasm

/-- The largest number of depths in a branch table, its default not counted. -/
def maxBranchTargets : Nat := 65536

namespace Read

def index : Read UInt32 := Leb128.readUInt32

/-- A length and so many indices. As an index takes at least one byte, a length beyond the rest of
the input is refused before any of them is read. -/
def indices : Read (List UInt32) := do
  let length ← Leb128.readUnsigned 32
  if maxBranchTargets < length then fail (.vectorTooLong length)
  else if ← hasAtLeast length then times index length
  else fail (.vectorPastEnd length)

def orFail {α : Type} (cause : Malformed) : Option α → Read α
  | some value => pure value
  | none => fail cause

def blockType : Read BlockType := do
  let code ← Leb128.readSigned 33
  orFail (.invalidBlockType code) (BlockType.ofCode? code)

def memArg : Read MemArg := do
  let align ← index
  let offset ← index
  pure ⟨align, offset⟩

def reserved (use : ReservedUse) : Read Unit := do
  let value ← byte
  if value = 0 then pure () else fail (.reservedByte use value)

def constant : ValueType → Read Constant
  | .i32 => do return .i32 (← Leb128.readInt32)
  | .i64 => do return .i64 (← Leb128.readInt64)
  | .f32 => do return .f32 (← Word.read32)
  | .f64 => do return .f64 (← Word.read64)

end Read

def MemorySizeOp.reservedUse : MemorySizeOp → ReservedUse
  | .current => .currentMemory
  | .grow => .growMemory

/-- Reads the operands that belong to an operator. -/
def Operator.readOperands : Operator → Read Instruction
  | .unreachable => pure (.plain .unreachable)
  | .nop => pure (.plain .nop)
  | .ret => pure (.plain .ret)
  | .enter kind => do return .enter kind (← Read.blockType)
  | .otherwise => pure .otherwise
  | .close => pure .close
  | .br => do return .br (← Read.index)
  | .brIf => do return .brIf (← Read.index)
  | .brTable => do
    let depths ← Read.indices
    let default ← Read.index
    pure (.brTable depths default)
  | .call => do return .plain (.call (← Read.index))
  | .callIndirect => do
    let type ← Read.index
    Read.reserved .callIndirect
    pure (.plain (.callIndirect type))
  | .parametric op => pure (.plain (.parametric op))
  | .variable op => do return .plain (.variable op (← Read.index))
  | .memory op => do return .plain (.memory op (← Read.memArg))
  | .memorySize op => do
    Read.reserved op.reservedUse
    pure (.plain (.memorySize op))
  | .const type => do return .plain (.const (← Read.constant type))
  | .numeric op => pure (.plain (.numeric op))

end FlatWasm
