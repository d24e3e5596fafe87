import FlatWasm.FloatCodec
import FlatWasm.Leb128
import FlatWasm.Operator
import FlatWasm.Word

/-!
# Instructions

An instruction is an operator with its immediate operands. Branches name the blocks they leave by
depth, counted outwards from the innermost. The binary form is the opcode followed by the
operands; the text form is the mnemonic followed by the operands.
-/

namespace FlatWasm

/-- Alignment, as a power of two, and offset of a load or store. -/
structure MemArg where
  align : UInt32
  offset : UInt32
deriving DecidableEq

/-- Instructions that neither open, divide, close nor leave a block by its depth. -/
inductive Plain where
  | unreachable
  | nop
  | ret
  | call (function : UInt32)
  | callIndirect (type : UInt32)
  | parametric (op : ParametricOp)
  | variable (op : VariableOp) (index : UInt32)
  | memory (op : MemoryOp) (arg : MemArg)
  | memorySize (op : MemorySizeOp)
  | const (value : Constant)
  | numeric (op : NumericOp)
deriving DecidableEq

inductive Instruction where
  | plain (instruction : Plain)
  | enter (kind : BlockKind) (type : BlockType)
  | otherwise
  | close
  | br (depth : UInt32)
  | brIf (depth : UInt32)
  | brTable (depths : List UInt32) (default : UInt32)
deriving DecidableEq

def Plain.operator : Plain → Operator
  | .unreachable => .unreachable
  | .nop => .nop
  | .ret => .ret
  | .call _ => .call
  | .callIndirect _ => .callIndirect
  | .parametric op => .parametric op
  | .variable op _ => .variable op
  | .memory op _ => .memory op
  | .memorySize op => .memorySize op
  | .const value => .const value.type
  | .numeric op => .numeric op

namespace Instruction

def operator : Instruction → Operator
  | .plain instruction => instruction.operator
  | .enter kind _ => .enter kind
  | .otherwise => .otherwise
  | .close => .close
  | .br _ => .br
  | .brIf _ => .brIf
  | .brTable _ _ => .brTable

end Instruction

/-! ## Binary form -/

def Constant.encode : Constant → List UInt8
  | .i32 value => Leb128.encodeSigned value.toInt
  | .i64 value => Leb128.encodeSigned value.toInt
  | .f32 bits => Word.encode32 bits
  | .f64 bits => Word.encode64 bits

def BlockType.encode (type : BlockType) : List UInt8 := Leb128.encodeSigned type.code

def encodeIndex (index : UInt32) : List UInt8 := Leb128.encodeUnsigned index.toNat

/-- The number of items, of which 32 bits are written, and then the items. -/
def encodeIndices (indices : List UInt32) : List UInt8 :=
  encodeIndex (UInt32.ofNat indices.length) ++ indices.flatMap encodeIndex

def Plain.operandBytes : Plain → List UInt8
  | .unreachable | .nop | .ret | .parametric _ | .numeric _ => []
  | .call function => encodeIndex function
  | .callIndirect type => encodeIndex type ++ [0]
  | .variable _ index => encodeIndex index
  | .memory _ arg => encodeIndex arg.align ++ encodeIndex arg.offset
  | .memorySize _ => [0]
  | .const value => value.encode

namespace Instruction

def operandBytes : Instruction → List UInt8
  | .plain instruction => instruction.operandBytes
  | .enter _ type => type.encode
  | .otherwise | .close => []
  | .br depth | .brIf depth => encodeIndex depth
  | .brTable depths default => encodeIndices depths ++ encodeIndex default

def encode (instruction : Instruction) : List UInt8 :=
  instruction.operator.opcode :: instruction.operandBytes

end Instruction

/-! ## Text form -/

def Constant.text (floats : FloatCodec) : Constant → String
  | .i32 value => toString value.toInt
  | .i64 value => toString value.toInt
  | .f32 bits => floats.text32 bits
  | .f64 bits => floats.text64 bits

/-- An operand behind the space that divides it from what precedes. -/
def operandText (operand : UInt32) : String := " " ++ toString operand.toNat

def Plain.operandText (floats : FloatCodec) : Plain → String
  | .unreachable | .nop | .ret | .parametric _ | .numeric _ | .memorySize _ => ""
  | .call function => FlatWasm.operandText function
  | .callIndirect type => FlatWasm.operandText type
  | .variable _ index => FlatWasm.operandText index
  | .memory _ arg => FlatWasm.operandText arg.align ++ FlatWasm.operandText arg.offset
  | .const value => " " ++ value.text floats

namespace Instruction

def operandText (floats : FloatCodec) : Instruction → String
  | .plain instruction => instruction.operandText floats
  | .enter _ type => type.text
  | .otherwise | .close => ""
  | .br depth | .brIf depth => FlatWasm.operandText depth
  | .brTable depths default =>
      String.join (depths.map FlatWasm.operandText) ++ FlatWasm.operandText default

def text (floats : FloatCodec) (instruction : Instruction) : String :=
  instruction.operator.mnemonic ++ instruction.operandText floats

end Instruction

end FlatWasm
