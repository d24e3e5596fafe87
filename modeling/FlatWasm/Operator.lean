import FlatWasm.Block
import FlatWasm.Operator.Memory

/-!
# Operators

An operator is what an instruction does, without its immediate operands. Each has an opcode byte
and a mnemonic, and belongs to one of five families that own ranges of opcodes. The ranges leave
gaps: an opcode may lie in a family and yet belong to no operator.
-/

namespace FlatWasm

inductive Family where
  | control
  | parametric
  | variable
  | memory
  | numeric
deriving DecidableEq

namespace Family

def name : Family → String
  | .control => "control"
  | .parametric => "parametric"
  | .variable => "variable"
  | .memory => "memory"
  | .numeric => "numeric"

/-- The family in whose range an opcode lies. -/
def ofOpcode? (opcode : UInt8) : Option Family :=
  if opcode ≤ 0x11 then some .control
  else if 0x1A ≤ opcode ∧ opcode ≤ 0x1B then some .parametric
  else if 0x20 ≤ opcode ∧ opcode ≤ 0x24 then some .variable
  else if 0x28 ≤ opcode ∧ opcode ≤ 0x40 then some .memory
  else if 0x41 ≤ opcode ∧ opcode ≤ 0xBF then some .numeric
  else none

end Family

inductive ParametricOp where
  | drop
  | select
deriving DecidableEq

namespace ParametricOp

def all : List ParametricOp := [.drop, .select]

def mnemonic : ParametricOp → String
  | .drop => "drop"
  | .select => "select"

def opcode : ParametricOp → UInt8
  | .drop => 0x1A
  | .select => 0x1B

def ofOpcode? (opcode : UInt8) : Option ParametricOp := all.find? fun op => op.opcode == opcode

end ParametricOp

inductive VariableOp where
  | getLocal
  | setLocal
  | teeLocal
  | getGlobal
  | setGlobal
deriving DecidableEq

namespace VariableOp

def all : List VariableOp := [.getLocal, .setLocal, .teeLocal, .getGlobal, .setGlobal]

def mnemonic : VariableOp → String
  | .getLocal => "get_local"
  | .setLocal => "set_local"
  | .teeLocal => "tee_local"
  | .getGlobal => "get_global"
  | .setGlobal => "set_global"

def opcode : VariableOp → UInt8
  | .getLocal => 0x20
  | .setLocal => 0x21
  | .teeLocal => 0x22
  | .getGlobal => 0x23
  | .setGlobal => 0x24

def ofOpcode? (opcode : UInt8) : Option VariableOp := all.find? fun op => op.opcode == opcode

end VariableOp

/-- Enquiring after the size of the memory, and growing it. -/
inductive MemorySizeOp where
  | current
  | grow
deriving DecidableEq

inductive Operator where
  | unreachable
  | nop
  | enter (kind : BlockKind)
  | otherwise
  | close
  | br
  | brIf
  | brTable
  | ret
  | call
  | callIndirect
  | parametric (op : ParametricOp)
  | variable (op : VariableOp)
  | memory (op : MemoryOp)
  | memorySize (op : MemorySizeOp)
  | const (type : ValueType)
  | numeric (op : NumericOp)
deriving DecidableEq

namespace Operator

def mnemonic : Operator → String
  | .unreachable => "unreachable"
  | .nop => "nop"
  | .enter kind => kind.name
  | .otherwise => "else"
  | .close => "end"
  | .br => "br"
  | .brIf => "br_if"
  | .brTable => "br_table"
  | .ret => "return"
  | .call => "call"
  | .callIndirect => "call_indirect"
  | .parametric op => op.mnemonic
  | .variable op => op.mnemonic
  | .memory op => op.mnemonic
  | .memorySize .current => "current_memory"
  | .memorySize .grow => "grow_memory"
  | .const type => type.name ++ ".const"
  | .numeric op => op.mnemonic

def opcode : Operator → UInt8
  | .unreachable => 0x00
  | .nop => 0x01
  | .enter .block => 0x02
  | .enter .loop => 0x03
  | .enter .cond => 0x04
  | .otherwise => 0x05
  | .close => 0x0B
  | .br => 0x0C
  | .brIf => 0x0D
  | .brTable => 0x0E
  | .ret => 0x0F
  | .call => 0x10
  | .callIndirect => 0x11
  | .parametric op => op.opcode
  | .variable op => op.opcode
  | .memory op => op.opcode
  | .memorySize .current => 0x3F
  | .memorySize .grow => 0x40
  | .const type => UInt8.ofNat (0x41 + type.code)
  | .numeric op => op.opcode

def family : Operator → Family
  | .unreachable | .nop | .enter _ | .otherwise | .close | .br | .brIf | .brTable | .ret | .call
  | .callIndirect => .control
  | .parametric _ => .parametric
  | .variable _ => .variable
  | .memory _ | .memorySize _ => .memory
  | .const _ | .numeric _ => .numeric

def controlOfOpcode? : UInt8 → Option Operator
  | 0x00 => some .unreachable
  | 0x01 => some .nop
  | 0x02 => some (.enter .block)
  | 0x03 => some (.enter .loop)
  | 0x04 => some (.enter .cond)
  | 0x05 => some .otherwise
  | 0x0B => some .close
  | 0x0C => some .br
  | 0x0D => some .brIf
  | 0x0E => some .brTable
  | 0x0F => some .ret
  | 0x10 => some .call
  | 0x11 => some .callIndirect
  | _ => none

def memoryOfOpcode? : UInt8 → Option Operator
  | 0x3F => some (.memorySize .current)
  | 0x40 => some (.memorySize .grow)
  | opcode => (MemoryOp.ofOpcode? opcode).map memory

def numericOfOpcode? : UInt8 → Option Operator
  | 0x41 => some (.const .i32)
  | 0x42 => some (.const .i64)
  | 0x43 => some (.const .f32)
  | 0x44 => some (.const .f64)
  | opcode => (NumericOp.ofOpcode? opcode).map numeric

/-- The operator of an opcode within one family. -/
def ofOpcodeIn? : Family → UInt8 → Option Operator
  | .control, opcode => controlOfOpcode? opcode
  | .parametric, opcode => (ParametricOp.ofOpcode? opcode).map parametric
  | .variable, opcode => (VariableOp.ofOpcode? opcode).map «variable»
  | .memory, opcode => memoryOfOpcode? opcode
  | .numeric, opcode => numericOfOpcode? opcode

end Operator

end FlatWasm
