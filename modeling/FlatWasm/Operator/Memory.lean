import FlatWasm.Operator.Numeric

/-!
# Loads and stores

An access moves a whole value, or an integer of which memory holds fewer bits than its type has.
`code` counts the accesses in the order of their opcodes.
-/

namespace FlatWasm

/-- An integer type together with a smaller number of bits that memory holds. -/
inductive Packing where
  | i32In8
  | i32In16
  | i64In8
  | i64In16
  | i64In32
deriving DecidableEq

namespace Packing

def all : List Packing := [.i32In8, .i32In16, .i64In8, .i64In16, .i64In32]

def type : Packing → IntType
  | .i32In8 | .i32In16 => .i32
  | .i64In8 | .i64In16 | .i64In32 => .i64

def bits : Packing → String
  | .i32In8 | .i64In8 => "8"
  | .i32In16 | .i64In16 => "16"
  | .i64In32 => "32"

def code : Packing → Nat
  | .i32In8 => 0
  | .i32In16 => 1
  | .i64In8 => 2
  | .i64In16 => 3
  | .i64In32 => 4

end Packing

inductive MemoryOp where
  | load (type : ValueType)
  | loadPacked (packing : Packing) (sign : Signedness)
  | store (type : ValueType)
  | storePacked (packing : Packing)
deriving DecidableEq

namespace MemoryOp

def all : List MemoryOp :=
  List.flatten [
    ValueType.all.map load,
    Packing.all.flatMap fun packing => Signedness.all.map (loadPacked packing),
    ValueType.all.map store,
    Packing.all.map storePacked]

def mnemonic : MemoryOp → String
  | .load type => type.name ++ ".load"
  | .loadPacked packing sign =>
      packing.type.name ++ ".load" ++ packing.bits ++ sign.suffix
  | .store type => type.name ++ ".store"
  | .storePacked packing => packing.type.name ++ ".store" ++ packing.bits

def code : MemoryOp → Nat
  | .load type => type.code
  | .loadPacked packing sign => 4 + 2 * packing.code + sign.code
  | .store type => 14 + type.code
  | .storePacked packing => 18 + packing.code

def opcode (op : MemoryOp) : UInt8 := UInt8.ofNat (0x28 + op.code)

def ofOpcode? (opcode : UInt8) : Option MemoryOp := all.find? fun op => op.opcode == opcode

end MemoryOp

end FlatWasm
