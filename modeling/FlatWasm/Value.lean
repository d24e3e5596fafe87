/-!
# Values

The four value types and the constants of each. A float constant is its bit pattern, so every
NaN keeps its sign and its payload.
-/

namespace FlatWasm

inductive ValueType where
  | i32
  | i64
  | f32
  | f64
deriving DecidableEq

namespace ValueType

def all : List ValueType := [.i32, .i64, .f32, .f64]

def name : ValueType → String
  | .i32 => "i32"
  | .i64 => "i64"
  | .f32 => "f32"
  | .f64 => "f64"

/-- Counts the types in the order that the binary format gives them. -/
def code : ValueType → Nat
  | .i32 => 0
  | .i64 => 1
  | .f32 => 2
  | .f64 => 3

end ValueType

inductive Constant where
  | i32 (value : Int32)
  | i64 (value : Int64)
  | f32 (bits : UInt32)
  | f64 (bits : UInt64)
deriving DecidableEq

def Constant.type : Constant → ValueType
  | .i32 _ => .i32
  | .i64 _ => .i64
  | .f32 _ => .f32
  | .f64 _ => .f64

end FlatWasm
