import FlatWasm.Value

/-!
# Numeric operators

Comparisons, arithmetic and conversions: the operators that take all their operands from the
stack. `code` counts the operators of one sort in the order of their opcodes.
-/

namespace FlatWasm

inductive IntType where
  | i32
  | i64
deriving DecidableEq

inductive FloatType where
  | f32
  | f64
deriving DecidableEq

inductive Signedness where
  | signed
  | unsigned
deriving DecidableEq

namespace IntType

def all : List IntType := [.i32, .i64]

def name : IntType → String
  | .i32 => "i32"
  | .i64 => "i64"

def code : IntType → Nat
  | .i32 => 0
  | .i64 => 1

end IntType

namespace FloatType

def all : List FloatType := [.f32, .f64]

def name : FloatType → String
  | .f32 => "f32"
  | .f64 => "f64"

def code : FloatType → Nat
  | .f32 => 0
  | .f64 => 1

end FloatType

namespace Signedness

def all : List Signedness := [.signed, .unsigned]

def suffix : Signedness → String
  | .signed => "_s"
  | .unsigned => "_u"

def code : Signedness → Nat
  | .signed => 0
  | .unsigned => 1

end Signedness

inductive IntRelation where
  | eq
  | ne
  | lt (sign : Signedness)
  | gt (sign : Signedness)
  | le (sign : Signedness)
  | ge (sign : Signedness)
deriving DecidableEq

namespace IntRelation

def all : List IntRelation :=
  [.eq, .ne, .lt .signed, .lt .unsigned, .gt .signed, .gt .unsigned, .le .signed, .le .unsigned,
    .ge .signed, .ge .unsigned]

def name : IntRelation → String
  | .eq => "eq"
  | .ne => "ne"
  | .lt sign => "lt" ++ sign.suffix
  | .gt sign => "gt" ++ sign.suffix
  | .le sign => "le" ++ sign.suffix
  | .ge sign => "ge" ++ sign.suffix

def code : IntRelation → Nat
  | .eq => 0
  | .ne => 1
  | .lt sign => 2 + sign.code
  | .gt sign => 4 + sign.code
  | .le sign => 6 + sign.code
  | .ge sign => 8 + sign.code

end IntRelation

inductive FloatRelation where
  | eq
  | ne
  | lt
  | gt
  | le
  | ge
deriving DecidableEq

namespace FloatRelation

def all : List FloatRelation := [.eq, .ne, .lt, .gt, .le, .ge]

def name : FloatRelation → String
  | .eq => "eq"
  | .ne => "ne"
  | .lt => "lt"
  | .gt => "gt"
  | .le => "le"
  | .ge => "ge"

def code : FloatRelation → Nat
  | .eq => 0
  | .ne => 1
  | .lt => 2
  | .gt => 3
  | .le => 4
  | .ge => 5

end FloatRelation

inductive IntUnary where
  | clz
  | ctz
  | popcnt
deriving DecidableEq

namespace IntUnary

def all : List IntUnary := [.clz, .ctz, .popcnt]

def name : IntUnary → String
  | .clz => "clz"
  | .ctz => "ctz"
  | .popcnt => "popcnt"

def code : IntUnary → Nat
  | .clz => 0
  | .ctz => 1
  | .popcnt => 2

end IntUnary

inductive IntBinary where
  | add
  | sub
  | mul
  | div (sign : Signedness)
  | rem (sign : Signedness)
  | and
  | or
  | xor
  | shl
  | shr (sign : Signedness)
  | rotl
  | rotr
deriving DecidableEq

namespace IntBinary

def all : List IntBinary :=
  [.add, .sub, .mul, .div .signed, .div .unsigned, .rem .signed, .rem .unsigned, .and, .or, .xor,
    .shl, .shr .signed, .shr .unsigned, .rotl, .rotr]

def name : IntBinary → String
  | .add => "add"
  | .sub => "sub"
  | .mul => "mul"
  | .div sign => "div" ++ sign.suffix
  | .rem sign => "rem" ++ sign.suffix
  | .and => "and"
  | .or => "or"
  | .xor => "xor"
  | .shl => "shl"
  | .shr sign => "shr" ++ sign.suffix
  | .rotl => "rotl"
  | .rotr => "rotr"

def code : IntBinary → Nat
  | .add => 0
  | .sub => 1
  | .mul => 2
  | .div sign => 3 + sign.code
  | .rem sign => 5 + sign.code
  | .and => 7
  | .or => 8
  | .xor => 9
  | .shl => 10
  | .shr sign => 11 + sign.code
  | .rotl => 13
  | .rotr => 14

end IntBinary

inductive FloatUnary where
  | abs
  | neg
  | ceil
  | floor
  | trunc
  | nearest
  | sqrt
deriving DecidableEq

namespace FloatUnary

def all : List FloatUnary := [.abs, .neg, .ceil, .floor, .trunc, .nearest, .sqrt]

def name : FloatUnary → String
  | .abs => "abs"
  | .neg => "neg"
  | .ceil => "ceil"
  | .floor => "floor"
  | .trunc => "trunc"
  | .nearest => "nearest"
  | .sqrt => "sqrt"

def code : FloatUnary → Nat
  | .abs => 0
  | .neg => 1
  | .ceil => 2
  | .floor => 3
  | .trunc => 4
  | .nearest => 5
  | .sqrt => 6

end FloatUnary

inductive FloatBinary where
  | add
  | sub
  | mul
  | div
  | min
  | max
  | copysign
deriving DecidableEq

namespace FloatBinary

def all : List FloatBinary := [.add, .sub, .mul, .div, .min, .max, .copysign]

def name : FloatBinary → String
  | .add => "add"
  | .sub => "sub"
  | .mul => "mul"
  | .div => "div"
  | .min => "min"
  | .max => "max"
  | .copysign => "copysign"

def code : FloatBinary → Nat
  | .add => 0
  | .sub => 1
  | .mul => 2
  | .div => 3
  | .min => 4
  | .max => 5
  | .copysign => 6

end FloatBinary

/-- Conversions between value types; the type converted to comes first. -/
inductive Conversion where
  | wrap
  | truncate (target : IntType) (source : FloatType) (sign : Signedness)
  | extend (sign : Signedness)
  | convert (target : FloatType) (source : IntType) (sign : Signedness)
  | demote
  | promote
  | reinterpretFloat (target : IntType)
  | reinterpretInt (target : FloatType)
deriving DecidableEq

namespace Conversion

def truncations (target : IntType) : List Conversion :=
  FloatType.all.flatMap fun source => Signedness.all.map (truncate target source)

def conversions (target : FloatType) : List Conversion :=
  IntType.all.flatMap fun source => Signedness.all.map (convert target source)

def all : List Conversion :=
  List.flatten [
    [.wrap],
    truncations .i32,
    Signedness.all.map extend,
    truncations .i64,
    conversions .f32,
    [.demote],
    conversions .f64,
    [.promote],
    IntType.all.map reinterpretFloat,
    FloatType.all.map reinterpretInt]

def name : Conversion → String
  | .wrap => "i32.wrap/i64"
  | .truncate target source sign => target.name ++ ".trunc" ++ sign.suffix ++ "/" ++ source.name
  | .extend sign => "i64.extend" ++ sign.suffix ++ "/i32"
  | .convert target source sign => target.name ++ ".convert" ++ sign.suffix ++ "/" ++ source.name
  | .demote => "f32.demote/f64"
  | .promote => "f64.promote/f32"
  | .reinterpretFloat .i32 => "i32.reinterpret/f32"
  | .reinterpretFloat .i64 => "i64.reinterpret/f64"
  | .reinterpretInt .f32 => "f32.reinterpret/i32"
  | .reinterpretInt .f64 => "f64.reinterpret/i64"

def code : Conversion → Nat
  | .wrap => 0
  | .truncate target source sign => 1 + 6 * target.code + 2 * source.code + sign.code
  | .extend sign => 5 + sign.code
  | .convert target source sign => 11 + 5 * target.code + 2 * source.code + sign.code
  | .demote => 15
  | .promote => 20
  | .reinterpretFloat target => 21 + target.code
  | .reinterpretInt target => 23 + target.code

end Conversion

inductive NumericOp where
  | eqz (type : IntType)
  | compareInt (type : IntType) (relation : IntRelation)
  | compareFloat (type : FloatType) (relation : FloatRelation)
  | unaryInt (type : IntType) (op : IntUnary)
  | binaryInt (type : IntType) (op : IntBinary)
  | unaryFloat (type : FloatType) (op : FloatUnary)
  | binaryFloat (type : FloatType) (op : FloatBinary)
  | convert (conversion : Conversion)
deriving DecidableEq

namespace NumericOp

def all : List NumericOp :=
  List.flatten [
    IntType.all.flatMap fun type => eqz type :: IntRelation.all.map (compareInt type),
    FloatType.all.flatMap fun type => FloatRelation.all.map (compareFloat type),
    IntType.all.flatMap fun type =>
      IntUnary.all.map (unaryInt type) ++ IntBinary.all.map (binaryInt type),
    FloatType.all.flatMap fun type =>
      FloatUnary.all.map (unaryFloat type) ++ FloatBinary.all.map (binaryFloat type),
    Conversion.all.map convert]

def mnemonic : NumericOp → String
  | .eqz type => type.name ++ ".eqz"
  | .compareInt type relation => type.name ++ "." ++ relation.name
  | .compareFloat type relation => type.name ++ "." ++ relation.name
  | .unaryInt type op => type.name ++ "." ++ op.name
  | .binaryInt type op => type.name ++ "." ++ op.name
  | .unaryFloat type op => type.name ++ "." ++ op.name
  | .binaryFloat type op => type.name ++ "." ++ op.name
  | .convert conversion => conversion.name

def opcode : NumericOp → UInt8
  | .eqz type => UInt8.ofNat (0x45 + 11 * type.code)
  | .compareInt type relation => UInt8.ofNat (0x46 + 11 * type.code + relation.code)
  | .compareFloat type relation => UInt8.ofNat (0x5B + 6 * type.code + relation.code)
  | .unaryInt type op => UInt8.ofNat (0x67 + 18 * type.code + op.code)
  | .binaryInt type op => UInt8.ofNat (0x6A + 18 * type.code + op.code)
  | .unaryFloat type op => UInt8.ofNat (0x8B + 14 * type.code + op.code)
  | .binaryFloat type op => UInt8.ofNat (0x92 + 14 * type.code + op.code)
  | .convert conversion => UInt8.ofNat (0xA7 + conversion.code)

def ofOpcode? (opcode : UInt8) : Option NumericOp := all.find? fun op => op.opcode == opcode

end NumericOp

end FlatWasm
