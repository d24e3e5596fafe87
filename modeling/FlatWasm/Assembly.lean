import FlatWasm.Instruction
import FlatWasm.Text.Numeral
import FlatWasm.Text.Words

/-!
# Assembly text

One instruction a line: the mnemonic and its operands, divided by blanks. Two semicolons start a
comment, and lines without a word are skipped. The last operand of a branch table is its default.
Line numbers count from one.

The assembler goes from words to bytes and never makes an instruction. It has its own table of
opcodes, and from then on the opcode alone says how many operands there are and how they are
written.
-/

namespace FlatWasm

/-- What can be wrong with one line. -/
inductive LineError where
  | unknownMnemonic (word : String)
  | operandCount (mnemonic : String) (least most count : Nat)
  | notIndex (word : String)
  | notConstant (type : ValueType) (word : String)
  | invalidBlockType (word : String)
deriving DecidableEq

structure AssemblyError where
  line : Nat
  cause : LineError
deriving DecidableEq

namespace LineError

def countText (least most : Nat) : String :=
  if least = most then toString least else toString least ++ " to " ++ toString most

def message : LineError → String
  | .unknownMnemonic word => "unknown mnemonic '" ++ word ++ "'"
  | .operandCount mnemonic least most count =>
      mnemonic ++ " takes " ++ countText least most ++ " operand(s), got " ++ toString count
  | .notIndex word => "'" ++ word ++ "' is not an unsigned 32-bit integer"
  | .notConstant type word => "'" ++ word ++ "' is not an " ++ type.name
  | .invalidBlockType word => "invalid block type '" ++ word ++ "'"

end LineError

def AssemblyError.message (error : AssemblyError) : String :=
  "line " ++ toString error.line ++ ": " ++ error.cause.message

namespace Assembly

/-! ## Opcodes -/

def controlMnemonics : List (String × UInt8) :=
  [("unreachable", 0x00), ("nop", 0x01), ("block", 0x02), ("loop", 0x03), ("if", 0x04),
    ("else", 0x05), ("end", 0x0B), ("br", 0x0C), ("br_if", 0x0D), ("br_table", 0x0E),
    ("return", 0x0F), ("call", 0x10), ("call_indirect", 0x11)]

def otherMnemonics : List (String × UInt8) :=
  [("current_memory", 0x3F), ("grow_memory", 0x40), ("i32.const", 0x41), ("i64.const", 0x42),
    ("f32.const", 0x43), ("f64.const", 0x44)]

def mnemonics : List (String × UInt8) :=
  List.flatten [
    controlMnemonics,
    otherMnemonics,
    ParametricOp.all.map fun op => (op.mnemonic, op.opcode),
    VariableOp.all.map fun op => (op.mnemonic, op.opcode),
    MemoryOp.all.map fun op => (op.mnemonic, op.opcode),
    NumericOp.all.map fun op => (op.mnemonic, op.opcode)]

def opcode? (mnemonic : String) : Option UInt8 := mnemonics.lookup mnemonic

/-! ## Operands -/

def index (word : List Char) : Except LineError UInt32 :=
  match (Numeral.literal? word).filter (· < UInt32.size) with
  | some n => .ok (UInt32.ofNat n)
  | none => .error (.notIndex (String.ofList word))

def constant? (floats : FloatCodec) : ValueType → List Char → Option Constant
  | .i32, word => (Numeral.signedLiteral? 32 word).map fun n => .i32 (Int32.ofInt n)
  | .i64, word => (Numeral.signedLiteral? 64 word).map fun n => .i64 (Int64.ofInt n)
  | .f32, word => (floats.ofText32? word).map .f32
  | .f64, word => (floats.ofText64? word).map .f64

def constant (floats : FloatCodec) (type : ValueType) (word : List Char) :
    Except LineError Constant :=
  match constant? floats type word with
  | some value => .ok value
  | none => .error (.notConstant type (String.ofList word))

def constantBytes : Constant → List UInt8
  | .i32 value => Leb128.encodeSigned value.toInt
  | .i64 value => Leb128.encodeSigned value.toInt
  | .f32 bits => Word.encode32 bits
  | .f64 bits => Word.encode64 bits

/-- The number in `type[…]`. -/
def typeIndex? : List Char → Option (List Char)
  | 't' :: 'y' :: 'p' :: 'e' :: '[' :: rest =>
    if rest.getLast? = some ']' then some rest.dropLast else none
  | _ => none

def valueTypeCodes : List (String × Int) :=
  [("i32", -0x01), ("i64", -0x02), ("f32", -0x03), ("f64", -0x04)]

/-- The number that stands for a block type. -/
def blockTypeCode (word : List Char) : Except LineError Int :=
  match valueTypeCodes.lookup (String.ofList word) with
  | some code => .ok code
  | none =>
    match (typeIndex? word).bind (Numeral.unsigned? 10 32) with
    | some n => .ok n
    | none => .error (.invalidBlockType (String.ofList word))

/-- How the operands of a line are counted and written. -/
inductive OperandForm where
  | nothing
  | blockType
  | index
  | indexReserved
  | table
  | reserved
  | constant (type : ValueType)
  | twoIndices
deriving DecidableEq

namespace OperandForm

/-- Some opcodes have a form of their own; the family decides for the others. -/
def ofOpcode : UInt8 → OperandForm
  | 0x02 | 0x03 | 0x04 => .blockType
  | 0x0C | 0x0D | 0x10 => .index
  | 0x11 => .indexReserved
  | 0x0E => .table
  | 0x3F | 0x40 => .reserved
  | 0x41 => .constant .i32
  | 0x42 => .constant .i64
  | 0x43 => .constant .f32
  | 0x44 => .constant .f64
  | opcode =>
    match Family.ofOpcode? opcode with
    | some .variable => .index
    | some .memory => .twoIndices
    | _ => .nothing

def least : OperandForm → Nat
  | .nothing | .blockType | .reserved => 0
  | .index | .indexReserved | .table | .constant _ => 1
  | .twoIndices => 2

/-- A branch table has no limit but that of a machine word. -/
def most : OperandForm → Nat
  | .nothing | .reserved => 0
  | .blockType | .index | .indexReserved | .constant _ => 1
  | .table => 0xFFFFFFFFFFFFFFFF
  | .twoIndices => 2

/-- The bytes of the operands. A wrong number of operands is reported before any operand is looked
at. -/
def bytes (floats : FloatCodec) (mnemonic : String) :
    OperandForm → List (List Char) → Except LineError (List UInt8)
  | .nothing, [] => .ok []
  | .blockType, [] => .ok (Leb128.encodeSigned (-0x40))
  | .blockType, [word] => (blockTypeCode word).map Leb128.encodeSigned
  | .index, [word] => (Assembly.index word).map encodeIndex
  | .indexReserved, [word] => (Assembly.index word).map fun n => encodeIndex n ++ [0x00]
  | .table, first :: rest => do
    let first ← Assembly.index first
    let rest ← rest.mapM Assembly.index
    let depths := first :: rest
    return encodeIndices depths.dropLast ++ encodeIndex (depths.getLast (by simp [depths]))
  | .reserved, [] => .ok [0x00]
  | .constant type, [word] => (Assembly.constant floats type word).map constantBytes
  | .twoIndices, [first, second] => do
    let first ← Assembly.index first
    let second ← Assembly.index second
    return encodeIndex first ++ encodeIndex second
  | form, words => .error (.operandCount mnemonic form.least form.most words.length)

end OperandForm

/-! ## Lines -/

/-- The bytes of a line, none if the line has no word. -/
def line (floats : FloatCodec) (text : List Char) : Except LineError (List UInt8) :=
  match Text.words (Text.uncommented text) with
  | [] => .ok []
  | word :: operands =>
    let mnemonic := String.ofList word
    match opcode? mnemonic with
    | some opcode =>
      ((OperandForm.ofOpcode opcode).bytes floats mnemonic operands).map (opcode :: ·)
    | none => .error (.unknownMnemonic mnemonic)

def numberedLine (floats : FloatCodec) (numbered : List Char × Nat) :
    Except AssemblyError (List UInt8) :=
  (line floats numbered.1).mapError (⟨numbered.2, ·⟩)

/-- Assembles lines, of which the first has the number one. -/
def assembleLines (floats : FloatCodec) (lines : List (List Char)) :
    Except AssemblyError (List UInt8) :=
  ((lines.zipIdx 1).mapM (numberedLine floats)).map List.flatten

def assemble (floats : FloatCodec) (text : List Char) : Except AssemblyError (List UInt8) :=
  assembleLines floats (Text.lines text)

end Assembly

end FlatWasm
