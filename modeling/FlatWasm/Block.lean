import FlatWasm.Value

/-!
# Structured blocks

The three kinds of structured block, the types they may carry, and the labels that name them
within one function body.
-/

namespace FlatWasm

inductive BlockKind where
  | block
  | loop
  | cond
deriving DecidableEq

namespace BlockKind

def all : List BlockKind := [.block, .loop, .cond]

def name : BlockKind → String
  | .block => "block"
  | .loop => "loop"
  | .cond => "if"

end BlockKind

/-- A block leaves nothing, leaves one value, or has the function type with an index. -/
inductive BlockType where
  | empty
  | value (type : ValueType)
  | index (type : UInt32)
deriving DecidableEq

namespace BlockType

/-- The signed number that stands for a block type in the binary format: a type index stands for
itself, and the negative numbers are the types that need no index. -/
def code : BlockType → Int
  | .empty => -0x40
  | .value type => -(1 + type.code)
  | .index type => type.toNat

def ofCode? (code : Int) : Option BlockType :=
  if code = -0x40 then some .empty
  else if code = -0x01 then some (.value .i32)
  else if code = -0x02 then some (.value .i64)
  else if code = -0x03 then some (.value .f32)
  else if code = -0x04 then some (.value .f64)
  else if 0 ≤ code then some (.index (UInt32.ofNat code.toNat))
  else none

/-- The operand as it follows the mnemonic, with the space that divides them. -/
def text : BlockType → String
  | .empty => ""
  | .value type => " " ++ type.name
  | .index type => " type[" ++ toString type.toNat ++ "]"

end BlockType

/-- Blocks are numbered within a body in the order of opening. -/
abbrev Label := Nat

def Label.text (label : Label) : String := "L" ++ toString label

end FlatWasm
