import FlatWasm.Control
import FlatWasm.Instruction.Read

/-!
# Labelled instructions

A labelled instruction also knows the blocks it has to do with: the one it opens, divides or closes,
or those its depths name. The control state supplies the labels, instruction by instruction, and
follows along. Labels add nothing to the binary form, and only a comment to the text.
-/

namespace FlatWasm

/-- An end without a label closes the body itself. -/
inductive Labelled where
  | plain (instruction : Plain)
  | enter (kind : BlockKind) (type : BlockType) (label : Label)
  | otherwise (label : Label)
  | close (label : Option Label)
  | br (target : Target)
  | brIf (target : Target)
  | brTable (targets : List Target) (default : Target)
deriving DecidableEq

namespace Labelled

/-- The instruction without its labels. -/
def instruction : Labelled → Instruction
  | .plain instruction => .plain instruction
  | .enter kind type _ => .enter kind type
  | .otherwise _ => .otherwise
  | .close _ => .close
  | .br target => .br target.depth
  | .brIf target => .brIf target.depth
  | .brTable targets default => .brTable (targets.map Target.depth) default.depth

/-- The labels of the blocks concerned, in the order of the operands. -/
def labels : Labelled → List Label
  | .plain _ => []
  | .enter _ _ label => [label]
  | .otherwise label => [label]
  | .close label => label.toList
  | .br target => [target.label]
  | .brIf target => [target.label]
  | .brTable targets default => targets.map Target.label ++ [default.label]

/-- Kind and label of the block that the instruction opens. -/
def opens : Labelled → Option (BlockKind × Label)
  | .enter kind _ label => some (kind, label)
  | _ => none

def operator (labelled : Labelled) : Operator := labelled.instruction.operator

def encode (labelled : Labelled) : List UInt8 := labelled.instruction.encode

/-- The labels as a comment. -/
def comment (labelled : Labelled) : String :=
  match labelled.labels with
  | [] => ""
  | labels => " ;;" ++ String.join (labels.map fun label => " " ++ Label.text label)

def text (floats : FloatCodec) (labelled : Labelled) : String :=
  labelled.instruction.text floats ++ labelled.comment

end Labelled

namespace Control

/-- Labels the instruction at an index of the body, and follows it. -/
def label (instruction : Instruction) (index : Nat) (control : Control) :
    Except DecodeError Labelled × Control :=
  match instruction with
  | .plain instruction => (.ok (.plain instruction), control)
  | .enter kind type =>
    match control.enter kind type index with
    | (result, control) => (result.map (.enter kind type), control)
  | .otherwise =>
    match control.otherwise index with
    | (result, control) => (result.map .otherwise, control)
  | .close =>
    match control.close index with
    | (label, control) => (.ok (.close label), control)
  | .br depth => ((control.resolve depth).map .br, control)
  | .brIf depth => ((control.resolve depth).map .brIf, control)
  | .brTable depths default =>
    match depths.mapM control.resolve with
    | .error error => (.error error, control)
    | .ok targets => ((control.resolve default).map (.brTable targets), control)

end Control

/-- Where reading stands: in the input, and among the blocks. -/
structure Decoder where
  cursor : Cursor
  control : Control
deriving DecidableEq

namespace Decoder

/-- Reads the operands of an operator and labels the instruction. -/
def operands (op : Operator) (index : Nat) (decoder : Decoder) :
    Except DecodeError Labelled × Decoder :=
  match decoder with
  | ⟨cursor, control⟩ =>
    match op.readOperands cursor with
    | (.error cause, cursor) => (.error (.malformed cause), ⟨cursor, control⟩)
    | (.ok instruction, cursor) =>
      match control.label instruction index with
      | (result, control) => (result, ⟨cursor, control⟩)

/-- Decodes an instruction of one family; the opcodes of other families are illegal. -/
def instructionOf (family : Family) (opcode : UInt8) (index : Nat) (decoder : Decoder) :
    Except DecodeError Labelled × Decoder :=
  match Operator.ofOpcodeIn? family opcode with
  | some op => decoder.operands op index
  | none => (.error (.illegalOpcode opcode), decoder)

/-- Decodes the instruction with the given opcode, which the cursor has passed. -/
def instruction (opcode : UInt8) (index : Nat) (decoder : Decoder) :
    Except DecodeError Labelled × Decoder :=
  match Family.ofOpcode? opcode with
  | some family => decoder.instructionOf family opcode index
  | none => (.error (.illegalOpcode opcode), decoder)

end Decoder

end FlatWasm
