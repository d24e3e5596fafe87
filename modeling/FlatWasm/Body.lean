import FlatWasm.Instruction.Labelled

/-!
# Function bodies

A body is read instruction by instruction until the end that closes no block. In a whole function
nothing may follow that end. A segment may also end at an else that divides no block, and then
leaves the cursor behind it, at the next segment.
-/

namespace FlatWasm

/-- The largest offset in a body at which an instruction may begin. -/
def maxBodySize : Nat := 7654321

inductive BodyMode where
  | function
  | segment
deriving DecidableEq

/-- An instruction with its place in the input. -/
structure Placed where
  labelled : Labelled
  offset : Nat
  length : Nat
deriving DecidableEq

structure Body where
  instructions : Array Placed
  blocks : Array Block
  params : UInt32
  elseTerminated : Bool
deriving DecidableEq

/-- How far the reading of a body has come. -/
structure Scan where
  cursor : Cursor
  control : Control
  instructions : Array Placed
deriving DecidableEq

namespace Scan

def start (cursor : Cursor) : Scan := ⟨cursor, .empty, #[]⟩

def tooLarge (begin : Nat) (scan : Scan) : Bool := maxBodySize < scan.cursor.offset - begin

/-- Reads instructions to the end of a body that begins at offset `begin`, and tells whether the end
was an else. Every instruction takes at least one byte, so as many rounds as there are bytes
suffice: when none is left, the input is used up. -/
def run (mode : BodyMode) (begin : Nat) (rounds : Nat) (scan : Scan) :
    Except DecodeError Bool × Scan :=
  if scan.tooLarge begin then (.error (.malformed (.bodyTooLarge maxBodySize)), scan)
  else
    match rounds, scan with
    | rounds + 1, ⟨⟨offset, opcode :: rest⟩, control, instructions⟩ =>
      if mode = .segment ∧ opcode = Operator.otherwise.opcode ∧ control.isEmpty then
        (.ok true, ⟨⟨offset + 1, rest⟩, control, instructions⟩)
      else
        match Decoder.instruction opcode instructions.size ⟨⟨offset + 1, rest⟩, control⟩ with
        | (.error error, ⟨cursor, control⟩) => (.error error, ⟨cursor, control, instructions⟩)
        | (.ok labelled, ⟨cursor, control⟩) =>
          let scan : Scan :=
            ⟨cursor, control, instructions.push ⟨labelled, offset, cursor.offset - offset⟩⟩
          if labelled = .close none then (.ok false, scan) else run mode begin rounds scan
    | _, scan => (.error (.malformed (.blocksLeftOpen scan.control.openCount)), scan)

end Scan

namespace Body

/-- Reads to the end of the body at the cursor. -/
def scan (mode : BodyMode) (cursor : Cursor) : Except DecodeError Bool × Scan :=
  Scan.run mode cursor.offset cursor.remaining (.start cursor)

/-- The body that a finished scan has read. -/
def ofScan (mode : BodyMode) (params : UInt32) (elseTerminated : Bool) (scan : Scan) :
    Except DecodeError Body :=
  if mode = .function ∧ !scan.cursor.rest.isEmpty then
    .error (.malformed (.trailingBytes scan.cursor.remaining))
  else .ok ⟨scan.instructions, scan.control.blocks, params, elseTerminated⟩

/-- Reads one body at the cursor. -/
def read (mode : BodyMode) (params : UInt32) (cursor : Cursor) :
    Except DecodeError Body × Cursor :=
  match scan mode cursor with
  | (.error error, scan) => (.error error, scan.cursor)
  | (.ok elseTerminated, scan) => (ofScan mode params elseTerminated scan, scan.cursor)

/-- The function body that the bytes are, from the first to the last. -/
def decode (bytes : List UInt8) (params : UInt32) : Except DecodeError Body :=
  (read .function params (.ofBytes bytes)).1

def encode (body : Body) : List UInt8 :=
  body.instructions.toList.flatMap fun placed => placed.labelled.encode

/-- Blanks in front of a number, up to a width of six. -/
def offsetColumn (offset : Nat) : String :=
  let digits := toString offset
  String.ofList (List.replicate (6 - digits.length) ' ') ++ digits

/-- The nesting at which an instruction is shown, when `nesting` blocks are open before it, and the
nesting behind it. Both ends of a block and its else stand at one level. -/
def indentation (nesting : Nat) : Labelled → Nat × Nat
  | .close (some _) => (nesting - 1, nesting - 1)
  | .otherwise _ => (nesting - 1, nesting)
  | .enter _ _ _ => (nesting, nesting + 1)
  | _ => (nesting, nesting)

def line (floats : FloatCodec) (indent : Nat) (placed : Placed) : String :=
  offsetColumn placed.offset ++ "  " ++ String.ofList (List.replicate (2 * indent) ' ')
    ++ placed.labelled.text floats ++ "\n"

/-- One line for each instruction, behind the text `done`. -/
def linesAfter (floats : FloatCodec) (done : String) (nesting : Nat) : List Placed → String
  | [] => done
  | placed :: rest =>
    let (indent, next) := indentation nesting placed.labelled
    linesAfter floats (done ++ line floats indent placed) next rest

/-- The listing of a body: offsets, and instructions indented by their nesting. -/
def text (floats : FloatCodec) (body : Body) : String :=
  linesAfter floats "" 0 body.instructions.toList

end Body

end FlatWasm
