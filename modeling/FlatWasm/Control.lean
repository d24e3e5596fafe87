import FlatWasm.Cursor

/-!
# Control state

While a body is read, its open blocks form a stack, and every block that was ever opened keeps a
record. The record of a block stands at the position its label numbers, and holds the places of
its opening, its else and its end among the instructions of the body.
-/

namespace FlatWasm

/-- The deepest nesting of blocks. -/
def maxNesting : Nat := 10000

/-- What is known of a block: its places are instruction indices. -/
structure Block where
  kind : BlockKind
  type : BlockType
  start : Nat
  elseAt : Option Nat
  endAt : Option Nat
deriving DecidableEq

structure OpenBlock where
  label : Label
  kind : BlockKind
  hasElse : Bool
deriving DecidableEq

/-- A depth as written, and the block it was found to name. -/
structure Target where
  depth : UInt32
  label : Label
deriving DecidableEq

/-- The innermost open block comes first. `depth` counts openings less ends, and falls below zero at
an end that closes no block. -/
structure Control where
  openBlocks : List OpenBlock
  blocks : Array Block
  depth : Int
deriving DecidableEq

namespace Control

def empty : Control := ⟨[], #[], 0⟩

def openCount (control : Control) : Nat := control.openBlocks.length

def isEmpty (control : Control) : Bool := control.openBlocks.isEmpty

/-- Opens a block at an instruction and gives it the next label. -/
def enter (kind : BlockKind) (type : BlockType) (index : Nat) (control : Control) :
    Except DecodeError Label × Control :=
  if maxNesting ≤ control.openCount then
    (.error (.malformed (.nestedTooDeep maxNesting)), control)
  else
    let label := control.blocks.size
    (.ok label,
      { openBlocks := ⟨label, kind, false⟩ :: control.openBlocks
        blocks := control.blocks.push ⟨kind, type, index, none, none⟩
        depth := control.depth + 1 })

/-- Depth 0 names the innermost open block. -/
def resolve (control : Control) (depth : UInt32) : Except DecodeError Target :=
  match control.openBlocks[depth.toNat]? with
  | some block => .ok ⟨depth, block.label⟩
  | none => .error (.unresolvedTarget depth control.openCount)

/-- Divides the innermost block, which must be a conditional that is not yet divided. -/
def otherwise (index : Nat) (control : Control) : Except DecodeError Label × Control :=
  match control.openBlocks with
  | [] => (.error (.unresolvedTarget 0 0), control)
  | block :: outer =>
    if block.kind ≠ .cond then
      (.error (.malformed (.elseOutsideIf block.kind block.label)), control)
    else if block.hasElse then (.error (.malformed (.secondElse block.label)), control)
    else
      (.ok block.label,
        { openBlocks := { block with hasElse := true } :: outer
          blocks := control.blocks.modify block.label ({ · with elseAt := some index })
          depth := control.depth })

/-- Closes the innermost block, if any block is open. -/
def close (index : Nat) (control : Control) : Option Label × Control :=
  match control.openBlocks with
  | [] => (none, { control with depth := control.depth - 1 })
  | block :: outer =>
    (some block.label,
      { openBlocks := outer
        blocks := control.blocks.modify block.label ({ · with endAt := some index })
        depth := control.depth - 1 })

end Control

end FlatWasm
