import FlatWasm.Body
import FlatWasm.Listing

/-!
# Lowering

A body is lowered in one pass. Each block gets a label of the listing when it is opened; the label
of a loop is marked there and that of a plain block at its end, so that a branch to it lands where
the block continues. The end of a loop jumps back to its start. Lowering stops at the first
instruction that has no counterpart, and what was emitted before it stays.
-/

namespace FlatWasm

inductive LoweringError where
  | unsupported (op : Operator)
  | conditionalEnd
  | labelNotOpened (label : Label)
  | blockNotRecorded (label : Label)
deriving DecidableEq

def LoweringError.message : LoweringError → String
  | .unsupported op => "unsupported construct: " ++ op.mnemonic
  | .conditionalEnd => "unsupported construct: end of if"
  | .labelNotOpened label =>
      "malformed encoding: label " ++ label.text ++ " referenced before its block was opened"
  | .blockNotRecorded label => "malformed encoding: no block recorded for " ++ label.text

/-- The listing so far, the label that each block of the body was given, and the number of
instructions lowered. -/
structure Lowering where
  listing : Listing
  targets : Array (Option Nat)
  lowered : Nat
deriving DecidableEq

namespace Lowering

/-- Variables are numbered through: parameters first, then local variables. -/
def slot (params index : UInt32) : Slot :=
  if index < params then .param index else .localVar (index - params)

/-- The operations for an instruction that names no block, unless it is unsupported. -/
def plainOps? (params : UInt32) : Plain → Option (List Listing.Op)
  | .unreachable => some [.trap]
  | .nop => some []
  | .ret => some [.ret]
  | .variable .getLocal index => some [.load (slot params index)]
  | .variable .setLocal index => some [.store (slot params index)]
  | .variable .teeLocal index => some [.store (slot params index), .load (slot params index)]
  | .const value => some [.push value]
  | .numeric op => op.primitive?.map fun primitive => [.apply primitive]
  | .variable .getGlobal _ | .variable .setGlobal _ | .call _ | .callIndirect _ | .parametric _
  | .memory _ _ | .memorySize _ => none

def target (state : Lowering) (label : Label) : Except LoweringError Nat :=
  match state.targets[label]? with
  | some (some target) => .ok target
  | _ => .error (.labelNotOpened label)

/-- Gives a block its label of the listing. -/
def bind (label : Label) (target : Nat) (state : Lowering) :
    Except LoweringError Unit × Lowering :=
  if label < state.targets.size then
    (.ok (), { state with targets := state.targets.setIfInBounds label (some target) })
  else (.error (.blockNotRecorded label), state)

def emit (state : Lowering) (ops : List Listing.Op) : Except LoweringError Unit × Lowering :=
  (.ok (), { state with listing := state.listing.emitAll ops })

def closing (body : Body) (state : Lowering) (label : Label) : Except LoweringError Listing.Op := do
  let target ← state.target label
  match body.blocks[label]? with
  | some ⟨.loop, _, _, _, _⟩ => .ok (.jump target)
  | some ⟨.block, _, _, _, _⟩ => .ok (.mark target)
  | some ⟨.cond, _, _, _, _⟩ => .error .conditionalEnd
  | none => .error (.blockNotRecorded label)

/-- Emits the operation, or fails for the reason it could not be formed. -/
def emitOne (state : Lowering) (op : Except LoweringError Listing.Op) :
    Except LoweringError Unit × Lowering :=
  match op with
  | .ok op => state.emit [op]
  | .error error => (.error error, state)

def instruction (body : Body) (labelled : Labelled) (state : Lowering) :
    Except LoweringError Unit × Lowering :=
  match labelled with
  | .plain plain =>
    match plainOps? body.params plain with
    | some ops => state.emit ops
    | none => (.error (.unsupported plain.operator), state)
  | .enter .block _ label =>
    let (target, listing) := state.listing.createLabel
    bind label target { state with listing }
  | .enter .loop _ label =>
    let (target, listing) := state.listing.markNew
    bind label target { state with listing }
  | .close none => state.emit [.ret]
  | .close (some label) => state.emitOne (state.closing body label)
  | .br ⟨_, label⟩ => state.emitOne ((state.target label).map .jump)
  | .brIf ⟨_, label⟩ => state.emitOne ((state.target label).map .jumpIf)
  | .enter .cond _ _ | .otherwise _ | .brTable _ _ =>
    (.error (.unsupported labelled.operator), state)

/-- Lowers instructions up to the first that fails. -/
def run (body : Body) : List Placed → Lowering → Except LoweringError Unit × Lowering
  | [], state => (.ok (), state)
  | placed :: rest, state =>
    match instruction body placed.labelled state with
    | (.ok _, state) => run body rest { state with lowered := state.lowered + 1 }
    | (.error error, state) => (.error error, state)

def start (body : Body) (listing : Listing) : Lowering :=
  ⟨listing, Array.replicate body.blocks.size none, 0⟩

end Lowering

/-- Lowers a body behind what the listing already holds. -/
def Body.lower (body : Body) (listing : Listing) : Except LoweringError Unit × Lowering :=
  Lowering.run body body.instructions.toList (.start body listing)

end FlatWasm
