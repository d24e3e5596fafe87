import FlatWasm.Instruction

/-!
# Listings

The language that bodies are lowered to: a flat list of operations, in which jumps go to labels and
labels are marked at places. A label is created before it is marked, so that jumps may go forward.
Parameters and local variables are numbered apart.
-/

namespace FlatWasm

/-- Operations on the operand stack that stand for one numeric operator each. -/
inductive Primitive where
  | equalZero
  | equal
  | notEqual
  | lessThan (sign : Signedness)
  | greaterThan (sign : Signedness)
  | add
  | subtract
  | multiply
  | extend (sign : Signedness)
deriving DecidableEq

def Primitive.name : Primitive → String
  | .equalZero => "eqz"
  | .equal => "eq"
  | .notEqual => "ne"
  | .lessThan sign => "lt" ++ sign.suffix
  | .greaterThan sign => "gt" ++ sign.suffix
  | .add => "add"
  | .subtract => "sub"
  | .multiply => "mul"
  | .extend sign => "extend" ++ sign.suffix

/-- The primitive that a numeric operator is lowered to, if it has one. -/
def NumericOp.primitive? : NumericOp → Option Primitive
  | .eqz .i32 => some .equalZero
  | .compareInt .i32 .eq => some .equal
  | .compareInt .i32 .ne => some .notEqual
  | .compareInt .i32 (.lt sign) => some (.lessThan sign)
  | .compareInt .i32 (.gt sign) => some (.greaterThan sign)
  | .binaryInt .i32 .add => some .add
  | .binaryInt .i32 .sub => some .subtract
  | .binaryInt .i32 .mul => some .multiply
  | .convert (.extend sign) => some (.extend sign)
  | _ => none

inductive Slot where
  | param (index : UInt32)
  | localVar (index : UInt32)
deriving DecidableEq

def Slot.text : Slot → String
  | .param index => "param " ++ toString index.toNat
  | .localVar index => "local " ++ toString index.toNat

/-- One operation. `jumpIf` takes a number off the stack and jumps unless it is zero. -/
inductive Listing.Op where
  | mark (label : Nat)
  | jump (label : Nat)
  | jumpIf (label : Nat)
  | ret
  | trap
  | load (slot : Slot)
  | store (slot : Slot)
  | push (value : Constant)
  | apply (primitive : Primitive)
deriving DecidableEq

namespace Listing.Op

def labelText (label : Nat) : String := "label_" ++ toString label

def text (floats : FloatCodec) : Listing.Op → String
  | .mark label => labelText label ++ ":"
  | .jump label => "    goto " ++ labelText label
  | .jumpIf label => "    ifne " ++ labelText label
  | .ret => "    return"
  | .trap => "    trap"
  | .load slot => "    load " ++ slot.text
  | .store slot => "    store " ++ slot.text
  | .push value => "    push " ++ value.type.name ++ " " ++ value.text floats
  | .apply primitive => "    " ++ primitive.name

end Listing.Op

/-- Operations, and the number of labels created so far: these are numbered from zero. The number
has no bound. A counter of 32 bits would be the same as long as fewer than `2 ^ 32` labels are
created, and so for every body that is lowered from the empty listing. -/
structure Listing where
  ops : Array Listing.Op
  labels : Nat
deriving DecidableEq

namespace Listing

def empty : Listing := ⟨#[], 0⟩

def emit (listing : Listing) (op : Op) : Listing :=
  { listing with ops := listing.ops.push op }

def emitAll (listing : Listing) (ops : List Op) : Listing :=
  { listing with ops := listing.ops ++ ops }

/-- A new label, not yet marked. -/
def createLabel (listing : Listing) : Nat × Listing :=
  (listing.labels, { listing with labels := listing.labels + 1 })

/-- A new label, marked here. -/
def markNew (listing : Listing) : Nat × Listing :=
  let (label, listing) := listing.createLabel
  (label, listing.emit (.mark label))

/-- The labels that were created and not marked. -/
def unbound (listing : Listing) : List Nat :=
  (List.range listing.labels).filter fun label => !listing.ops.contains (.mark label)

def lines (floats : FloatCodec) (listing : Listing) : List String :=
  listing.ops.toList.map (Op.text floats)

def text (floats : FloatCodec) (listing : Listing) : String :=
  String.join ((listing.lines floats).map (· ++ "\n"))

end Listing

end FlatWasm
