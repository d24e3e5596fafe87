import FlatWasm.Lowering
import FlatWasm.Proofs.Scanning
import Mathlib.Logic.Function.Basic

/-!
# What bodies and listings compute

Two machines with an operand stack. One follows the instructions of a body: it has one row of
variables, and a branch goes on behind the end of a block or at the start of a loop. The other
follows the operations of a listing: its parameters and its local variables are two rows, and a jump
goes on at the mark of its label. Values are left open, and so is what constants and numeric
operators do to the stack; both machines share it.

Only instructions that can be lowered are given a meaning. A branch leaves the operands as they are.
-/

namespace FlatWasm

universe u

/-- Why a machine halts. It is stuck where the next step has no meaning. -/
inductive Halt where
  | returned
  | trapped
  | stuck
deriving DecidableEq

/-! ## Runs -/

namespace Machine

variable {State : Type u} (step : State → Except Halt State)

/-- So many steps lead from one state to another. -/
def Advances : Nat → State → State → Prop
  | 0, state, final => state = final
  | count + 1, state, final => ∃ next, step state = .ok next ∧ Advances count next final

def Reaches (state final : State) : Prop := ∃ count, Advances step count state final

/-- The machine comes to a state in which it halts. -/
def Halts (state : State) (reason : Halt) (final : State) : Prop :=
  Reaches step state final ∧ step final = .error reason

def RunsForever (state : State) : Prop := ∀ count, ∃ final, Advances step count state final

variable {step} {state middle final : State} {reason : Halt}

theorem advances_add {count more : Nat} :
    Advances step (count + more) state final ↔
      ∃ middle, Advances step count state middle ∧ Advances step more middle final := by
  induction count generalizing state with
  | zero => simp [Advances]
  | succ count ih =>
    rw [Nat.succ_add]
    simp only [Advances, ih]
    constructor
    · rintro ⟨next, hs, middle, hf, hb⟩
      exact ⟨middle, ⟨next, hs, hf⟩, hb⟩
    · rintro ⟨middle, ⟨next, hs, hf⟩, hb⟩
      exact ⟨next, hs, middle, hf, hb⟩

theorem Reaches.trans (hf : Reaches step state middle) (hb : Reaches step middle final) :
    Reaches step state final := by
  obtain ⟨count, hf⟩ := hf
  obtain ⟨more, hb⟩ := hb
  exact ⟨count + more, advances_add.mpr ⟨middle, hf, hb⟩⟩

theorem Reaches.halts (hf : Reaches step state middle) (hh : Halts step middle reason final) :
    Halts step state reason final :=
  ⟨hf.trans hh.1, hh.2⟩

/-- Whatever is reached on the way to a halt lies on the way. -/
theorem Advances.of_halt {count total : Nat} (hm : Advances step count state middle)
    (hf : Advances step total state final) (hh : step final = .error reason) :
    ∃ more, total = count + more ∧ Advances step more middle final := by
  induction count generalizing state total with
  | zero =>
    obtain rfl : state = middle := hm
    exact ⟨total, (Nat.zero_add total).symm, hf⟩
  | succ count ih =>
    obtain ⟨next, hs, hm⟩ := hm
    cases total with
    | zero =>
      obtain rfl : state = final := hf
      rw [hs] at hh
      cases hh
    | succ total =>
      obtain ⟨next', hs', hf⟩ := hf
      obtain rfl : next = next' := Except.ok.inj (hs.symm.trans hs')
      obtain ⟨more, rfl, hrest⟩ := ih hm hf
      exact ⟨more, (Nat.succ_add count more).symm, hrest⟩

theorem Halts.unique {reason' : Halt} {final' : State} (h : Halts step state reason final)
    (h' : Halts step state reason' final') : final = final' := by
  obtain ⟨⟨count, ha⟩, hh⟩ := h
  obtain ⟨⟨count', ha'⟩, hh'⟩ := h'
  obtain ⟨more, -, hm⟩ := ha.of_halt ha' hh'
  cases more with
  | zero => exact hm
  | succ more =>
    obtain ⟨next, hs, -⟩ := hm
    cases hh.symm.trans hs

/-- The states of so many steps from a state on, as far as they go. -/
def trace (step : State → Except Halt State) : Nat → State → List State
  | 0, state => [state]
  | count + 1, state =>
    match step state with
    | .ok next => state :: trace step count next
    | .error _ => [state]

/-- A run that halts has only the states of its trace. -/
theorem mem_trace {count : Nat} (hf : Advances step count state final)
    (hh : step final = .error reason) (hm : Reaches step state middle) :
    middle ∈ trace step count state := by
  obtain ⟨steps, hm⟩ := hm
  obtain ⟨more, rfl, -⟩ := hm.of_halt hf hh
  induction steps generalizing state with
  | zero =>
    obtain rfl : state = middle := hm
    cases more with
    | zero => exact List.mem_singleton_self state
    | succ more =>
      rw [Nat.zero_add, trace]
      cases step state <;> exact List.mem_cons_self
  | succ steps ih =>
    obtain ⟨next, hs, hm⟩ := hm
    rw [Nat.succ_add] at hf ⊢
    obtain ⟨next', hs', hf⟩ := hf
    obtain rfl : next = next' := Except.ok.inj (hs.symm.trans hs')
    rw [trace, hs]
    exact List.mem_cons_of_mem _ (ih hm hf)

theorem runsForever_iff :
    RunsForever step state ↔ ∀ reason final, ¬ Halts step state reason final := by
  constructor
  · rintro h reason final ⟨⟨count, hf⟩, hh⟩
    obtain ⟨later, hl⟩ := h (count + 1)
    obtain ⟨more, hm, -⟩ := hl.of_halt hf hh
    omega
  · intro h count
    induction count with
    | zero => exact ⟨state, rfl⟩
    | succ count ih =>
      obtain ⟨final, hf⟩ := ih
      cases hs : step final with
      | error reason => exact absurd ⟨⟨count, hf⟩, hs⟩ (h reason final)
      | ok next => exact ⟨next, advances_add.mpr ⟨final, hf, next, hs, rfl⟩⟩

end Machine

/-! ## Values -/

/-- What constants and numeric operators do to the operand stack, where it is defined, and which
values count as a condition that holds. -/
structure Interpretation (Value : Type u) where
  constant : Constant → List Value → Option (List Value)
  numeric : NumericOp → List Value → Option (List Value)
  isNonzero : Value → Bool

/-- The numeric operator that a primitive stands for. -/
def Primitive.operator : Primitive → NumericOp
  | .equalZero => .eqz .i32
  | .equal => .compareInt .i32 .eq
  | .notEqual => .compareInt .i32 .ne
  | .lessThan sign => .compareInt .i32 (.lt sign)
  | .greaterThan sign => .compareInt .i32 (.gt sign)
  | .add => .binaryInt .i32 .add
  | .subtract => .binaryInt .i32 .sub
  | .multiply => .binaryInt .i32 .mul
  | .extend sign => .convert (.extend sign)

theorem NumericOp.operator_of_primitive? {op : NumericOp} {primitive : Primitive}
    (h : op.primitive? = some primitive) : primitive.operator = op := by
  unfold primitive? at h
  split at h <;> cases h <;> rfl

variable {Value : Type u}

/-! ## Bodies -/

namespace Body

structure State (Value : Type u) where
  pc : Nat
  stack : List Value
  vars : UInt32 → Option Value

namespace State

def next (state : State Value) : State Value := { state with pc := state.pc + 1 }

def jump (state : State Value) : Option Nat → Except Halt (State Value)
  | some pc => .ok { state with pc }
  | none => .error .stuck

/-- Takes a value off the stack and jumps if it is a condition that holds. -/
def jumpIf (interp : Interpretation Value) (state : State Value) (pc : Option Nat) :
    Except Halt (State Value) :=
  match state.stack with
  | value :: stack =>
    if interp.isNonzero value then { state with stack }.jump pc else .ok { state.next with stack }
  | [] => .error .stuck

/-- Goes on with other operands, if they are defined. -/
def operands (state : State Value) : Option (List Value) → Except Halt (State Value)
  | some stack => .ok { state.next with stack }
  | none => .error .stuck

/-- Goes on with a value in a variable, which must exist, and with other operands. -/
def assign (state : State Value) (index : UInt32) (value : Value) (stack : List Value) :
    Except Halt (State Value) :=
  match state.vars index with
  | some _ => .ok { state.next with
      stack, vars := Function.update state.vars index (some value) }
  | none => .error .stuck

def plain (interp : Interpretation Value) (state : State Value) : Plain → Except Halt (State Value)
  | .unreachable => .error .trapped
  | .nop => .ok state.next
  | .ret => .error .returned
  | .variable .getLocal index => state.operands ((state.vars index).map (· :: state.stack))
  | .variable .setLocal index =>
    match state.stack with
    | value :: stack => state.assign index value stack
    | [] => .error .stuck
  | .variable .teeLocal index =>
    match state.stack with
    | value :: stack => state.assign index value (value :: stack)
    | [] => .error .stuck
  | .const value => state.operands (interp.constant value state.stack)
  | .numeric op => state.operands (interp.numeric op state.stack)
  | .variable .getGlobal _ | .variable .setGlobal _ | .call _ | .callIndirect _ | .parametric _
  | .memory _ _ | .memorySize _ => .error .stuck

end State

/-- Where a branch to a block goes on: behind its end, or at the start of a loop. -/
def continuation (body : Body) (label : Label) : Option Nat :=
  match body.blocks[label]? with
  | some ⟨.loop, _, start, _, _⟩ => some (start + 1)
  | some ⟨.block, _, _, _, some last⟩ => some (last + 1)
  | _ => none

/-- The end of a loop goes back to its start, and that of a block goes on. -/
def ending (body : Body) (state : State Value) (label : Label) : Except Halt (State Value) :=
  match body.blocks[label]?.map Block.kind with
  | some .loop => state.jump (body.continuation label)
  | some .block => .ok state.next
  | _ => .error .stuck

def step (interp : Interpretation Value) (body : Body) (state : State Value) :
    Except Halt (State Value) :=
  match body.code[state.pc]? with
  | some (.plain plain) => state.plain interp plain
  | some (.enter .block _ _) | some (.enter .loop _ _) => .ok state.next
  | some (.close none) => .error .returned
  | some (.close (some label)) => body.ending state label
  | some (.br target) => state.jump (body.continuation target.label)
  | some (.brIf target) => state.jumpIf interp (body.continuation target.label)
  | some (.enter .cond _ _) | some (.otherwise _) | some (.brTable _ _) | none => .error .stuck

end Body

/-! ## Listings -/

namespace Listing

structure State (Value : Type u) where
  pc : Nat
  stack : List Value
  params : UInt32 → Option Value
  locals : UInt32 → Option Value

namespace State

def next (state : State Value) : State Value := { state with pc := state.pc + 1 }

def jump (state : State Value) : Option Nat → Except Halt (State Value)
  | some pc => .ok { state with pc }
  | none => .error .stuck

def jumpIf (interp : Interpretation Value) (state : State Value) (pc : Option Nat) :
    Except Halt (State Value) :=
  match state.stack with
  | value :: stack =>
    if interp.isNonzero value then { state with stack }.jump pc else .ok { state.next with stack }
  | [] => .error .stuck

def operands (state : State Value) : Option (List Value) → Except Halt (State Value)
  | some stack => .ok { state.next with stack }
  | none => .error .stuck

def read (state : State Value) : Slot → Option Value
  | .param index => state.params index
  | .localVar index => state.locals index

def write (state : State Value) (value : Value) : Slot → State Value
  | .param index => { state with params := Function.update state.params index (some value) }
  | .localVar index => { state with locals := Function.update state.locals index (some value) }

def assign (state : State Value) (slot : Slot) (value : Value) (stack : List Value) :
    Except Halt (State Value) :=
  match state.read slot with
  | some _ => .ok { state.next.write value slot with stack }
  | none => .error .stuck

/-- Both rows as one: the parameters, and behind them the local variables. -/
def vars (params : UInt32) (state : State Value) (index : UInt32) : Option Value :=
  if index < params then state.params index else state.locals (index - params)

end State

/-- The place of the first mark of a label. -/
def marked? (listing : Listing) (label : Nat) : Option Nat :=
  listing.ops.toList.idxOf? (.mark label)

def perform (interp : Interpretation Value) (listing : Listing) (state : State Value) :
    Op → Except Halt (State Value)
  | .mark _ => .ok state.next
  | .jump label => state.jump (listing.marked? label)
  | .jumpIf label => state.jumpIf interp (listing.marked? label)
  | .ret => .error .returned
  | .trap => .error .trapped
  | .load slot => state.operands ((state.read slot).map (· :: state.stack))
  | .store slot =>
    match state.stack with
    | value :: stack => state.assign slot value stack
    | [] => .error .stuck
  | .push value => state.operands (interp.constant value state.stack)
  | .apply primitive => state.operands (interp.numeric primitive.operator state.stack)

def step (interp : Interpretation Value) (listing : Listing) (state : State Value) :
    Except Halt (State Value) :=
  match listing.ops.toList[state.pc]? with
  | some op => listing.perform interp state op
  | none => .error .stuck

end Listing

end FlatWasm
