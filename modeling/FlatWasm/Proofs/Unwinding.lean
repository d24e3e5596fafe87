import FlatWasm.Proofs.Outcome
import FlatWasm.Proofs.Simulation

/-!
# Branches that drop operands

A machine for bodies whose branches restore the stack. Entering a block records the height of the
stack. A branch to the block keeps the results of the block, drops what lies between them and the
recorded height, and goes on behind the end of the block.

A listing drops nothing: behind such a branch the surplus is still there, below the results. What
lies above the height that the branch restored is the same in the body and in the listing, and so
both return the same value as long as the run takes no operand from below that height.
-/

namespace FlatWasm

universe u

/-- What constants and numeric operators compute. An operator sees the operands it takes, and no
others. -/
structure Operations (Value : Type u) where
  constant : Constant → Option Value
  operands : NumericOp → Nat
  numeric : NumericOp → List Value → Option (List Value)
  isNonzero : Value → Bool

variable {Value : Type u}

namespace Operations

def interpretation (ops : Operations Value) : Interpretation Value where
  constant value stack := (ops.constant value).map (· :: stack)
  numeric op stack :=
    if ops.operands op ≤ stack.length then
      (ops.numeric op (stack.take (ops.operands op))).map (· ++ stack.drop (ops.operands op))
    else none
  isNonzero := ops.isNonzero

variable (ops : Operations Value)

theorem constant_append (value : Constant) (stack below : List Value) :
    ops.interpretation.constant value (stack ++ below) =
      (ops.interpretation.constant value stack).map (· ++ below) := by
  show (ops.constant value).map _ = ((ops.constant value).map _).map _
  rw [Option.map_map]
  rfl

theorem numeric_append {op : NumericOp} {stack : List Value} (h : ops.operands op ≤ stack.length)
    (below : List Value) :
    ops.interpretation.numeric op (stack ++ below) =
      (ops.interpretation.numeric op stack).map (· ++ below) := by
  have hlen : ops.operands op ≤ (stack ++ below).length := by
    rw [List.length_append]
    omega
  simp only [interpretation]
  rw [if_pos h, if_pos hlen, List.take_append_of_le_length h, List.drop_append_of_le_length h,
    Option.map_map]
  simp [Function.comp_def]

/-- The number of operands that an instruction takes. A return takes the value it returns. -/
def taken : Plain → Nat
  | .numeric op => ops.operands op
  | .variable .setLocal _ | .variable .teeLocal _ | .ret => 1
  | _ => 0

end Operations

namespace Body

/-! ## Frames -/

/-- The height of the stack at the entry of a block, and the number of its results. -/
structure Frame where
  height : Nat
  results : Nat
deriving DecidableEq

/-- A state with the frames of the blocks that were entered, innermost first. The floor is the
height that was restored by the last branch that dropped anything; the machine never looks at it. -/
structure Framed (Value : Type u) extends State Value where
  frames : List Frame
  floor : Nat

namespace Framed

def start (stack : List Value) (vars : UInt32 → Option Value) : Framed Value :=
  ⟨⟨0, stack, vars⟩, [], 0⟩

/-- The height of the innermost block. -/
def height (state : Framed Value) : Nat :=
  match state.frames with
  | frame :: _ => frame.height
  | [] => 0

def enter (results : Nat) (state : Framed Value) : Framed Value :=
  ⟨state.next, ⟨state.stack.length, results⟩ :: state.frames, state.floor⟩

def leave (state : Framed Value) : Framed Value :=
  ⟨state.next, state.frames.tail, state.floor⟩

/-- Drops what lies between the results of a block and its height, and the frames up to its own. -/
def unwind (state : Framed Value) (depth : UInt32) : Except Halt (Framed Value) :=
  match state.frames[depth.toNat]? with
  | none => .error .stuck
  | some frame =>
    if frame.height + frame.results ≤ state.stack.length then
      .ok ⟨{ state.toState with
          stack := state.stack.take frame.results ++
            state.stack.drop (state.stack.length - frame.height) },
        state.frames.drop (depth.toNat + 1),
        if frame.height + frame.results < state.stack.length then frame.height else state.floor⟩
    else .error .stuck

def jump (state : Framed Value) (pc : Option Nat) : Except Halt (Framed Value) :=
  (state.toState.jump pc).map fun next => { state with toState := next }

/-- Goes on behind the end of a block, with its results. -/
def branch (body : Body) (state : Framed Value) (target : Target) : Except Halt (Framed Value) :=
  match state.unwind target.depth with
  | .ok unwound => unwound.jump (body.continuation target.label)
  | .error reason => .error reason

/-- The number of operands that a branch takes along. -/
def carried (state : Framed Value) (target : Target) : Nat :=
  match state.frames[target.depth.toNat]? with
  | some frame => frame.results
  | none => 0

end Framed

/-- Loops and blocks whose type is an index have no meaning here. -/
def framedStep (ops : Operations Value) (body : Body) (state : Framed Value) :
    Except Halt (Framed Value) :=
  match body.code[state.pc]? with
  | some (.plain plain) =>
    (state.toState.plain ops.interpretation plain).map fun next => { state with toState := next }
  | some (.enter .block .empty _) => .ok (state.enter 0)
  | some (.enter .block (.value _) _) => .ok (state.enter 1)
  | some (.close none) => .error .returned
  | some (.close (some label)) =>
    if body.blocks[label]?.map Block.kind = some .block then .ok state.leave else .error .stuck
  | some (.br target) => state.branch body target
  | some (.brIf target) =>
    match state.stack with
    | value :: stack =>
      let popped : Framed Value := { state with stack }
      if ops.isNonzero value then popped.branch body target
      else .ok { popped with toState := popped.next }
    | [] => .error .stuck
  | _ => .error .stuck

/-- The number of operands that the next step takes from the stack, those that it puts back
included. -/
def taken (ops : Operations Value) (body : Body) (state : Framed Value) : Nat :=
  match body.code[state.pc]? with
  | some (.plain plain) => ops.taken plain
  | some (.close none) => 1
  | some (.br target) => state.carried target
  | some (.brIf target) =>
    if state.stack.head?.any ops.isNonzero then state.carried target + 1 else 1
  | _ => 0

/-- At every state that is reached, the next step leaves alone what lies below a height. -/
def StaysAbove (height : Framed Value → Nat) (ops : Operations Value) (body : Body)
    (start : Framed Value) : Prop :=
  ∀ state, Machine.Reaches (body.framedStep ops) start state →
    height state + body.taken ops state ≤ state.stack.length

/-! ## Where a run returns -/

namespace State

theorem operands_ne_returned (state : State Value) (stack : Option (List Value)) :
    state.operands stack ≠ .error .returned := by
  cases stack <;> simp [operands]

theorem assign_ne_returned (state : State Value) (index : UInt32) (value : Value)
    (stack : List Value) : state.assign index value stack ≠ .error .returned := by
  unfold assign
  split <;> simp

theorem eq_ret_of_returned {interp : Interpretation Value} {state : State Value} {plain : Plain}
    (h : state.plain interp plain = .error .returned) : plain = .ret := by
  cases plain with
  | ret => rfl
  | «variable» op index =>
    cases op with
    | getLocal => exact absurd h (state.operands_ne_returned _)
    | setLocal =>
      rw [State.plain] at h
      split at h
      · exact absurd h (state.assign_ne_returned _ _ _)
      · cases h
    | teeLocal =>
      rw [State.plain] at h
      split at h
      · exact absurd h (state.assign_ne_returned _ _ _)
      · cases h
    | getGlobal => cases h
    | setGlobal => cases h
  | const value => exact absurd h (state.operands_ne_returned _)
  | numeric op => exact absurd h (state.operands_ne_returned _)
  | unreachable => cases h
  | nop => cases h
  | call function => cases h
  | callIndirect type => cases h
  | parametric op => cases h
  | memory op arg => cases h
  | memorySize op => cases h

end State

namespace Framed

theorem unwind_ne_returned (state : Framed Value) (depth : UInt32) :
    state.unwind depth ≠ .error .returned := by
  unfold unwind
  split
  · simp
  · split <;> simp

theorem jump_ne_returned (state : Framed Value) (pc : Option Nat) :
    state.jump pc ≠ .error .returned := by
  cases pc <;> simp [jump, State.jump, Except.map]

theorem branch_ne_returned (body : Body) (state : Framed Value) (target : Target) :
    state.branch body target ≠ .error .returned := by
  intro h
  unfold branch at h
  cases hu : state.unwind target.depth with
  | error reason =>
    rw [hu] at h
    cases h
    exact state.unwind_ne_returned target.depth hu
  | ok unwound =>
    rw [hu] at h
    exact unwound.jump_ne_returned _ h

end Framed

/-- A run returns at a return and at the end of the body, and nowhere else. -/
theorem returned_cases {ops : Operations Value} {body : Body} {state : Framed Value}
    (h : body.framedStep ops state = .error .returned) :
    body.code[state.pc]? = some (.plain .ret) ∨ body.code[state.pc]? = some (.close none) := by
  unfold framedStep at h
  cases hc : body.code[state.pc]? with
  | none =>
    rw [hc] at h
    cases h
  | some labelled =>
    rw [hc] at h
    cases labelled with
    | plain plain =>
      dsimp only at h
      cases hp : state.toState.plain ops.interpretation plain with
      | ok next =>
        rw [hp] at h
        cases h
      | error reason =>
        rw [hp] at h
        cases h
        rw [State.eq_ret_of_returned hp]
        exact .inl rfl
    | enter kind type label => cases kind <;> cases type <;> cases h
    | otherwise label => cases h
    | close label =>
      cases label with
      | none => exact .inr rfl
      | some label =>
        dsimp only at h
        split at h <;> cases h
    | br branch => exact absurd h (state.branch_ne_returned body branch)
    | brIf branch =>
      dsimp only at h
      cases hst : state.stack with
      | nil =>
        rw [hst] at h
        cases h
      | cons value stack =>
        rw [hst] at h
        dsimp only at h
        split at h
        · exact absurd h (Framed.branch_ne_returned body _ branch)
        · cases h
    | brTable targets default => cases h

/-! ## What lies below the operands -/

namespace State

/-- The state with further values below its operands. -/
def onto (state : State Value) (below : List Value) : State Value :=
  { state with stack := state.stack ++ below }

variable {ops : Operations Value}

theorem operands_onto (state : State Value) (below : List Value) (stack : Option (List Value)) :
    (state.onto below).operands (stack.map (· ++ below)) =
      (state.operands stack).map (onto · below) := by
  cases stack <;> rfl

theorem assign_onto (state : State Value) (below : List Value) (index : UInt32) (value : Value)
    (stack : List Value) :
    (state.onto below).assign index value (stack ++ below) =
      (state.assign index value stack).map (onto · below) := by
  cases hv : state.vars index <;> simp [assign, onto, hv, Except.map, next]

/-- An instruction that finds its operands does not look below them. -/
theorem plain_onto {state : State Value} {plain : Plain}
    (h : ops.taken plain ≤ state.stack.length) (below : List Value) :
    (state.onto below).plain ops.interpretation plain =
      (state.plain ops.interpretation plain).map (onto · below) := by
  cases plain with
  | unreachable => rfl
  | nop => rfl
  | ret => rfl
  | «variable» op index =>
    cases op with
    | getLocal =>
      have hmap : (state.vars index).map (· :: (state.stack ++ below)) =
          ((state.vars index).map (· :: state.stack)).map (· ++ below) := by
        rw [Option.map_map]
        rfl
      rw [State.plain, State.plain, ← operands_onto, ← hmap]
      rfl
    | setLocal =>
      obtain ⟨value, stack, hst⟩ := List.exists_cons_of_length_pos h
      simp only [State.plain, onto, hst, List.cons_append]
      exact assign_onto state below index value stack
    | teeLocal =>
      obtain ⟨value, stack, hst⟩ := List.exists_cons_of_length_pos h
      simp only [State.plain, onto, hst, List.cons_append]
      exact assign_onto state below index value (value :: stack)
    | getGlobal => rfl
    | setGlobal => rfl
  | const value =>
    rw [State.plain, State.plain, ← operands_onto, ← ops.constant_append]
    rfl
  | numeric op =>
    rw [State.plain, State.plain, ← operands_onto, ← ops.numeric_append h]
    rfl
  | call function => rfl
  | callIndirect type => rfl
  | parametric op => rfl
  | memory op arg => rfl
  | memorySize op => rfl

end State

/-! ## With and without the surplus -/

/-- The same state, but for the values below the floor, in whose place the other state may have
anything. -/
def Shares (source : Framed Value) (target : State Value) : Prop :=
  ∃ common below surplus, source.toState = State.onto common below ∧
    target = common.onto surplus ∧ below.length = source.floor

namespace Shares

variable {ops : Operations Value} {body : Body} {source source' : Framed Value}
  {target : State Value}

/-- Both have the operands above the floor. -/
theorem take_eq (s : Shares source target) {count : Nat}
    (h : source.floor + count ≤ source.stack.length) :
    source.stack.take count = target.stack.take count := by
  obtain ⟨common, below, surplus, hs, rfl, hb⟩ := s
  rw [hs, State.onto, List.length_append] at h
  have hc : count ≤ common.stack.length := by omega
  rw [hs, State.onto, State.onto, List.take_append_of_le_length hc,
    List.take_append_of_le_length hc]

theorem jump (s : Shares source target) {pc : Option Nat} (h : source.jump pc = .ok source') :
    ∃ target', target.jump pc = .ok target' ∧ Shares source' target' := by
  obtain ⟨common, below, surplus, hs, rfl, hb⟩ := s
  cases pc with
  | none => cases h
  | some pc =>
    cases h
    refine ⟨_, rfl, { common with pc }, below, surplus, ?_, rfl, hb⟩
    rw [hs]
    rfl

/-- A branch that drops operands leaves them to the other state as surplus. -/
theorem unwind (s : Shares source target) {branch : Target}
    (hc : source.floor + source.carried branch ≤ source.stack.length)
    (h : source.unwind branch.depth = .ok source') : Shares source' target := by
  obtain ⟨common, below, surplus, hs, rfl, hb⟩ := s
  unfold Framed.unwind at h
  unfold Framed.carried at hc
  cases hf : source.frames[branch.depth.toNat]? with
  | none =>
    rw [hf] at h
    cases h
  | some frame =>
    simp only [hf] at h hc
    split at h
    · next hle =>
      cases h
      have hlen : source.stack.length = common.stack.length + below.length := by
        rw [hs, State.onto, List.length_append]
      by_cases hlt : frame.height + frame.results < source.stack.length
      · -- the results are common, and what is dropped joins the surplus
        rw [if_pos hlt]
        refine ⟨{ common with stack := common.stack.take frame.results },
          source.stack.drop (source.stack.length - frame.height),
          common.stack.drop frame.results ++ surplus, ?_, ?_, ?_⟩
        · have htake : source.stack.take frame.results = common.stack.take frame.results := by
            rw [hs, State.onto, List.take_append_of_le_length (by omega)]
          show State.mk source.pc (source.stack.take frame.results ++ _) source.vars = _
          rw [htake, hs]
          rfl
        · rw [State.onto, State.onto, ← List.append_assoc, List.take_append_drop]
        · rw [List.length_drop]
          show _ = frame.height
          omega
      · have heq : source.stack.length - frame.height = frame.results := by omega
        rw [if_neg hlt, heq, List.take_append_drop]
        exact ⟨common, below, surplus, hs, rfl, hb⟩
    · cases h

theorem branch (s : Shares source target) {branch : Target}
    (hc : source.floor + source.carried branch ≤ source.stack.length)
    (h : source.branch body branch = .ok source') :
    ∃ target', target.jump (body.continuation branch.label) = .ok target' ∧
      Shares source' target' := by
  unfold Framed.branch at h
  cases hu : source.unwind branch.depth with
  | error reason =>
    rw [hu] at h
    cases h
  | ok unwound =>
    rw [hu] at h
    exact (s.unwind hc hu).jump h

/-- A condition is taken off both stacks. -/
theorem pop (s : Shares source target) {value : Value} {stack : List Value}
    (hst : source.stack = value :: stack) (hf : source.floor + 1 ≤ source.stack.length) :
    ∃ stack', target.stack = value :: stack' ∧
      Shares { source with stack } { target with stack := stack' } := by
  obtain ⟨common, below, surplus, hs, rfl, hb⟩ := s
  have hlen : source.stack.length = common.stack.length + below.length := by
    rw [hs, State.onto, List.length_append]
  obtain ⟨first, rest, hcommon⟩ : ∃ first rest, common.stack = first :: rest :=
    List.exists_cons_of_length_pos (by omega)
  have hsplit : value :: stack = first :: (rest ++ below) := by
    rw [← hst, hs, State.onto, hcommon, List.cons_append]
  obtain ⟨rfl, rfl⟩ := List.cons.inj hsplit
  refine ⟨rest ++ surplus, by rw [State.onto, hcommon, List.cons_append],
    { common with stack := rest }, below, surplus, ?_, rfl, hb⟩
  show { source.toState with stack := rest ++ below } = _
  rw [hs]
  rfl

/-- Both go on at the next instruction. -/
theorem next (s : Shares source target) (frames : List Frame) :
    Shares ⟨source.next, frames, source.floor⟩ target.next := by
  obtain ⟨common, below, surplus, hs, rfl, hb⟩ := s
  refine ⟨common.next, below, surplus, ?_, rfl, hb⟩
  show source.toState.next = _
  rw [hs]
  rfl

theorem plain (s : Shares source target) {plain : Plain}
    (hc : source.floor + ops.taken plain ≤ source.stack.length) {next : State Value}
    (h : source.toState.plain ops.interpretation plain = .ok next) :
    ∃ target', target.plain ops.interpretation plain = .ok target' ∧
      Shares { source with toState := next } target' := by
  obtain ⟨common, below, surplus, hs, rfl, hb⟩ := s
  rw [hs, State.onto, List.length_append] at hc
  have htaken : ops.taken plain ≤ common.stack.length := by omega
  rw [hs, State.plain_onto htaken] at h
  rw [State.plain_onto htaken]
  cases hp : common.plain ops.interpretation plain with
  | error reason =>
    rw [hp] at h
    cases h
  | ok common' =>
    rw [hp] at h
    cases h
    exact ⟨common'.onto surplus, rfl, common', below, surplus, rfl, rfl, hb⟩

/-- A conditional branch takes its condition, and along with it what a branch takes. -/
theorem jumpIf (s : Shares source target) {branch : Target} {value : Value} {stack : List Value}
    (hst : source.stack = value :: stack)
    (hc : source.floor + (if ops.isNonzero value then source.carried branch + 1 else 1) ≤
      source.stack.length)
    (h : (if ops.isNonzero value then Framed.branch body { source with stack } branch
      else .ok { source with pc := source.pc + 1, stack }) = .ok source') :
    ∃ target', target.jumpIf ops.interpretation (body.continuation branch.label) = .ok target' ∧
      Shares source' target' := by
  have hlen : source.stack.length = stack.length + 1 := by rw [hst, List.length_cons]
  obtain ⟨stack', hst', hs⟩ := s.pop hst (by split at hc <;> omega)
  unfold State.jumpIf
  rw [hst']
  show ∃ target', (if ops.isNonzero value then _ else _) = _ ∧ _
  cases hz : ops.isNonzero value with
  | true =>
    rw [hz] at h hc
    refine hs.branch ?_ h
    show source.floor + source.carried branch ≤ stack.length
    rw [if_pos rfl] at hc
    omega
  | false =>
    rw [hz] at h
    cases h
    exact ⟨_, rfl, hs.next source.frames⟩

theorem pc_eq (s : Shares source target) : target.pc = source.pc := by
  obtain ⟨common, below, surplus, hs, rfl, -⟩ := s
  rw [hs]
  rfl

/-- A step that finds its operands above the floor is a step of the machine that drops nothing. -/
theorem step (s : Shares source target)
    (hc : source.floor + body.taken ops source ≤ source.stack.length)
    (h : body.framedStep ops source = .ok source') :
    ∃ target', body.step ops.interpretation target = .ok target' ∧ Shares source' target' := by
  unfold framedStep at h
  unfold Body.taken at hc
  unfold Body.step
  rw [s.pc_eq]
  cases hcode : body.code[source.pc]? with
  | none =>
    rw [hcode] at h
    cases h
  | some labelled =>
    rw [hcode] at h hc
    cases labelled with
    | plain plain =>
      dsimp only at h hc
      cases hp : source.toState.plain ops.interpretation plain with
      | error reason =>
        rw [hp] at h
        cases h
      | ok next =>
        rw [hp] at h
        cases h
        exact s.plain hc hp
    | enter kind type label =>
      cases kind with
      | block =>
        cases type with
        | empty =>
          cases h
          exact ⟨_, rfl, s.next _⟩
        | value type =>
          cases h
          exact ⟨_, rfl, s.next _⟩
        | index type => cases h
      | loop => cases h
      | cond => cases h
    | otherwise label => cases h
    | close label =>
      cases label with
      | none => cases h
      | some label =>
        dsimp only [Body.ending] at h ⊢
        split at h
        · next hk =>
          cases h
          rw [hk]
          exact ⟨_, rfl, s.next _⟩
        · cases h
    | br branch => exact s.branch hc h
    | brIf branch =>
      dsimp only at h hc
      cases hst : source.stack with
      | nil =>
        rw [hst] at h
        cases h
      | cons value stack =>
        rw [hst] at h hc
        exact s.jumpIf hst (by rwa [hst]) h
    | brTable targets default => cases h

/-- Both return, with the same value on top. -/
theorem returned (s : Shares source target)
    (hc : source.floor + body.taken ops source ≤ source.stack.length)
    (h : body.framedStep ops source = .error .returned) :
    body.step ops.interpretation target = .error .returned ∧
      target.stack.head? = source.stack.head? := by
  obtain ⟨htaken, hstep⟩ : body.taken ops source = 1 ∧
      body.step ops.interpretation target = .error .returned := by
    rw [Body.taken, Body.step, s.pc_eq]
    rcases returned_cases h with hcode | hcode <;> rw [hcode] <;> exact ⟨rfl, rfl⟩
  rw [htaken] at hc
  have htop : (source.stack.take 1).head? = (target.stack.take 1).head? := by rw [s.take_eq hc]
  rw [List.head?_take, List.head?_take] at htop
  exact ⟨hstep, htop.symm⟩

/-! ## Runs -/

open Machine

theorem reaches (s : Shares source target) (hf : StaysAbove Framed.floor ops body source)
    (h : Reaches (body.framedStep ops) source source') :
    ∃ target', Reaches (body.step ops.interpretation) target target' ∧ Shares source' target' := by
  obtain ⟨count, h⟩ := h
  induction count generalizing source target with
  | zero =>
    obtain rfl : source = source' := h
    exact ⟨target, ⟨0, rfl⟩, s⟩
  | succ count ih =>
    obtain ⟨next, hs, h⟩ := h
    obtain ⟨middle, hm, hnext⟩ := s.step (hf source ⟨0, rfl⟩) hs
    have hfloor : StaysAbove Framed.floor ops body next :=
      fun state hr => hf state (Reaches.trans ⟨1, next, hs, rfl⟩ hr)
    obtain ⟨target', hr, hshares⟩ := ih hnext hfloor h
    exact ⟨target', Reaches.trans ⟨1, middle, hm, rfl⟩ hr, hshares⟩

theorem halts (s : Shares source target) (hf : StaysAbove Framed.floor ops body source)
    (h : Halts (body.framedStep ops) source .returned source') :
    ∃ target', Halts (body.step ops.interpretation) target .returned target' ∧
      target'.stack.head? = source'.stack.head? := by
  obtain ⟨target', hr, hs⟩ := s.reaches hf h.1
  obtain ⟨hstep, hhead⟩ := hs.returned (hf source' h.1) h.2
  exact ⟨target', ⟨hr, hstep⟩, hhead⟩

end Shares

/-- A run that branches out of blocks as the frames say and returns a value, in a body of supported
instructions. If it never takes an operand from below the height that the last branch with a surplus
restored, the listing returns the same value. -/
theorem lower_delivers {bytes : List UInt8} {params : UInt32} {body : Body}
    (hd : decode bytes params = .ok body)
    (hs : ∀ labelled ∈ body.code, labelled.operator.isSupported = true)
    (ops : Operations Value) (stack : List Value) (row₁ row₂ : UInt32 → Option Value)
    {final : Framed Value} {value : Value}
    (hrun : Machine.Halts (body.framedStep ops)
      (.start stack fun index => if index < params then row₁ index else row₂ (index - params))
      .returned final)
    (hv : final.stack.head? = some value)
    (hf : StaysAbove Framed.floor ops body
      (.start stack fun index => if index < params then row₁ index else row₂ (index - params))) :
    ∃ lowering target, body.lower .empty = (.ok (), lowering) ∧
      Machine.Halts (lowering.listing.step ops.interpretation) ⟨0, stack, row₁, row₂⟩
        .returned target ∧
      target.stack.head? = some value := by
  obtain ⟨rfl, chunks, control, left, ht⟩ := exists_transcript hd
  have hl : body.lower .empty = (.ok (), (body.lower .empty).2) := by
    rw [lower_eq ht.tracks.resolved, (verdict_eq_ok_iff body).mpr hs]
  let vars : UInt32 → Option Value :=
    fun index => if index < body.params then row₁ index else row₂ (index - body.params)
  have hshares : Shares (.start stack vars) ⟨0, stack, vars⟩ :=
    ⟨⟨0, stack, vars⟩, [], [], by simp [State.onto, Framed.start], by simp [State.onto], rfl⟩
  obtain ⟨middle, hhalts, hhead⟩ := hshares.halts hf hrun
  have hc : body.Corresponds ⟨0, stack, vars⟩ ⟨0, stack, row₁, row₂⟩ := ⟨rfl, rfl, rfl⟩
  obtain ⟨target, htarget, hcorr⟩ := (ht.lowersTo hl).halts hc hhalts
  exact ⟨_, target, hl, htarget, by rw [hcorr.stack_eq, hhead, hv]⟩

/-- Sums of integers. -/
def sums : Operations Int where
  constant value := match value with
    | .i32 n => some n.toInt
    | _ => none
  operands _ := 2
  numeric op stack := match op, stack with
    | .binaryInt .i32 .add, [b, a] => some [a + b]
    | _, _ => none
  isNonzero value := value != 0

/-- A block leaves a surplus of one behind its result, and the operands that follow it are pushed
later: the sum is the same with the surplus and without. -/
theorem lower_delivers_sum :
    ∃ body lowering target, decode [0x41, 0x0A, 0x02, 0x7F, 0x41, 0x01, 0x41, 0x02, 0x0C, 0x00, 0x0B,
        0x41, 0x05, 0x6A, 0x0B] 0 = .ok body ∧
      body.lower .empty = (.ok (), lowering) ∧
      Machine.Halts (lowering.listing.step sums.interpretation)
        ⟨0, [], fun _ => none, fun _ => none⟩ .returned target ∧
      target.stack.head? = some 7 := by
  let body : Body :=
    ⟨#[⟨.plain (.const (.i32 10)), 0, 2⟩, ⟨.enter .block (.value .i32) 0, 2, 2⟩,
        ⟨.plain (.const (.i32 1)), 4, 2⟩, ⟨.plain (.const (.i32 2)), 6, 2⟩, ⟨.br ⟨0, 0⟩, 8, 2⟩,
        ⟨.close (some 0), 10, 1⟩, ⟨.plain (.const (.i32 5)), 11, 2⟩,
        ⟨.plain (.numeric (.binaryInt .i32 .add)), 13, 1⟩, ⟨.close none, 14, 1⟩],
      #[⟨.block, .value .i32, 1, none, some 5⟩], 0, false⟩
  have hd : decode [0x41, 0x0A, 0x02, 0x7F, 0x41, 0x01, 0x41, 0x02, 0x0C, 0x00, 0x0B, 0x41, 0x05,
      0x6A, 0x0B] 0 = .ok body := by
    decide +kernel
  have hs : ∀ labelled ∈ body.code, labelled.operator.isSupported = true := by decide +kernel
  let vars : UInt32 → Option Int := fun index => if index < 0 then none else none
  have ha : Machine.Advances (body.framedStep sums) 7 (.start [] vars)
      ⟨⟨8, [7, 10], vars⟩, [], 1⟩ :=
    ⟨_, rfl, _, rfl, _, rfl, _, rfl, _, rfl, _, rfl, _, rfl, rfl⟩
  have hf : StaysAbove Framed.floor sums body (.start [] vars) := by
    intro state hr
    have hm := Machine.mem_trace ha rfl hr
    have hall : ∀ state ∈ Machine.trace (body.framedStep sums) 7 (.start [] vars),
        state.floor + body.taken sums state ≤ state.stack.length := by decide +kernel
    exact hall state hm
  obtain ⟨lowering, target, hl, hh, hv⟩ :=
    lower_delivers hd hs sums [] (fun _ => none) (fun _ => none) ⟨⟨7, ha⟩, rfl⟩ rfl hf
  exact ⟨body, lowering, target, hd, hl, hh, hv⟩

/-- Where an operator takes an operand from below the block, it finds the surplus in its place. The
body returns twelve, without taking an operand from below the height of the block it is in, and the
listing returns three. -/
theorem lower_keeps_surplus :
    ∃ body lowering, decode [0x41, 0x0A, 0x02, 0x7F, 0x41, 0x01, 0x41, 0x02, 0x0C, 0x00, 0x0B, 0x6A,
        0x0B] 0 = .ok body ∧
      (∀ labelled ∈ body.code, labelled.operator.isSupported = true) ∧
      (∀ block ∈ body.blocks.toList, block.kind = .block ∧ block.type = .value .i32) ∧
      body.lower .empty = (.ok (), lowering) ∧
      StaysAbove Framed.height sums body (.start [] fun _ => none) ∧
      (∃ final, Machine.Halts (body.framedStep sums) (.start [] fun _ => none) .returned final ∧
        final.stack.head? = some 12) ∧
      ∃ target, target.stack.head? = some 3 ∧
        ∀ other, Machine.Halts (lowering.listing.step sums.interpretation)
          ⟨0, [], fun _ => none, fun _ => none⟩ .returned other ↔ other = target := by
  let body : Body :=
    ⟨#[⟨.plain (.const (.i32 10)), 0, 2⟩, ⟨.enter .block (.value .i32) 0, 2, 2⟩,
        ⟨.plain (.const (.i32 1)), 4, 2⟩, ⟨.plain (.const (.i32 2)), 6, 2⟩, ⟨.br ⟨0, 0⟩, 8, 2⟩,
        ⟨.close (some 0), 10, 1⟩, ⟨.plain (.numeric (.binaryInt .i32 .add)), 11, 1⟩,
        ⟨.close none, 12, 1⟩],
      #[⟨.block, .value .i32, 1, none, some 5⟩], 0, false⟩
  have hl : body.lower .empty = (.ok (), (body.lower .empty).2) := by decide +kernel
  have ha : Machine.Advances (body.framedStep sums) 6 (.start [] fun _ => none)
      ⟨⟨7, [12], fun _ => none⟩, [], 1⟩ :=
    ⟨_, rfl, _, rfl, _, rfl, _, rfl, _, rfl, _, rfl, rfl⟩
  have hall : ∀ state ∈ Machine.trace (body.framedStep sums) 6 (.start [] fun _ => none),
      state.height + body.taken sums state ≤ state.stack.length := by decide +kernel
  refine ⟨body, _, by decide +kernel, by decide +kernel, by decide +kernel, hl,
    fun state hr => hall state (Machine.mem_trace ha rfl hr), ⟨_, ⟨⟨6, ha⟩, rfl⟩, rfl⟩,
    ⟨6, [3, 10], fun _ => none, fun _ => none⟩, rfl, fun other => ?_⟩
  have hhalts : Machine.Halts ((body.lower .empty).2.listing.step sums.interpretation)
      ⟨0, [], fun _ => none, fun _ => none⟩ .returned
      ⟨6, [3, 10], fun _ => none, fun _ => none⟩ :=
    ⟨⟨6, _, rfl, _, rfl, _, rfl, _, rfl, _, rfl, _, rfl, rfl⟩, rfl⟩
  constructor
  · intro h
    exact h.unique hhalts
  · rintro rfl
    exact hhalts

end Body

end FlatWasm
