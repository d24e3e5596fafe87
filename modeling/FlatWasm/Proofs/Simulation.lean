import FlatWasm.Proofs.Lowering
import FlatWasm.Proofs.Machine

/-!
# Lowering preserves what a body computes

A listing that a body was lowered to runs along with the body. At each instruction that the body
comes to, the listing has come to the first of the operations that the instruction was lowered to,
with the same operands, and its two rows of variables are the one row of the body. An instruction
takes the listing up to two operations further; if it takes it no further, the body has gone on to
the next instruction, so the body cannot run ahead of the listing for ever.
-/

namespace FlatWasm

universe u

namespace Body

/-- The body and the listing stand at the same instruction, with the same operands and variables. -/
structure Corresponds {Value : Type u} (body : Body) (source : Body.State Value)
    (target : Listing.State Value) : Prop where
  pc_eq : target.pc = body.place .empty source.pc
  stack_eq : target.stack = source.stack
  vars_eq : source.vars = target.vars body.params

/-- What a successful lowering leaves to be known of the body and the listing. -/
structure LowersTo (body : Body) (listing : Listing) : Prop where
  resolved : Resolved body.code body.blocks
  supported : ∀ labelled ∈ body.code, (Lowering.ops? body 0 labelled).isSome
  ops_eq : listing.ops.toList = body.code.flatMap (Lowering.ops body 0)
  place_eq : ∀ index, body.place .empty index = Lowering.opsBefore body 0 body.code index

end Body

namespace Transcript

variable {mode : BodyMode} {cursor left : Cursor} {chunks : List Chunk} {control : Control}
  {body : Body}

theorem lowersTo (h : Transcript mode cursor chunks control body left) {lowering : Lowering}
    (hl : body.lower .empty = (.ok (), lowering)) : body.LowersTo lowering.listing := by
  have hres := h.tracks.resolved
  have hn : openedLabels body.code = List.range body.blocks.size := hres.openedLabels_eq
  obtain ⟨hall, hsync⟩ := (Lowering.InSync.start body .empty).run hn hl
  refine ⟨hres, ?_, hsync.ops_eq, ?_⟩
  · rw [Body.code, List.forall_mem_map]
    exact hall
  · intro index
    exact (Body.place_eq hn hl index).trans (Nat.zero_add _)

end Transcript

namespace Body.LowersTo

variable {body : Body} {listing : Listing} {index : Nat} {labelled : Labelled}

theorem place_succ (l : body.LowersTo listing) (hc : body.code[index]? = some labelled) :
    body.place .empty (index + 1) =
      body.place .empty index + (Lowering.ops body 0 labelled).length := by
  rw [l.place_eq, l.place_eq, Lowering.opsBefore_succ hc]

/-- The operations of an instruction stand at its place. -/
theorem ops_at (l : body.LowersTo listing) (hc : body.code[index]? = some labelled) (offset : Nat)
    (ho : offset < (Lowering.ops body 0 labelled).length) :
    listing.ops.toList[body.place .empty index + offset]? =
      (Lowering.ops body 0 labelled)[offset]? := by
  rw [l.ops_eq, l.place_eq]
  exact Lowering.getElem?_flatMap_ops hc offset ho

/-- An instruction that is lowered to one operation. -/
theorem single (l : body.LowersTo listing) (hc : body.code[index]? = some labelled)
    {op : Listing.Op} (ho : Lowering.ops body 0 labelled = [op]) :
    listing.ops.toList[body.place .empty index]? = some op ∧
      body.place .empty (index + 1) = body.place .empty index + 1 := by
  constructor
  · have hat := l.ops_at hc 0 (by rw [ho]; exact Nat.one_pos)
    rwa [Nat.add_zero, ho] at hat
  · rw [l.place_succ hc, ho, List.length_singleton]

theorem ops_end (l : body.LowersTo listing) (hc : body.code[index]? = none) :
    listing.ops.toList[body.place .empty index]? = none := by
  rw [List.getElem?_eq_none_iff] at hc ⊢
  rw [l.place_eq, l.ops_eq, Lowering.opsBefore, List.take_of_length_le hc]

/-! ## Marks -/

theorem ops_take (l : body.LowersTo listing) (index : Nat) :
    listing.ops.toList.take (body.place .empty index) =
      (body.code.take index).flatMap (Lowering.ops body 0) := by
  have hsplit : body.code.flatMap (Lowering.ops body 0) =
      (body.code.take index).flatMap (Lowering.ops body 0) ++
        (body.code.drop index).flatMap (Lowering.ops body 0) := by
    rw [← List.flatMap_append, List.take_append_drop]
  rw [l.ops_eq, l.place_eq, Lowering.opsBefore, hsplit, List.take_left]

/-- The mark of a label stands at the one instruction that emits it. -/
theorem marked?_eq (l : body.LowersTo listing) {label : Label}
    (hc : body.code[index]? = some labelled) (ho : Lowering.ops body 0 labelled = [.mark label])
    (hu : ∀ (other : Nat) labelled', body.code[other]? = some labelled' →
      .mark label ∈ Lowering.ops body 0 labelled' → other = index) :
    listing.marked? label = some (body.place .empty index) := by
  obtain ⟨hlt, hget⟩ := List.getElem?_eq_some_iff.mp (l.single hc ho).1
  refine List.idxOf?_eq_some_iff.mpr ⟨hlt, hget, ?_⟩
  intro before hb hmark
  have hmem : Listing.Op.mark label ∈ listing.ops.toList.take (body.place .empty index) :=
    List.mem_take_iff_getElem.mpr ⟨before, by omega, hmark⟩
  rw [l.ops_take, List.mem_flatMap] at hmem
  obtain ⟨labelled', hm, hin⟩ := hmem
  obtain ⟨other, hother, hget'⟩ := List.mem_take_iff_getElem.mp hm
  have heq := hu other labelled' (List.getElem?_eq_some_iff.mpr ⟨by omega, hget'⟩) hin
  omega

/-- A branch to a block goes on behind the instruction at `site`, which is lowered to the mark of
its label. -/
structure Landing (body : Body) (listing : Listing) (label : Label) (site : Nat) : Prop where
  continuation_eq : body.continuation label = some (site + 1)
  marked_eq : listing.marked? label = some (body.place .empty site)
  op_eq : listing.ops.toList[body.place .empty site]? = some (.mark label)
  place_succ : body.place .empty (site + 1) = body.place .empty site + 1

theorem landing (l : body.LowersTo listing) {label : Label} {block : Block}
    (hb : body.blocks[label]? = some block) : ∃ site, Landing body listing label site := by
  obtain ⟨last, he, -, hclose⟩ := l.resolved.end_iff label block hb
  have hstart := l.resolved.start_iff label block hb
  have hopen := (hstart block.start block.kind block.type).mpr ⟨rfl, rfl, rfl⟩
  obtain ⟨kind, type, start, elseAt, endAt⟩ := block
  obtain rfl : endAt = some last := he
  cases kind with
  | loop =>
    have ho : Lowering.ops body 0 (.enter .loop type label) = [.mark label] := by
      simp [Lowering.ops, Lowering.ops?]
    obtain ⟨hat, hsucc⟩ := l.single hopen ho
    refine ⟨start, by simp [continuation, hb], l.marked?_eq hopen ho ?_, hat, hsucc⟩
    intro other labelled hc hm
    rcases Lowering.mark_mem_ops (by rwa [Nat.zero_add]) with ⟨type', rfl⟩ | ⟨-, hk⟩
    · exact ((hstart other .loop type').mp hc).1
    · simp [hb] at hk
  | block =>
    have hend := (hclose last).mpr rfl
    have ho : Lowering.ops body 0 (.close (some label)) = [.mark label] := by
      simp [Lowering.ops, Lowering.ops?, hb]
    obtain ⟨hat, hsucc⟩ := l.single hend ho
    refine ⟨last, by simp [continuation, hb], l.marked?_eq hend ho ?_, hat, hsucc⟩
    intro other labelled hc hm
    rcases Lowering.mark_mem_ops (by rwa [Nat.zero_add]) with ⟨type', rfl⟩ | ⟨rfl, -⟩
    · cases ((hstart other .loop type').mp hc).2.1
    · exact (hclose other).mp hc
  | cond =>
    -- its opening could not have been lowered
    have hs := l.supported _ (List.mem_of_getElem? hopen)
    cases hs

end Body.LowersTo

/-! ## One instruction -/

variable {Value : Type u} {body : Body} {listing : Listing} {interp : Interpretation Value}
  {source : Body.State Value} {target : Listing.State Value}

namespace Listing.State

theorem vars_apply (target : State Value) (params index : UInt32) :
    target.vars params index = target.read (Lowering.slot params index) := by
  unfold vars Lowering.slot
  split <;> rfl

theorem vars_write (target : State Value) (params index : UInt32) (value : Value) :
    (target.write value (Lowering.slot params index)).vars params =
      Function.update (target.vars params) index (some value) := by
  funext other
  by_cases hi : index < params <;> by_cases ho : other = index
  · subst ho
    simp [Lowering.slot, write, vars, hi]
  · simp [Lowering.slot, write, vars, hi, ho]
  · subst ho
    simp [Lowering.slot, write, vars, hi]
  · simp [Lowering.slot, write, vars, hi, ho]

theorem write_pc (target : State Value) (value : Value) (slot : Slot) :
    (target.write value slot).pc = target.pc := by
  cases slot <;> rfl

theorem read_write (target : State Value) (value : Value) (slot : Slot) (stack : List Value) :
    { target.write value slot with stack }.read slot = some value := by
  cases slot <;> simp [write, read]

end Listing.State

namespace Body

/-- Both machines halt for the same reason, or go on to corresponding states. -/
inductive Agrees (body : Body) :
    Except Halt (Body.State Value) → Except Halt (Listing.State Value) → Prop
  | halt (reason : Halt) : Agrees body (.error reason) (.error reason)
  | go {source : Body.State Value} {target : Listing.State Value}
    (h : body.Corresponds source target) : Agrees body (.ok source) (.ok target)

namespace Corresponds

theorem next (c : body.Corresponds source target)
    (hp : body.place .empty (source.pc + 1) = body.place .empty source.pc + 1) :
    body.Corresponds source.next target.next :=
  ⟨by rw [Listing.State.next, Body.State.next, hp, c.pc_eq], c.stack_eq, c.vars_eq⟩

theorem operands (c : body.Corresponds source target)
    (hp : body.place .empty (source.pc + 1) = body.place .empty source.pc + 1)
    (stack : Option (List Value)) :
    body.Agrees (source.operands stack) (target.operands stack) := by
  cases stack with
  | none => exact .halt .stuck
  | some stack => exact .go ⟨(c.next hp).pc_eq, rfl, c.vars_eq⟩

theorem assign (c : body.Corresponds source target)
    (hp : body.place .empty (source.pc + 1) = body.place .empty source.pc + 1) (index : UInt32)
    (value : Value) (stack : List Value) :
    body.Agrees (source.assign index value stack)
      (target.assign (Lowering.slot body.params index) value stack) := by
  have hv : source.vars index = target.read (Lowering.slot body.params index) := by
    rw [c.vars_eq, Listing.State.vars_apply]
  unfold State.assign Listing.State.assign
  rw [hv]
  cases target.read (Lowering.slot body.params index) with
  | none => exact .halt .stuck
  | some old =>
    refine .go ⟨?_, rfl, ?_⟩
    · exact (target.next.write_pc value _).trans (c.next hp).pc_eq
    · rw [c.vars_eq]
      exact (target.next.vars_write body.params index value).symm

end Corresponds

/-- What the listing does for one step of the body. If it does nothing, the body has gone on to the
next instruction. -/
def Matched (body : Body) (listing : Listing) (interp : Interpretation Value)
    (source : Body.State Value) (target : Listing.State Value) :
    Except Halt (Body.State Value) → Prop
  | .error reason => listing.step interp target = .error reason
  | .ok source' => ∃ count target', Machine.Advances (listing.step interp) count target target' ∧
      body.Corresponds source' target' ∧ (count = 0 → source'.pc = source.pc + 1)

theorem Agrees.matched {result : Except Halt (Body.State Value)}
    (h : body.Agrees result (listing.step interp target)) :
    body.Matched listing interp source target result := by
  generalize hs : listing.step interp target = result' at h
  cases h with
  | halt reason => exact hs
  | go hc => exact ⟨1, _, ⟨_, hs, rfl⟩, hc, by omega⟩

/-- A jump to a block, and the mark at which it lands. -/
theorem LowersTo.Landing.jumps {label : Label} {site : Nat}
    (h : LowersTo.Landing body listing label site) (interp : Interpretation Value)
    (source : Body.State Value) (target : Listing.State Value) :
    source.jump (body.continuation label) = .ok { source with pc := site + 1 } ∧
      target.jump (listing.marked? label) = .ok { target with pc := body.place .empty site } ∧
      listing.step interp { target with pc := body.place .empty site } =
        .ok { target with pc := body.place .empty (site + 1) } := by
  rw [h.continuation_eq, h.marked_eq, Listing.step, h.op_eq, h.place_succ]
  exact ⟨rfl, rfl, rfl⟩

namespace LowersTo

theorem step_single (l : body.LowersTo listing) (c : body.Corresponds source target)
    {labelled : Labelled} (hc : body.code[source.pc]? = some labelled) {op : Listing.Op}
    (ho : Lowering.ops body 0 labelled = [op]) :
    listing.step interp target = listing.perform interp target op := by
  rw [Listing.step, c.pc_eq, (l.single hc ho).1]

/-- An instruction that is lowered to one operation is matched by it. -/
theorem matched_single (l : body.LowersTo listing) (c : body.Corresponds source target)
    {labelled : Labelled} (hc : body.code[source.pc]? = some labelled) {op : Listing.Op}
    (ho : Lowering.ops body 0 labelled = [op]) {result : Except Halt (Body.State Value)}
    (h : body.place .empty (source.pc + 1) = body.place .empty source.pc + 1 →
      body.Agrees result (listing.perform interp target op)) :
    body.Matched listing interp source target result := by
  apply Agrees.matched
  rw [l.step_single c hc ho]
  exact h (l.single hc ho).2

/-- An instruction that is lowered to nothing. -/
theorem matched_none (l : body.LowersTo listing) (c : body.Corresponds source target)
    {labelled : Labelled} (hc : body.code[source.pc]? = some labelled)
    (ho : Lowering.ops body 0 labelled = []) :
    body.Matched listing interp source target (.ok source.next) := by
  refine ⟨0, target, rfl, ⟨?_, c.stack_eq, c.vars_eq⟩, fun _ => rfl⟩
  rw [c.pc_eq, State.next, l.place_succ hc, ho, List.length_nil, Nat.add_zero]

/-- A value that is stored and kept on the stack is loaded again from its slot. -/
theorem matched_tee (l : body.LowersTo listing) (c : body.Corresponds source target)
    {index : UInt32}
    (hc : body.code[source.pc]? = some (.plain (.variable .teeLocal index))) :
    body.Matched listing interp source target
      (source.plain interp (.variable .teeLocal index)) := by
  let slot := Lowering.slot body.params index
  have ho : Lowering.ops body 0 (.plain (.variable .teeLocal index)) = [.store slot, .load slot] :=
    rfl
  have hstore : listing.ops.toList[target.pc]? = some (.store slot) := by
    rw [c.pc_eq]
    exact l.ops_at hc 0 Nat.two_pos
  have hload : listing.ops.toList[target.pc + 1]? = some (.load slot) := by
    rw [c.pc_eq]
    exact l.ops_at hc 1 Nat.one_lt_two
  have hp : body.place .empty (source.pc + 1) = body.place .empty source.pc + 2 := by
    rw [l.place_succ hc, ho]
    rfl
  have hv : source.vars index = target.read slot := by
    rw [c.vars_eq, Listing.State.vars_apply]
  have hfirst : listing.step interp target = listing.perform interp target (.store slot) := by
    rw [Listing.step, hstore]
  rw [Listing.perform, c.stack_eq] at hfirst
  rw [State.plain]
  cases hst : source.stack with
  | nil =>
    rw [hst] at hfirst
    exact hfirst
  | cons value stack =>
    simp only [hst, Listing.State.assign] at hfirst
    simp only [State.assign, hv]
    cases hr : target.read slot with
    | none =>
      rw [hr] at hfirst
      exact hfirst
    | some old =>
      simp only [hr] at hfirst
      let first : Listing.State Value := { target.next.write value slot with stack }
      let second : Listing.State Value := { first.next with stack := value :: stack }
      have hpc : first.pc = target.pc + 1 := target.next.write_pc value slot
      have hread : first.read slot = some value := target.next.read_write value slot stack
      have hsecond : listing.step interp first = .ok second := by
        rw [Listing.step, hpc, hload]
        dsimp only
        rw [Listing.perform, hread]
        rfl
      refine ⟨2, second, ⟨first, hfirst, second, hsecond, rfl⟩, ⟨?_, rfl, ?_⟩, by omega⟩
      · change first.pc + 1 = body.place .empty (source.pc + 1)
        rw [hpc, hp, c.pc_eq]
      · rw [c.vars_eq]
        exact (target.next.vars_write body.params index value).symm

theorem matched_plain (l : body.LowersTo listing) (c : body.Corresponds source target)
    {plain : Plain} (hc : body.code[source.pc]? = some (.plain plain)) :
    body.Matched listing interp source target (source.plain interp plain) := by
  have hs := l.supported _ (List.mem_of_getElem? hc)
  cases plain with
  | unreachable => exact l.matched_single c hc rfl fun _ => .halt .trapped
  | nop => exact l.matched_none c hc rfl
  | ret => exact l.matched_single c hc rfl fun _ => .halt .returned
  | «variable» op index =>
    cases op with
    | getLocal =>
      refine l.matched_single c hc rfl fun hp => ?_
      rw [State.plain, Listing.perform, c.vars_eq, Listing.State.vars_apply, c.stack_eq]
      exact c.operands hp _
    | setLocal =>
      refine l.matched_single c hc rfl fun hp => ?_
      rw [State.plain, Listing.perform, c.stack_eq]
      cases source.stack with
      | nil => exact .halt .stuck
      | cons value stack => exact c.assign hp index value stack
    | teeLocal => exact l.matched_tee c hc
    | getGlobal => cases hs
    | setGlobal => cases hs
  | const value =>
    refine l.matched_single c hc rfl fun hp => ?_
    rw [State.plain, Listing.perform, c.stack_eq]
    exact c.operands hp _
  | numeric op =>
    obtain ⟨emitted, ho⟩ := Option.isSome_iff_exists.mp hs
    obtain ⟨primitive, hprim, rfl⟩ := Option.map_eq_some_iff.mp ho
    refine l.matched_single c hc (by rw [Lowering.ops, ho]; rfl) fun hp => ?_
    rw [State.plain, Listing.perform, NumericOp.operator_of_primitive? hprim, c.stack_eq]
    exact c.operands hp _
  | call function => cases hs
  | callIndirect type => cases hs
  | parametric op => cases hs
  | memory op arg => cases hs
  | memorySize op => cases hs

/-- A label in the body names a block that has its record. -/
theorem exists_landing (l : body.LowersTo listing) {index : Nat} {labelled : Labelled}
    (hc : body.code[index]? = some labelled) {target : Target} (ht : target ∈ labelled.targets) :
    ∃ site, Landing body listing target.label site := by
  obtain ⟨block, hb, -⟩ := (l.resolved.target_iff index labelled target hc ht _).mpr rfl
  exact l.landing hb

/-- A jump is matched by the jump of the listing and the mark at which it lands. -/
theorem matched_jump {label : Label} {site : Nat} (hl : Landing body listing label site)
    {origin : Body.State Value} {jumping : Listing.State Value}
    (hs : jumping.stack = source.stack) (hv : source.vars = jumping.vars body.params)
    (h : listing.step interp target = jumping.jump (listing.marked? label)) :
    body.Matched listing interp origin target (source.jump (body.continuation label)) := by
  obtain ⟨hsource, htarget, hmark⟩ := hl.jumps interp source jumping
  rw [hsource]
  exact ⟨2, _, ⟨_, h.trans htarget, _, hmark, rfl⟩, ⟨rfl, hs, hv⟩, by omega⟩

theorem matched_ending (l : body.LowersTo listing) (c : body.Corresponds source target)
    {label : Label} (hc : body.code[source.pc]? = some (.close (some label))) :
    body.Matched listing interp source target (body.ending source label) := by
  have hs := l.supported _ (List.mem_of_getElem? hc)
  rw [Lowering.ops?] at hs
  unfold Body.ending
  cases hb : body.blocks[label]? with
  | none =>
    rw [hb] at hs
    cases hs
  | some block =>
    rw [hb] at hs
    cases hk : block.kind with
    | loop =>
      obtain ⟨site, hl⟩ := l.landing hb
      have ho : Lowering.ops body 0 (.close (some label)) = [.jump label] := by
        simp [Lowering.ops, Lowering.ops?, hb, hk]
      rw [Option.map_some, hk]
      exact matched_jump hl c.stack_eq c.vars_eq (l.step_single c hc ho)
    | block =>
      have ho : Lowering.ops body 0 (.close (some label)) = [.mark label] := by
        simp [Lowering.ops, Lowering.ops?, hb, hk]
      rw [Option.map_some, hk]
      exact l.matched_single c hc ho fun hp => .go (c.next hp)
    | cond =>
      rw [Option.map_some, hk] at hs
      cases hs

theorem matched_jumpIf (l : body.LowersTo listing) (c : body.Corresponds source target)
    {branch : Target} (hc : body.code[source.pc]? = some (.brIf branch)) :
    body.Matched listing interp source target
      (source.jumpIf interp (body.continuation branch.label)) := by
  obtain ⟨site, hl⟩ := l.exists_landing hc (List.mem_singleton_self branch)
  have ho : Lowering.ops body 0 (.brIf branch) = [.jumpIf branch.label] := by
    simp [Lowering.ops, Lowering.ops?]
  have hstep : listing.step interp target = target.jumpIf interp (listing.marked? branch.label) :=
    l.step_single c hc ho
  unfold Listing.State.jumpIf at hstep
  unfold State.jumpIf
  rw [c.stack_eq] at hstep
  cases hst : source.stack with
  | nil =>
    rw [hst] at hstep
    exact hstep
  | cons value stack =>
    rw [hst] at hstep
    dsimp only at hstep ⊢
    by_cases hz : interp.isNonzero value
    · rw [if_pos hz] at hstep ⊢
      refine matched_jump hl ?_ ?_ hstep
      · rfl
      · exact c.vars_eq
    · rw [if_neg hz] at hstep ⊢
      have hpc := (c.next (l.single hc ho).2).pc_eq
      exact ⟨1, _, ⟨_, hstep, rfl⟩, ⟨hpc, rfl, c.vars_eq⟩, by omega⟩

/-- Every step of the body is matched by the listing. -/
theorem matched (l : body.LowersTo listing) (c : body.Corresponds source target) :
    body.Matched listing interp source target (body.step interp source) := by
  unfold Body.step
  cases hc : body.code[source.pc]? with
  | none =>
    change listing.step interp target = _
    rw [Listing.step, c.pc_eq, l.ops_end hc]
  | some labelled =>
    have hs := l.supported _ (List.mem_of_getElem? hc)
    cases labelled with
    | plain plain => exact l.matched_plain c hc
    | enter kind type label =>
      cases kind with
      | block => exact l.matched_none c hc rfl
      | loop => exact l.matched_single c hc rfl fun hp => .go (c.next hp)
      | cond => cases hs
    | otherwise label => cases hs
    | close label =>
      cases label with
      | none => exact l.matched_single c hc rfl fun _ => .halt .returned
      | some label => exact l.matched_ending c hc
    | br branch =>
      obtain ⟨site, hl⟩ := l.exists_landing hc (List.mem_singleton_self branch)
      have ho : Lowering.ops body 0 (.br branch) = [.jump branch.label] := by
        simp [Lowering.ops, Lowering.ops?]
      exact matched_jump hl c.stack_eq c.vars_eq (l.step_single c hc ho)
    | brIf branch => exact l.matched_jumpIf c hc
    | brTable targets default => cases hs

/-! ## Runs -/

open Machine

theorem lt_length_of_step {next : Body.State Value} (h : body.step interp source = .ok next) :
    source.pc < body.code.length := by
  rw [← not_le, ← List.getElem?_eq_none_iff]
  intro hc
  unfold Body.step at h
  rw [hc] at h
  cases h

/-- Wherever the body comes, the listing comes along. -/
theorem reaches (l : body.LowersTo listing) (c : body.Corresponds source target)
    {source' : Body.State Value} (h : Reaches (body.step interp) source source') :
    ∃ target', Reaches (listing.step interp) target target' ∧ body.Corresponds source' target' := by
  obtain ⟨count, h⟩ := h
  induction count generalizing source target with
  | zero =>
    obtain rfl : source = source' := h
    exact ⟨target, ⟨0, rfl⟩, c⟩
  | succ count ih =>
    obtain ⟨next, hs, h⟩ := h
    have hm : body.Matched listing interp source target (body.step interp source) := l.matched c
    rw [hs] at hm
    obtain ⟨steps, middle, ha, hc, -⟩ := hm
    obtain ⟨target', hr, hc'⟩ := ih hc h
    exact ⟨target', Reaches.trans ⟨steps, ha⟩ hr, hc'⟩

theorem halts (l : body.LowersTo listing) (c : body.Corresponds source target) {reason : Halt}
    {source' : Body.State Value} (h : Halts (body.step interp) source reason source') :
    ∃ target', Halts (listing.step interp) target reason target' ∧
      body.Corresponds source' target' := by
  obtain ⟨target', hr, hc⟩ := l.reaches c h.1
  have hm : body.Matched listing interp source' target' (body.step interp source') := l.matched hc
  rw [h.2] at hm
  exact ⟨target', ⟨hr, hm⟩, hc⟩

/-- Where the listing halts, the body has halted. Each instruction of the body takes the listing on,
or else takes the body one instruction nearer to its end. -/
theorem halted (l : body.LowersTo listing) (c : body.Corresponds source target) {reason : Halt}
    {target' : Listing.State Value} {count : Nat}
    (ha : Advances (listing.step interp) count target target')
    (hh : listing.step interp target' = .error reason) :
    ∃ source', Halts (body.step interp) source reason source' ∧
      body.Corresponds source' target' := by
  -- on the operations left to run, and within that on the instructions ahead
  induction count using Nat.strong_induction_on generalizing source target with
  | _ count ihc =>
  induction hn : body.code.length - source.pc using Nat.strong_induction_on generalizing source with
  | _ ahead ihp =>
  have hm : body.Matched listing interp source target (body.step interp source) := l.matched c
  cases hs : body.step interp source with
  | error reason' =>
    rw [hs] at hm
    cases count with
    | zero =>
      obtain rfl : target = target' := ha
      obtain rfl : reason' = reason := Except.error.inj (hm.symm.trans hh)
      exact ⟨source, ⟨⟨0, rfl⟩, hs⟩, c⟩
    | succ count =>
      obtain ⟨next, hnext, -⟩ := ha
      cases hm.symm.trans hnext
  | ok next =>
    rw [hs] at hm
    obtain ⟨steps, middle, hsteps, hc, hzero⟩ := hm
    have hrest : ∃ source', Halts (body.step interp) next reason source' ∧
        body.Corresponds source' target' := by
      cases steps with
      | zero =>
        obtain rfl : target = middle := hsteps
        have hlt := lt_length_of_step hs
        have hpc := hzero rfl
        exact ihp (body.code.length - next.pc) (by omega) hc rfl
      | succ steps =>
        obtain ⟨more, rfl, hmore⟩ := hsteps.of_halt ha hh
        exact ihc more (by omega) hc hmore
    obtain ⟨source', hhalt, hc'⟩ := hrest
    exact ⟨source', Reaches.halts ⟨1, next, hs, rfl⟩ hhalt, hc'⟩

end LowersTo

/-- The listing computes what the body computes. -/
structure Simulates (body : Body) (listing : Listing) (interp : Interpretation Value)
    (source : Body.State Value) (target : Listing.State Value) : Prop where
  reaches : ∀ source', Machine.Reaches (body.step interp) source source' →
    ∃ target', Machine.Reaches (listing.step interp) target target' ∧
      body.Corresponds source' target'
  halts : ∀ reason source', Machine.Halts (body.step interp) source reason source' →
    ∃ target', Machine.Halts (listing.step interp) target reason target' ∧
      body.Corresponds source' target'
  halted : ∀ reason target', Machine.Halts (listing.step interp) target reason target' →
    ∃ source', Machine.Halts (body.step interp) source reason source' ∧
      body.Corresponds source' target'
  runsForever_iff : Machine.RunsForever (body.step interp) source ↔
    Machine.RunsForever (listing.step interp) target

theorem LowersTo.simulates (l : body.LowersTo listing) (interp : Interpretation Value)
    (c : body.Corresponds source target) : body.Simulates listing interp source target where
  reaches _ h := l.reaches c h
  halts _ _ h := l.halts c h
  halted _ _ h := by
    obtain ⟨⟨count, ha⟩, hh⟩ := h
    exact l.halted c ha hh
  runsForever_iff := by
    rw [Machine.runsForever_iff, Machine.runsForever_iff]
    constructor
    · rintro hforever reason target' ⟨⟨count, ha⟩, hh⟩
      obtain ⟨source', hhalts, -⟩ := l.halted c ha hh
      exact hforever reason source' hhalts
    · intro hforever reason source' h
      obtain ⟨target', hhalts, -⟩ := l.halts c h
      exact hforever reason target' hhalts

/-- A function that was read and lowered, and its listing, started with the same operands and
variables: wherever the function comes, the listing comes along; both halt for the same reason with
the same operands and variables, or both run for ever. -/
theorem lower_simulates {bytes : List UInt8} {params : UInt32} {lowering : Lowering}
    (hd : decode bytes params = .ok body) (hl : body.lower .empty = (.ok (), lowering))
    (interp : Interpretation Value) (stack : List Value) (row₁ row₂ : UInt32 → Option Value) :
    body.Simulates lowering.listing interp
      ⟨0, stack, fun index => if index < params then row₁ index else row₂ (index - params)⟩
      ⟨0, stack, row₁, row₂⟩ := by
  obtain ⟨rfl, chunks, control, left, ht⟩ := exists_transcript hd
  exact (ht.lowersTo hl).simulates interp ⟨rfl, rfl, rfl⟩

/-- A loop that counts its parameter down, lowered and run over the integers from one. -/
theorem lower_simulates_countdown :
    let interp : Interpretation Int :=
      { constant := fun value stack => match value with
          | .i32 n => some (n.toInt :: stack)
          | _ => none
        numeric := fun op stack => match op, stack with
          | .eqz .i32, a :: stack => some ((if a = 0 then 1 else 0) :: stack)
          | .binaryInt .i32 .sub, b :: a :: stack => some ((a - b) :: stack)
          | _, _ => none
        isNonzero := (· != 0) }
    let row₁ : UInt32 → Option Int := fun index => if index = 0 then some 1 else none
    let row₂ : UInt32 → Option Int := fun index => if index = 0 then some 7 else none
    ∃ body lowering, decode [0x02, 0x40, 0x03, 0x40, 0x20, 0x00, 0x45, 0x0D, 0x01, 0x20, 0x00, 0x41,
        0x01, 0x6B, 0x21, 0x00, 0x0B, 0x0B, 0x20, 0x00, 0x22, 0x01, 0x0B] 1 = .ok body ∧
      body.lower .empty = (.ok (), lowering) ∧
      ∃ target, Machine.Halts (lowering.listing.step interp) ⟨0, [], row₁, row₂⟩ .returned target ∧
        target.stack = [0] ∧ target.locals 0 = some 0 := by
  intro interp row₁ row₂
  let body : Body :=
    ⟨#[⟨.enter .block .empty 0, 0, 2⟩, ⟨.enter .loop .empty 1, 2, 2⟩,
        ⟨.plain (.variable .getLocal 0), 4, 2⟩, ⟨.plain (.numeric (.eqz .i32)), 6, 1⟩,
        ⟨.brIf ⟨1, 0⟩, 7, 2⟩, ⟨.plain (.variable .getLocal 0), 9, 2⟩,
        ⟨.plain (.const (.i32 1)), 11, 2⟩, ⟨.plain (.numeric (.binaryInt .i32 .sub)), 13, 1⟩,
        ⟨.plain (.variable .setLocal 0), 14, 2⟩, ⟨.close (some 1), 16, 1⟩,
        ⟨.close (some 0), 17, 1⟩, ⟨.plain (.variable .getLocal 0), 18, 2⟩,
        ⟨.plain (.variable .teeLocal 1), 20, 2⟩, ⟨.close none, 22, 1⟩],
      #[⟨.block, .empty, 0, none, some 10⟩, ⟨.loop, .empty, 1, none, some 9⟩], 1, false⟩
  have hd : decode [0x02, 0x40, 0x03, 0x40, 0x20, 0x00, 0x45, 0x0D, 0x01, 0x20, 0x00, 0x41,
      0x01, 0x6B, 0x21, 0x00, 0x0B, 0x0B, 0x20, 0x00, 0x22, 0x01, 0x0B] 1 = .ok body := by
    decide +kernel
  have hl : body.lower .empty = (.ok (), (body.lower .empty).2) := by decide +kernel
  let vars : UInt32 → Option Int := fun index => if index < 1 then row₁ index else row₂ (index - 1)
  have hrun : Machine.Halts (body.step interp) ⟨0, [], vars⟩ .returned
      ⟨13, [0], Function.update (Function.update vars 0 (some 0)) 1 (some 0)⟩ :=
    ⟨⟨15, _, rfl, _, rfl, _, rfl, _, rfl, _, rfl, _, rfl, _, rfl, _, rfl, _, rfl, _, rfl, _, rfl,
      _, rfl, _, rfl, _, rfl, _, rfl, rfl⟩, rfl⟩
  obtain ⟨target, hhalts, hc⟩ := (lower_simulates hd hl interp [] row₁ row₂).halts _ _ hrun
  have hlocal := congrFun hc.vars_eq 1
  exact ⟨body, _, hd, hl, target, hhalts, hc.stack_eq,
    by simpa [Listing.State.vars, body] using hlocal.symm⟩

end Body

end FlatWasm
