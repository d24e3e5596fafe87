import FlatWasm.Proofs.Resolution

/-!
# Control states under any calls

A control state is made for one caller, the reading of a body, but what it keeps does not rest on that
caller. Whatever calls are made on a new state, in whatever order, with whatever arguments and however
many of them fail, the open blocks, the records and the depth stay in step with each other and with
the calls made so far. `Event` remembers a call with the state it was made on and its answer; the
invariant speaks of a row of events and the state behind them.
-/

namespace FlatWasm.Control

/-- A call on a control state, with its arguments. -/
inductive Call where
  | enter (kind : BlockKind) (type : BlockType) (index : Nat)
  | resolve (depth : UInt32)
  | otherwise (index : Nat)
  | close (index : Nat)
deriving DecidableEq

inductive Answer where
  | entered (result : Except DecodeError Label)
  | resolved (result : Except DecodeError Target)
  | divided (result : Except DecodeError Label)
  | closed (label : Option Label)

def perform (control : Control) : Call → Answer × Control
  | .enter kind type index =>
    let (result, next) := control.enter kind type index
    (.entered result, next)
  | .resolve depth => (.resolved (control.resolve depth), control)
  | .otherwise index =>
    let (result, next) := control.otherwise index
    (.divided result, next)
  | .close index =>
    let (label, next) := control.close index
    (.closed label, next)

/-- A call, the state on which it was made, and its answer. -/
structure Event where
  before : Control
  call : Call
  answer : Answer

namespace Event

/-- The arguments of an opening that succeeded, and the label it returned. -/
def opening : Event → Option (BlockKind × BlockType × Nat × Label)
  | ⟨_, .enter kind type index, .entered (.ok label)⟩ => some (kind, type, index, label)
  | _ => none

def isClose : Event → Bool
  | ⟨_, .close _, _⟩ => true
  | _ => false

/-- A close made when no block was open. -/
def isEmptyClose (event : Event) : Bool := event.isClose && event.before.isEmpty

end Event

/-- The state behind calls made one after another. -/
def after (control : Control) (calls : List Call) : Control :=
  calls.foldl (fun state call => (state.perform call).2) control

def events : Control → List Call → List Event
  | _, [] => []
  | control, call :: rest =>
    ⟨control, call, (control.perform call).1⟩ :: events (control.perform call).2 rest

theorem after_append (control : Control) (calls more : List Call) :
    control.after (calls ++ more) = (control.after calls).after more :=
  List.foldl_append

/-! ## One call -/

/-- Everything that a call can do. A call that fails does nothing. -/
inductive Outcome (control : Control) : Call → Answer → Control → Prop
  | entered (kind : BlockKind) (type : BlockType) (index : Nat)
    (nested : control.openCount < maxNesting) :
    Outcome control (.enter kind type index) (.entered (.ok control.blocks.size))
      (control.opened kind type index)
  | tooDeep (kind : BlockKind) (type : BlockType) (index : Nat) (error : DecodeError) :
    Outcome control (.enter kind type index) (.entered (.error error)) control
  | resolved (depth : UInt32) :
    Outcome control (.resolve depth) (.resolved (control.resolve depth)) control
  | divided (index : Nat) (label : Label) (outer : List OpenBlock)
    (innermost : control.openBlocks = ⟨label, .cond, false⟩ :: outer) :
    Outcome control (.otherwise index) (.divided (.ok label)) (control.divided label outer index)
  | misplaced (index : Nat) (error : DecodeError) :
    Outcome control (.otherwise index) (.divided (.error error)) control
  | closed (index : Nat) (block : OpenBlock) (outer : List OpenBlock)
    (innermost : control.openBlocks = block :: outer) :
    Outcome control (.close index) (.closed (some block.label))
      (control.closed block.label outer index)
  | unmatched (index : Nat) (empty : control.openBlocks = []) :
    Outcome control (.close index) (.closed none) { control with depth := control.depth - 1 }

theorem outcome_otherwise (control : Control) (index : Nat) :
    Outcome control (.otherwise index) (control.perform (.otherwise index)).1
      (control.perform (.otherwise index)).2 := by
  rw [perform, Control.otherwise]
  cases ho : control.openBlocks with
  | nil => exact .misplaced index _
  | cons block outer =>
    obtain ⟨label, kind, hasElse⟩ := block
    by_cases hk : kind = .cond
    · subst hk
      cases hasElse with
      | true => exact .misplaced index _
      | false => exact .divided index label outer ho
    · simp only [hk, ne_eq, not_false_eq_true, if_true]
      exact .misplaced index _

theorem outcome_perform (control : Control) (call : Call) :
    Outcome control call (control.perform call).1 (control.perform call).2 := by
  cases call with
  | enter kind type index =>
    rw [perform, Control.enter]
    by_cases hn : maxNesting ≤ control.openCount
    · rw [if_pos hn]
      exact .tooDeep kind type index _
    · rw [if_neg hn]
      exact .entered kind type index (Nat.lt_of_not_le hn)
  | resolve depth => exact .resolved depth
  | otherwise index => exact control.outcome_otherwise index
  | close index =>
    rw [perform, Control.close]
    cases ho : control.openBlocks with
    | nil =>
      have h := @Outcome.unmatched control index ho
      simpa only [ho] using h
    | cons block outer => exact .closed index block outer ho

/-! ## The invariant -/

/-- What is true of a control state behind the events. The labels of the open blocks are given with
the innermost first. -/
structure Consistent (events : List Event) (control : Control) : Prop where
  openings : events.filterMap Event.opening = control.blocks.toList.zipIdx.map
    fun (block, label) => (block.kind, block.type, block.start, label)
  decreasing : (control.openBlocks.map OpenBlock.label).Pairwise (· > ·)
  open_iff : ∀ (label : Label) (block : Block), control.blocks[label]? = some block →
    (block.endAt = none ↔ label ∈ control.openBlocks.map OpenBlock.label)
  entries : ∀ entry ∈ control.openBlocks, ∃ block, control.blocks[entry.label]? = some block ∧
    block.kind = entry.kind ∧ block.elseAt.isSome = entry.hasElse
  elses : ∀ (label : Label) (block : Block), control.blocks[label]? = some block →
    block.elseAt.isSome = true → block.kind = .cond
  nested : control.openCount ≤ maxNesting
  depth_eq : control.depth =
    (events.filterMap Event.opening).length - (events.countP Event.isClose : Int)
  depth_openCount : control.depth = control.openCount - (events.countP Event.isEmptyClose : Int)

namespace Consistent

variable {done : List Event} {control : Control}

theorem empty : Consistent [] .empty := by
  constructor <;> simp [Control.empty, Control.openCount]

/-- A call that changes nothing, and neither opened nor closed a block. -/
theorem idle (c : Consistent done control) {event : Event} (ho : event.opening = none)
    (hc : event.isClose = false) : Consistent (done ++ [event]) control where
  openings := by simp [c.openings, ho]
  decreasing := c.decreasing
  open_iff := c.open_iff
  entries := c.entries
  elses := c.elses
  nested := c.nested
  depth_eq := by simp [c.depth_eq, ho, hc]
  depth_openCount := by simp [c.depth_openCount, Event.isEmptyClose, hc]

theorem label_lt (c : Consistent done control) {entry : OpenBlock}
    (hm : entry ∈ control.openBlocks) : entry.label < control.blocks.size := by
  obtain ⟨block, hb, -⟩ := c.entries entry hm
  exact (Array.getElem?_eq_some_iff.mp hb).1

theorem entered (c : Consistent done control) (kind : BlockKind) (type : BlockType) (index : Nat)
    (hn : control.openCount < maxNesting) :
    Consistent
      (done ++ [⟨control, .enter kind type index, .entered (.ok control.blocks.size)⟩])
      (control.opened kind type index) where
  openings := by simp [c.openings, Event.opening, opened, List.zipIdx_append]
  decreasing := by
    rw [opened, List.map_cons, List.pairwise_cons, List.forall_mem_map]
    exact ⟨fun entry hm => c.label_lt hm, c.decreasing⟩
  open_iff label block hb := by
    rw [opened, Array.getElem?_push] at hb
    rw [opened, List.map_cons, List.mem_cons]
    split at hb
    · next hl =>
      cases hb
      simp [hl]
    · next hl =>
      rw [c.open_iff label block hb]
      simp [hl]
  entries entry hm := by
    rw [opened] at hm ⊢
    rcases List.mem_cons.mp hm with rfl | hm
    · exact ⟨_, Array.getElem?_push_size, rfl, rfl⟩
    · obtain ⟨block, hb, hk⟩ := c.entries entry hm
      exact ⟨block, by grind, hk⟩
  elses label block hb he := by
    rw [opened, Array.getElem?_push] at hb
    split at hb
    · cases hb
      cases he
    · exact c.elses label block hb he
  nested := hn
  depth_eq := by
    simp [opened, c.depth_eq, Event.opening, Event.isClose]
    omega
  depth_openCount := by
    simp [opened, c.depth_openCount, openCount, Event.isEmptyClose, Event.isClose]
    omega

/-- The innermost open block has a record without an end, and no other open block has its label. -/
theorem innermost (c : Consistent done control) {entry : OpenBlock} {outer : List OpenBlock}
    (ho : control.openBlocks = entry :: outer) :
    (∃ own, control.blocks[entry.label]? = some own ∧ own.endAt = none ∧ own.kind = entry.kind ∧
      own.elseAt.isSome = entry.hasElse) ∧ ∀ other ∈ outer, other.label < entry.label := by
  have hd := c.decreasing
  rw [ho, List.map_cons, List.pairwise_cons, List.forall_mem_map] at hd
  refine ⟨?_, hd.1⟩
  have hm : entry ∈ control.openBlocks := by
    rw [ho]
    exact List.mem_cons_self
  obtain ⟨own, hown, hk⟩ := c.entries entry hm
  exact ⟨own, hown, (c.open_iff _ own hown).mpr (List.mem_map_of_mem hm), hk⟩

/-- A change of one record that keeps its kind, its type and its start keeps the openings. -/
theorem openings_modify (c : Consistent done control) (label : Label) {change : Block → Block}
    (hk : ∀ block, (change block).kind = block.kind)
    (ht : ∀ block, (change block).type = block.type)
    (hs : ∀ block, (change block).start = block.start) :
    done.filterMap Event.opening = (control.blocks.modify label change).toList.zipIdx.map
      fun (block, label) => (block.kind, block.type, block.start, label) := by
  rw [c.openings]
  apply List.ext_getElem?
  intro other
  simp only [List.getElem?_map, List.getElem?_zipIdx, Array.getElem?_toList, Array.getElem?_modify]
  grind

theorem divided (c : Consistent done control) (index : Nat) {label : Label} {outer : List OpenBlock}
    (ho : control.openBlocks = ⟨label, .cond, false⟩ :: outer) :
    Consistent (done ++ [⟨control, .otherwise index, .divided (.ok label)⟩])
      (control.divided label outer index) := by
  obtain ⟨⟨own, hown, hopen, hkind, -⟩, hless⟩ := c.innermost ho
  have hmod := getElem?_modify_eq_some_iff hown ({ · with elseAt := some index })
  have hlabels : (control.divided label outer index).openBlocks.map OpenBlock.label =
      control.openBlocks.map OpenBlock.label := by
    rw [ho]
    rfl
  constructor
  case openings =>
    rw [List.filterMap_append]
    show done.filterMap Event.opening ++ [] = _
    rw [List.append_nil]
    exact c.openings_modify label (fun _ => rfl) (fun _ => rfl) (fun _ => rfl)
  case decreasing =>
    rw [hlabels]
    exact c.decreasing
  case open_iff =>
    intro other block hb
    rw [hlabels]
    rcases (hmod other block).mp hb with ⟨-, hb⟩ | ⟨rfl, rfl⟩
    · exact c.open_iff other block hb
    · exact c.open_iff other own hown
  case entries =>
    intro entry hm
    rcases List.mem_cons.mp hm with rfl | hm
    · exact ⟨_, (hmod _ _).mpr (.inr ⟨rfl, rfl⟩), hkind, rfl⟩
    · obtain ⟨block, hb, hk⟩ := c.entries entry (by rw [ho]; exact List.mem_cons_of_mem _ hm)
      exact ⟨block, (hmod _ _).mpr (.inl ⟨Nat.ne_of_lt (hless entry hm), hb⟩), hk⟩
  case elses =>
    intro other block hb he
    rcases (hmod other block).mp hb with ⟨-, hb⟩ | ⟨rfl, rfl⟩
    · exact c.elses other block hb he
    · exact hkind
  case nested =>
    have hn := c.nested
    rw [openCount, ho] at hn
    exact hn
  case depth_eq => simp [Control.divided, c.depth_eq, Event.opening, Event.isClose]
  case depth_openCount =>
    simp [Control.divided, c.depth_openCount, openCount, ho, Event.isEmptyClose, Event.isClose]

theorem closed (c : Consistent done control) (index : Nat) {entry : OpenBlock}
    {outer : List OpenBlock} (ho : control.openBlocks = entry :: outer) :
    Consistent (done ++ [⟨control, .close index, .closed (some entry.label)⟩])
      (control.closed entry.label outer index) := by
  obtain ⟨⟨own, hown, hopen, -, -⟩, hless⟩ := c.innermost ho
  have hmod := getElem?_modify_eq_some_iff hown ({ · with endAt := some index })
  have hd := c.decreasing
  rw [ho, List.map_cons, List.pairwise_cons] at hd
  constructor
  case openings =>
    rw [List.filterMap_append]
    show done.filterMap Event.opening ++ [] = _
    rw [List.append_nil]
    exact c.openings_modify entry.label (fun _ => rfl) (fun _ => rfl) (fun _ => rfl)
  case decreasing => exact hd.2
  case open_iff =>
    intro other block hb
    rcases (hmod other block).mp hb with ⟨hne, hb⟩ | ⟨rfl, rfl⟩
    · rw [c.open_iff other block hb, ho, List.map_cons, List.mem_cons]
      exact or_iff_right hne
    · -- its end was set, and its label is none of those left
      refine iff_of_false (by simp) ?_
      intro hm
      exact absurd (hd.1 _ hm) (Nat.lt_irrefl _)
  case entries =>
    intro other hm
    obtain ⟨block, hb, hk⟩ := c.entries other (by rw [ho]; exact List.mem_cons_of_mem _ hm)
    exact ⟨block, (hmod _ _).mpr (.inl ⟨Nat.ne_of_lt (hless other hm), hb⟩), hk⟩
  case elses =>
    intro other block hb he
    rcases (hmod other block).mp hb with ⟨-, hb⟩ | ⟨rfl, rfl⟩
    · exact c.elses other block hb he
    · exact c.elses _ own hown he
  case nested =>
    have hn := c.nested
    rw [openCount, ho, List.length_cons] at hn
    exact Nat.le_of_succ_le hn
  case depth_eq =>
    have hnone : Event.opening ⟨control, .close index, .closed (some entry.label)⟩ = none := rfl
    simp [Control.closed, c.depth_eq, hnone, Event.isClose]
    omega
  case depth_openCount =>
    simp [Control.closed, c.depth_openCount, openCount, ho, Event.isEmptyClose, Event.isClose,
      Control.isEmpty]
    omega

theorem unmatched (c : Consistent done control) (index : Nat) (ho : control.openBlocks = []) :
    Consistent (done ++ [⟨control, .close index, .closed none⟩])
      { control with depth := control.depth - 1 } where
  openings := by simp [c.openings, Event.opening]
  decreasing := c.decreasing
  open_iff := c.open_iff
  entries := c.entries
  elses := c.elses
  nested := c.nested
  depth_eq := by
    have hnone : Event.opening ⟨control, .close index, .closed none⟩ = none := rfl
    simp [c.depth_eq, hnone, Event.isClose]
    omega
  depth_openCount := by
    simp [c.depth_openCount, openCount, ho, Event.isEmptyClose, Event.isClose, Control.isEmpty]
    omega

theorem perform (c : Consistent done control) (call : Call) :
    Consistent (done ++ [⟨control, call, (control.perform call).1⟩])
      (control.perform call).2 := by
  have ho := control.outcome_perform call
  generalize (control.perform call).1 = answer at ho ⊢
  generalize (control.perform call).2 = next at ho ⊢
  cases ho with
  | entered kind type index nested => exact c.entered kind type index nested
  | tooDeep kind type index error => exact c.idle rfl rfl
  | resolved depth => exact c.idle rfl rfl
  | divided index label outer innermost => exact c.divided index innermost
  | misplaced index error => exact c.idle rfl rfl
  | closed index block outer innermost => exact c.closed index innermost
  | unmatched index empty => exact c.unmatched index empty

theorem run (c : Consistent done control) (calls : List Call) :
    Consistent (done ++ control.events calls) (control.after calls) := by
  induction calls generalizing done control with
  | nil =>
    rw [events, List.append_nil]
    exact c
  | cons call rest ih =>
    rw [events, List.append_cons]
    exact ih (c.perform call)

/-! ## Blocks that were closed -/

/-- The record of a block that has its end is left alone. -/
theorem perform_settled (c : Consistent done control) (call : Call) {label : Label} {block : Block}
    {last : Nat} (hb : control.blocks[label]? = some block) (he : block.endAt = some last) :
    (control.perform call).2.blocks[label]? = some block := by
  have ho := control.outcome_perform call
  generalize (control.perform call).1 = answer at ho
  generalize (control.perform call).2 = next at ho ⊢
  -- the record that a call changes belongs to the innermost open block, which has no end
  have hne : ∀ entry outer, control.openBlocks = entry :: outer → label ≠ entry.label := by
    intro entry outer hopen heq
    obtain ⟨⟨own, hown, hnone, -⟩, -⟩ := c.innermost hopen
    rw [← heq, hb, Option.some.injEq] at hown
    rw [← hown, he] at hnone
    cases hnone
  cases ho with
  | entered kind type index nested =>
    rw [opened, Array.getElem?_push_lt (Array.getElem?_eq_some_iff.mp hb).1,
      ← Array.getElem?_eq_getElem]
    exact hb
  | divided index label' outer innermost =>
    rw [Control.divided, Array.getElem?_modify, if_neg (hne _ _ innermost).symm]
    exact hb
  | closed index entry outer innermost =>
    rw [Control.closed, Array.getElem?_modify, if_neg (hne _ _ innermost).symm]
    exact hb
  | _ => exact hb

theorem run_settled (c : Consistent done control) (calls : List Call) {label : Label}
    {block : Block} {last : Nat} (hb : control.blocks[label]? = some block)
    (he : block.endAt = some last) : (control.after calls).blocks[label]? = some block := by
  induction calls generalizing done control with
  | nil => exact hb
  | cons call rest ih => exact ih (c.perform call) (c.perform_settled call hb he)

end Consistent

/-! ## Depths -/

/-- A depth is resolved exactly when so many blocks are open, to the block that it counts to. -/
theorem resolve_cases (control : Control) (depth : UInt32) :
    ((∃ target, control.resolve depth = .ok target) ↔ depth.toNat < control.openCount) ∧
      ∀ target, control.resolve depth = .ok target → target.depth = depth ∧
        (control.openBlocks.map OpenBlock.label)[depth.toNat]? = some target.label := by
  constructor
  · rw [resolve]
    by_cases hlt : depth.toNat < control.openBlocks.length
    · rw [List.getElem?_eq_getElem hlt]
      exact iff_of_true ⟨_, rfl⟩ hlt
    · rw [List.getElem?_eq_none (Nat.le_of_not_lt hlt)]
      refine iff_of_false ?_ hlt
      intro h
      obtain ⟨target, h⟩ := h
      cases h
  · intro target h
    obtain ⟨rfl, hres⟩ := resolve_eq_ok_iff.mp h
    exact ⟨rfl, hres⟩

/-- Whatever calls are made on a new control state, it stays consistent with them; it resolves
exactly the depths of the blocks that are open; and once a block is closed, no further calls change
its record. -/
theorem consistent_after (calls : List Call) :
    Consistent (Control.empty.events calls) (Control.empty.after calls) ∧
      (∀ depth : UInt32,
        ((∃ target, (Control.empty.after calls).resolve depth = .ok target) ↔
          depth.toNat < (Control.empty.after calls).openCount) ∧
        ∀ target, (Control.empty.after calls).resolve depth = .ok target →
          target.depth = depth ∧
            ((Control.empty.after calls).openBlocks.map OpenBlock.label)[depth.toNat]? =
              some target.label) ∧
      ∀ (more : List Call) (label : Label) (block : Block) (last : Nat),
        (Control.empty.after calls).blocks[label]? = some block → block.endAt = some last →
          (Control.empty.after (calls ++ more)).blocks[label]? = some block := by
  have hc : Consistent (Control.empty.events calls) (Control.empty.after calls) :=
    Consistent.empty.run calls
  refine ⟨hc, resolve_cases _, ?_⟩
  intro more label block last hb he
  rw [after_append]
  exact hc.run_settled more hb he

/-- Calls in disorder: an end and an else before anything is open, a second else, a depth too large,
and indices that run backwards. The conditional keeps its record when later calls fail. -/
theorem consistent_after_disorder :
    let calls : List Call := [.close 7, .otherwise 1, .enter .cond .empty 5, .otherwise 9,
      .otherwise 3, .resolve 0, .resolve 1, .close 2, .enter .loop (.value .i32) 0]
    Control.empty.after calls =
        ⟨[⟨1, .loop, false⟩], #[⟨.cond, .empty, 5, some 9, some 2⟩, ⟨.loop, .value .i32, 0, none, none⟩],
          0⟩ ∧
      Consistent (Control.empty.events calls) (Control.empty.after calls) ∧
      (Control.empty.after (calls ++ [.otherwise 4, .close 6, .close 8])).blocks[0]? =
        some ⟨.cond, .empty, 5, some 9, some 2⟩ := by
  intro calls
  have hafter : Control.empty.after calls =
      ⟨[⟨1, .loop, false⟩], #[⟨.cond, .empty, 5, some 9, some 2⟩, ⟨.loop, .value .i32, 0, none, none⟩],
        0⟩ := by
    decide +kernel
  obtain ⟨hc, -, hsettled⟩ := consistent_after calls
  exact ⟨hafter, hc, hsettled _ 0 _ 2 (by rw [hafter]; rfl) rfl⟩

end FlatWasm.Control
