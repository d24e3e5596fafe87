import FlatWasm.Proofs.Lowering
import Mathlib.Data.List.TakeWhile

/-!
# The outcome of lowering

Whether an instruction can be lowered is settled by its operator alone. Everything else that lowering
looks up is there in a body that was read: a block has its record, and has been given its label of
the listing before an instruction names it. Lowering therefore stops at the first operator that has
no counterpart and nowhere else, with the state that the instructions before it have left.
-/

namespace FlatWasm

/-- The operators that have a counterpart in a listing. -/
def Operator.isSupported : Operator → Bool
  | .unreachable | .nop | .ret => true
  | .enter .block | .enter .loop | .close => true
  | .br | .brIf => true
  | .variable .getLocal | .variable .setLocal | .variable .teeLocal => true
  | .const _ => true
  | .numeric op => op.primitive?.isSome
  | .enter .cond | .otherwise | .brTable | .call | .callIndirect => false
  | .variable .getGlobal | .variable .setGlobal => false
  | .parametric _ | .memory _ | .memorySize _ => false

namespace Body

/-- The instructions before the first that is unsupported. -/
def supportedFront (body : Body) : List Placed :=
  body.instructions.toList.takeWhile fun placed => placed.labelled.operator.isSupported

/-- Success, or the complaint about the first unsupported operator. -/
def verdict (body : Body) : Except LoweringError Unit :=
  match (body.code.map Labelled.operator).find? (!·.isSupported) with
  | none => .ok ()
  | some op => .error (.unsupported op)

end Body

/-! ## Blocks that are named were opened before -/

theorem mem_openedLabels {code : List Labelled} {kind : BlockKind} {type : BlockType}
    {label : Label} (h : .enter kind type label ∈ code) : label ∈ openedLabels code :=
  List.mem_filterMap.mpr ⟨_, h, rfl⟩

theorem Block.start_lt_of_encloses {block : Block} {index : Nat}
    (h : block.encloses index = true) : block.start < index := by
  rw [encloses, Bool.and_eq_true, decide_eq_true_eq] at h
  exact h.1

namespace Resolved

variable {code : List Labelled} {blocks : Array Block} {index : Nat} {labelled : Labelled}

theorem opener_mem_take (h : Resolved code blocks) {label : Label} {block : Block}
    (hb : blocks[label]? = some block) (hs : block.start < index) :
    .enter block.kind block.type label ∈ code.take index := by
  have hopen := (h.start_iff label block hb block.start block.kind block.type).mpr ⟨rfl, rfl, rfl⟩
  obtain ⟨hlt, hget⟩ := List.getElem?_eq_some_iff.mp hopen
  exact List.mem_take_iff_getElem.mpr ⟨block.start, by omega, hget⟩

/-- A branch names a block that was opened before it and ends behind it. -/
theorem block_of_target (h : Resolved code blocks) (hc : code[index]? = some labelled)
    {target : Target} (ht : target ∈ labelled.targets) :
    ∃ block, blocks[target.label]? = some block ∧ block.encloses index = true := by
  obtain ⟨block, hb, he, -⟩ := (h.target_iff index labelled target hc ht _).mpr rfl
  exact ⟨block, hb, he⟩

/-- An end closes a block that was opened before it. -/
theorem block_of_close (h : Resolved code blocks) {label : Label}
    (hc : code[index]? = some (.close (some label))) :
    ∃ block, blocks[label]? = some block ∧ block.start < index ∧ block.endAt = some index := by
  obtain ⟨block, hb, -⟩ := (h.close_iff index label hc label).mpr rfl
  obtain ⟨last, he, hlt, hlast⟩ := h.end_iff label block hb
  obtain rfl := (hlast index).mp hc
  exact ⟨block, hb, hlt, he⟩

theorem label_lt_of_enter (h : Resolved code blocks) {kind : BlockKind} {type : BlockType}
    {label : Label} (hc : code[index]? = some (.enter kind type label)) : label < blocks.size := by
  have hm : label ∈ openedLabels code := mem_openedLabels (List.mem_of_getElem? hc)
  rwa [h.openedLabels_eq, List.mem_range] at hm

end Resolved

/-! ## Lowering supported instructions -/

namespace Lowering

/-- Every block of the body has a place for its label, which is filled when the block is opened. -/
structure Bound (body : Body) (done : List Labelled) (state : Lowering) : Prop where
  size_eq : state.targets.size = body.blocks.size
  filled : ∀ label ∈ openedLabels done, ∃ target, state.targets[label]? = some (some target)

variable {body : Body} {done : List Labelled} {state : Lowering} {labelled : Labelled}

theorem plainOps?_isSome (params : UInt32) (plain : Plain) :
    (plainOps? params plain).isSome = plain.operator.isSupported := by
  cases plain with
  | «variable» op index => cases op <;> rfl
  | numeric op =>
    rw [plainOps?, Option.isSome_map]
    rfl
  | _ => rfl

/-- An unsupported instruction is reported, and changes nothing. -/
theorem instruction_unsupported (hu : labelled.operator.isSupported = false) :
    instruction body labelled state = (.error (.unsupported labelled.operator), state) := by
  cases labelled with
  | plain plain =>
    have hnone : plainOps? body.params plain = none := by
      rw [← Option.not_isSome_iff_eq_none, plainOps?_isSome, Bool.not_eq_true]
      exact hu
    rw [instruction, hnone]
    rfl
  | enter kind type label =>
    cases kind with
    | block => cases hu
    | loop => cases hu
    | cond => rfl
  | otherwise label => rfl
  | close label => cases hu
  | br target => cases hu
  | brIf target => cases hu
  | brTable targets default => rfl

namespace Bound

theorem start (body : Body) (listing : Listing) : Bound body [] (.start body listing) :=
  ⟨Array.size_replicate, by simp [openedLabels]⟩

theorem keep (b : Bound body done state) (hl : labelled.opens = none) (listing : Listing) :
    Bound body (done ++ [labelled]) { state with listing } := by
  have hn : openedLabels [labelled] = [] := by simp [openedLabels, hl]
  refine ⟨b.size_eq, ?_⟩
  rw [openedLabels_append, hn, List.append_nil]
  exact b.filled

theorem bind (b : Bound body done state) (kind : BlockKind) (type : BlockType) {label : Label}
    (hl : label < body.blocks.size) (listing : Listing) (target : Nat) :
    ∃ next, Lowering.bind label target { state with listing } = (.ok (), next) ∧
      Bound body (done ++ [.enter kind type label]) next := by
  have hlt : label < state.targets.size := by rwa [b.size_eq]
  refine ⟨_, by rw [Lowering.bind, if_pos hlt], ?_, ?_⟩
  · rw [Array.size_setIfInBounds]
    exact b.size_eq
  · intro other hm
    rw [Array.getElem?_setIfInBounds]
    by_cases heq : label = other
    · exact ⟨target, by rw [if_pos heq, if_pos hlt]⟩
    · rw [if_neg heq]
      apply b.filled
      rw [openedLabels_append, List.mem_append] at hm
      rcases hm with hm | hm
      · exact hm
      · exact absurd (List.mem_singleton.mp hm).symm heq

theorem target_eq (b : Bound body done state) {label : Label} (hm : label ∈ openedLabels done) :
    ∃ target, state.target label = .ok target := by
  obtain ⟨target, ht⟩ := b.filled label hm
  exact ⟨target, by rw [Lowering.target, ht]⟩

/-- A jump to a block that was opened is emitted. -/
theorem jump (b : Bound body done state) {label : Label} (hm : label ∈ openedLabels done)
    (op : Nat → Listing.Op) (hl : labelled.opens = none) :
    ∃ next, state.emitOne ((state.target label).map op) = (.ok (), next) ∧
      Bound body (done ++ [labelled]) next := by
  obtain ⟨target, ht⟩ := b.target_eq hm
  rw [ht]
  exact ⟨_, rfl, b.keep hl _⟩

/-- The end of a block or a loop is lowered. -/
theorem closing (b : Bound body done state) {label : Label} (hm : label ∈ openedLabels done)
    {block : Block} (hb : body.blocks[label]? = some block) (hk : block.kind ≠ .cond) :
    ∃ next, state.emitOne (state.closing body label) = (.ok (), next) ∧
      Bound body (done ++ [.close (some label)]) next := by
  obtain ⟨target, ht⟩ := b.target_eq hm
  have hop : ∃ op, state.closing body label = .ok op := by
    obtain ⟨kind, type, start, elseAt, endAt⟩ := block
    rw [Lowering.closing, ht, hb]
    cases kind with
    | block => exact ⟨_, rfl⟩
    | loop => exact ⟨_, rfl⟩
    | cond => exact absurd rfl hk
  obtain ⟨op, hop⟩ := hop
  rw [hop]
  exact ⟨_, rfl, b.keep rfl _⟩

/-- A supported instruction is lowered, if all before it are supported. -/
theorem step {index : Nat} (b : Bound body (body.code.take index) state)
    (hres : Resolved body.code body.blocks) (hc : body.code[index]? = some labelled)
    (hfront : ∀ earlier ∈ body.code.take index, earlier.operator.isSupported = true)
    (hs : labelled.operator.isSupported = true) :
    ∃ next, instruction body labelled state = (.ok (), next) ∧
      Bound body (body.code.take index ++ [labelled]) next := by
  -- a branch names a block that was opened before it
  have htarget : ∀ target ∈ labelled.targets, target.label ∈ openedLabels (body.code.take index) := by
    intro target ht
    obtain ⟨block, hb, he⟩ := hres.block_of_target hc ht
    exact mem_openedLabels (hres.opener_mem_take hb (Block.start_lt_of_encloses he))
  cases labelled with
  | plain plain =>
    obtain ⟨ops, ho⟩ : ∃ ops, plainOps? body.params plain = some ops := by
      rw [← Option.isSome_iff_exists, plainOps?_isSome]
      exact hs
    exact ⟨_, by rw [instruction, ho]; rfl, b.keep rfl _⟩
  | enter kind type label =>
    have hl := hres.label_lt_of_enter hc
    cases kind with
    | block => exact b.bind .block type hl _ _
    | loop => exact b.bind .loop type hl _ _
    | cond => cases hs
  | otherwise label => cases hs
  | close label =>
    cases label with
    | none => exact ⟨_, rfl, b.keep rfl _⟩
    | some label =>
      obtain ⟨block, hb, hlt, -⟩ := hres.block_of_close hc
      have hopen := hres.opener_mem_take hb hlt
      refine b.closing (mem_openedLabels hopen) hb ?_
      -- the opening of a conditional would have been unsupported
      intro hk
      have hsup := hfront _ hopen
      rw [hk] at hsup
      cases hsup
  | br target => exact b.jump (htarget target List.mem_cons_self) .jump rfl
  | brIf target => exact b.jump (htarget target List.mem_cons_self) .jumpIf rfl
  | brTable targets default => cases hs

theorem run {earlier front back : List Placed} (b : Bound body (earlier.map Placed.labelled) state)
    (hres : Resolved body.code body.blocks)
    (hsplit : body.instructions.toList = earlier ++ front ++ back)
    (hs : ∀ placed ∈ earlier ++ front, placed.labelled.operator.isSupported = true) :
    ∃ next, Lowering.run body front state = (.ok (), next) ∧
      Bound body ((earlier ++ front).map Placed.labelled) next := by
  induction front generalizing earlier state with
  | nil => exact ⟨state, rfl, by rwa [List.append_nil]⟩
  | cons placed front ih =>
    have hcode : body.code = earlier.map Placed.labelled ++
        placed.labelled :: (front ++ back).map Placed.labelled := by
      rw [Body.code, hsplit]
      simp
    have htake : body.code.take earlier.length = earlier.map Placed.labelled := by
      rw [hcode, List.take_left' (List.length_map _)]
    have hc : body.code[earlier.length]? = some placed.labelled := by
      rw [hcode, List.getElem?_append_right (by simp)]
      simp
    have hfront : ∀ labelled ∈ body.code.take earlier.length,
        labelled.operator.isSupported = true := by
      rw [htake, List.forall_mem_map]
      exact fun other hm => hs other (List.mem_append_left _ hm)
    have hplaced : placed.labelled.operator.isSupported = true :=
      hs placed (List.mem_append_right _ List.mem_cons_self)
    rw [← htake] at b
    obtain ⟨after, hi, hb⟩ := b.step hres hc hfront hplaced
    rw [htake] at hb
    have hb' : Bound body ((earlier ++ [placed]).map Placed.labelled)
        { after with lowered := after.lowered + 1 } := by
      rw [List.map_append]
      exact ⟨hb.size_eq, hb.filled⟩
    obtain ⟨next, hrun, hnext⟩ := ih hb' (by simpa using hsplit) (by simpa using hs)
    rw [List.append_assoc, List.singleton_append] at hnext
    exact ⟨next, by rw [Lowering.run, hi]; exact hrun, hnext⟩

end Bound

end Lowering

/-! ## Whole bodies -/

namespace Body

variable {body : Body}

theorem instructions_split (body : Body) :
    body.instructions.toList = body.supportedFront ++
      body.instructions.toList.dropWhile fun placed => placed.labelled.operator.isSupported :=
  List.takeWhile_append_dropWhile.symm

theorem supportedFront_supported :
    ∀ placed ∈ body.supportedFront, placed.labelled.operator.isSupported = true := by
  intro placed hm
  rw [supportedFront] at hm
  have hs := List.mem_takeWhile_imp hm
  exact hs

/-- The supported instructions in front are lowered, whatever the listing held. -/
theorem run_supportedFront (hres : Resolved body.code body.blocks) (listing : Listing) :
    ∃ state, Lowering.run body body.supportedFront (.start body listing) = (.ok (), state) ∧
      Lowering.Bound body (body.supportedFront.map Placed.labelled) state := by
  have hb : Lowering.Bound body (([] : List Placed).map Placed.labelled) (.start body listing) :=
    .start body listing
  exact hb.run hres body.instructions_split supportedFront_supported

theorem find_unsupported (body : Body) :
    (body.code.map Labelled.operator).find? (!·.isSupported) =
      ((body.instructions.toList.dropWhile fun placed =>
        placed.labelled.operator.isSupported).head?).map fun placed => placed.labelled.operator := by
  rw [code, List.map_map, List.find?_map, List.find?_eq_head?_dropWhile_not]
  simp [Function.comp_def]

theorem verdict_eq_ok_iff (body : Body) :
    body.verdict = .ok () ↔ ∀ labelled ∈ body.code, labelled.operator.isSupported = true := by
  have hv : body.verdict = .ok () ↔
      (body.code.map Labelled.operator).find? (!·.isSupported) = none := by
    unfold verdict
    split
    · next hf => simp [hf]
    · next op hf => simp [hf]
  rw [hv, List.find?_eq_none, List.forall_mem_map]
  simp

/-- Lowering comes to the verdict, in the state that the supported instructions in front leave. -/
theorem lower_eq (hres : Resolved body.code body.blocks) (listing : Listing) :
    body.lower listing =
      (body.verdict, (Lowering.run body body.supportedFront (.start body listing)).2) := by
  obtain ⟨state, hrun, -⟩ := run_supportedFront hres listing
  rw [lower, instructions_split, Lowering.run_append, verdict, find_unsupported, hrun]
  dsimp only
  cases hd : body.instructions.toList.dropWhile fun placed =>
      placed.labelled.operator.isSupported with
  | nil => rfl
  | cons first rest =>
    have hu : first.labelled.operator.isSupported = false := by
      have hne := List.head?_dropWhile_not (fun placed : Placed =>
        placed.labelled.operator.isSupported) body.instructions.toList
      rw [hd] at hne
      simpa using hne
    rw [Lowering.run, Lowering.instruction_unsupported hu]
    rfl

theorem exists_unsupported_of_error {error : LoweringError} (h : body.verdict = .error error) :
    ∃ op, (body.code.map Labelled.operator).find? (!·.isSupported) = some op ∧
      error = .unsupported op := by
  unfold verdict at h
  split at h
  · cases h
  · next op hf =>
    cases h
    exact ⟨op, hf, rfl⟩

/-- What lowering a body behind a listing comes to: success if every instruction is supported, and
otherwise a complaint about the first that is not; and in either case, the operations and labels of
the instructions before it. -/
structure LoweredUpTo (body : Body) (listing : Listing) : Prop where
  ok_iff : (body.lower listing).1 = .ok () ↔
    ∀ labelled ∈ body.code, labelled.operator.isSupported = true
  error_eq : ∀ error, (body.lower listing).1 = .error error →
    ∃ op, (body.code.map Labelled.operator).find? (!·.isSupported) = some op ∧
      error = .unsupported op ∧ error.message = "unsupported construct: " ++ op.mnemonic
  front_eq : Lowering.run body body.supportedFront (.start body listing) =
    (.ok (), (body.lower listing).2)
  ops_eq : (body.lower listing).2.listing.ops.toList = listing.ops.toList ++
    (body.supportedFront.map Placed.labelled).flatMap (Lowering.ops body listing.labels)
  labels_eq : (body.lower listing).2.listing.labels =
    listing.labels + (openedLabels (body.supportedFront.map Placed.labelled)).length

/-- A body that was read, in either mode, is lowered up to its first unsupported instruction. No
label and no record of a block is ever missing on the way. The listing may hold any number of labels
before: they are counted without a bound, see `Listing`. -/
theorem read_loweredUpTo {mode : BodyMode} {params : UInt32} {cursor left : Cursor}
    (h : read mode params cursor = (.ok body, left)) (listing : Listing) :
    body.LoweredUpTo listing := by
  obtain ⟨-, chunks, control, ht⟩ := read_ok_iff.mp h
  have hres := ht.tracks.resolved
  have heq := lower_eq hres listing
  obtain ⟨state, hrun, -⟩ := run_supportedFront hres listing
  have hn := hres.openedLabels_eq
  rw [code, instructions_split] at hn
  have hsync := Lowering.InSync.run_front hn hrun
  rw [hrun] at heq
  refine ⟨?_, ?_, ?_, ?_, ?_⟩
  · rw [heq]
    exact body.verdict_eq_ok_iff
  · intro error he
    rw [heq] at he
    obtain ⟨op, hop, rfl⟩ := exists_unsupported_of_error he
    exact ⟨op, hop, rfl, rfl⟩
  · rw [hrun, heq]
  · rw [heq]
    exact hsync.ops_eq
  · rw [heq]
    exact hsync.labels_eq

/-- A conditional in a loop in a block, read as a segment and lowered behind a listing that has three
labels. The block, the loop and the branch out of it are lowered, and the loop gets the label 4. -/
theorem read_loweredUpTo_conditional :
    ∃ body left, read .segment 1 ⟨0, [0x02, 0x40, 0x03, 0x40, 0x20, 0x00, 0x0D, 0x01, 0x41, 0x05,
        0x04, 0x40, 0x01, 0x0B, 0x0B, 0x0B, 0x05]⟩ = (.ok body, left) ∧
      (body.lower ⟨#[.ret], 3⟩).1 = .error (.unsupported (.enter .cond)) ∧
      (body.lower ⟨#[.ret], 3⟩).2.listing =
        ⟨#[.ret, .mark 4, .load (.param 0), .jumpIf 3, .push (.i32 5)], 5⟩ ∧
      body.LoweredUpTo ⟨#[.ret], 3⟩ := by
  let body : Body :=
    ⟨#[⟨.enter .block .empty 0, 0, 2⟩, ⟨.enter .loop .empty 1, 2, 2⟩,
        ⟨.plain (.variable .getLocal 0), 4, 2⟩, ⟨.brIf ⟨1, 0⟩, 6, 2⟩,
        ⟨.plain (.const (.i32 5)), 8, 2⟩, ⟨.enter .cond .empty 2, 10, 2⟩, ⟨.plain .nop, 12, 1⟩,
        ⟨.close (some 2), 13, 1⟩, ⟨.close (some 1), 14, 1⟩, ⟨.close (some 0), 15, 1⟩],
      #[⟨.block, .empty, 0, none, some 9⟩, ⟨.loop, .empty, 1, none, some 8⟩,
        ⟨.cond, .empty, 5, none, some 7⟩], 1, true⟩
  have h : read .segment 1 ⟨0, [0x02, 0x40, 0x03, 0x40, 0x20, 0x00, 0x0D, 0x01, 0x41, 0x05,
      0x04, 0x40, 0x01, 0x0B, 0x0B, 0x0B, 0x05]⟩ = (.ok body, ⟨17, []⟩) := by
    decide +kernel
  exact ⟨body, _, h, by decide +kernel, by decide +kernel, read_loweredUpTo h _⟩

end Body

end FlatWasm
