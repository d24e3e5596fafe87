import FlatWasm.Proofs.Outcome

/-!
# Labels of a listing

The labels that a body gives to its blocks when it is lowered are the next ones of the listing, in
the order of the blocks. Each is marked at one place: a loop at its opening, and a block at its end.
Branches stand inside the block they name, so those to a block come before its mark and those to a
loop behind it; and what stands earlier in the body is lowered to operations that stand earlier.
-/

namespace FlatWasm

namespace Labelled

def isBr (label : Label) : Labelled → Bool
  | .br target => target.label == label
  | _ => false

def isBrIf (label : Label) : Labelled → Bool
  | .brIf target => target.label == label
  | _ => false

end Labelled

/-- What one item of a list contributes once, and no other item contributes, is there once. -/
theorem count_flatMap_eq_one {α β : Type} [DecidableEq β] {items : List α} {f : α → List β}
    {found : β} {site : Nat} {item : α} (hi : items[site]? = some item)
    (ho : (f item).count found = 1)
    (hu : ∀ (index : Nat) other, items[index]? = some other → found ∈ f other → index = site) :
    (items.flatMap f).count found = 1 := by
  obtain ⟨hlt, rfl⟩ := List.getElem?_eq_some_iff.mp hi
  have hbefore : ((items.take site).flatMap f).count found = 0 := by
    rw [List.count_eq_zero, List.mem_flatMap]
    rintro ⟨other, hm, hin⟩
    obtain ⟨index, hindex, hget⟩ := List.mem_take_iff_getElem.mp hm
    have heq := hu index other (List.getElem?_eq_some_iff.mpr ⟨by omega, hget⟩) hin
    omega
  have hafter : ((items.drop (site + 1)).flatMap f).count found = 0 := by
    rw [List.count_eq_zero, List.mem_flatMap]
    rintro ⟨other, hm, hin⟩
    obtain ⟨index, hindex, hget⟩ := List.mem_drop_iff_getElem.mp hm
    have heq := hu (site + 1 + index) other (List.getElem?_eq_some_iff.mpr ⟨by omega, hget⟩) hin
    omega
  calc (items.flatMap f).count found
      = ((items.take site ++ items[site] :: items.drop (site + 1)).flatMap f).count found := by
        rw [← List.drop_eq_getElem_cons hlt, List.take_append_drop]
    _ = 0 + (1 + 0) := by
        rw [List.flatMap_append, List.flatMap_cons, List.count_append, List.count_append, hbefore, ho,
          hafter]

/-! ## Which instruction an operation stems from -/

namespace Lowering

variable {body : Body} {base : Nat} {code : List Labelled}

theorem opsBefore_mono {index index' : Nat} (h : index ≤ index') :
    opsBefore body base code index ≤ opsBefore body base code index' := by
  obtain ⟨more, rfl⟩ := Nat.exists_eq_add_of_le h
  rw [opsBefore, opsBefore, List.take_add, List.flatMap_append, List.length_append]
  exact Nat.le_add_right _ _

/-- The operation at a place was emitted for the instruction at an index. -/
structure StemsFrom (body : Body) (base : Nat) (code : List Labelled) (place : Nat)
    (op : Listing.Op) (index : Nat) (labelled : Labelled) : Prop where
  code_eq : code[index]? = some labelled
  mem : op ∈ ops body base labelled
  le : opsBefore body base code index ≤ place
  lt : place < opsBefore body base code (index + 1)

theorem exists_stemsFrom {place : Nat} {op : Listing.Op}
    (h : (code.flatMap (ops body base))[place]? = some op) :
    ∃ index labelled, StemsFrom body base code place op index labelled := by
  induction code generalizing place with
  | nil => simp at h
  | cons first rest ih =>
    have hsucc : ∀ index, opsBefore body base (first :: rest) (index + 1) =
        (ops body base first).length + opsBefore body base rest index := by
      intro index
      rw [opsBefore, opsBefore, List.take_succ_cons, List.flatMap_cons, List.length_append]
    rw [List.flatMap_cons] at h
    by_cases hlt : place < (ops body base first).length
    · rw [List.getElem?_append_left hlt] at h
      refine ⟨0, first, rfl, List.mem_of_getElem? h, Nat.zero_le _, ?_⟩
      rw [hsucc]
      omega
    · rw [List.getElem?_append_right (Nat.le_of_not_lt hlt)] at h
      obtain ⟨index, labelled, hs⟩ := ih h
      have hle := hs.le
      have hlt' := hs.lt
      refine ⟨index + 1, labelled, hs.code_eq, hs.mem, ?_, ?_⟩
      · rw [hsucc]
        omega
      · rw [hsucc]
        omega

/-- Instructions and the operations that stem from them stand in the same order. -/
theorem StemsFrom.place_lt {place place' index index' : Nat} {op op' : Listing.Op}
    {labelled labelled' : Labelled} (h : StemsFrom body base code place op index labelled)
    (h' : StemsFrom body base code place' op' index' labelled') (hi : index < index') :
    place < place' := by
  have hmono : opsBefore body base code (index + 1) ≤ opsBefore body base code index' :=
    opsBefore_mono hi
  have hlt := h.lt
  have hle := h'.le
  omega

/-! ## How many operations an instruction adds -/

theorem count_ops_plain (plain : Plain) (op : Listing.Op) (hd : op.destination?.isSome = true) :
    (ops body base (.plain plain)).count op = 0 := by
  rw [List.count_eq_zero]
  intro hm
  rw [(mem_ops_plain hm).1] at hd
  cases hd

/-- A jump to a label is emitted for a branch to its block, and for the end of its loop. -/
theorem count_jump_ops (labelled : Labelled) (label : Label) :
    (ops body base labelled).count (.jump (base + label)) =
      (if labelled.isBr label then 1 else 0) +
        if body.blocks[label]?.map Block.kind = some .loop ∧ labelled = .close (some label) then 1
        else 0 := by
  cases labelled with
  | plain plain =>
    rw [count_ops_plain plain _ rfl]
    simp [Labelled.isBr]
  | enter kind type other => cases kind <;> simp [ops, ops?, Labelled.isBr]
  | close other =>
    cases other with
    | none => simp [ops, ops?, Labelled.isBr]
    | some other =>
      by_cases heq : other = label
      · subst heq
        rcases hk : body.blocks[other]?.map Block.kind with _ | ⟨_ | _ | _⟩ <;>
          simp [ops, ops?, hk, Labelled.isBr]
      · rcases hk : body.blocks[other]?.map Block.kind with _ | ⟨_ | _ | _⟩ <;>
          simp [ops, ops?, hk, Labelled.isBr, heq]
  | br target => simp [ops, ops?, Labelled.isBr, List.count_singleton]
  | _ => simp [ops, ops?, Labelled.isBr]

theorem count_jumpIf_ops (labelled : Labelled) (label : Label) :
    (ops body base labelled).count (.jumpIf (base + label)) =
      if labelled.isBrIf label then 1 else 0 := by
  cases labelled with
  | plain plain =>
    rw [count_ops_plain plain _ rfl]
    rfl
  | enter kind type other => cases kind <;> simp [ops, ops?, Labelled.isBrIf]
  | close other =>
    cases other with
    | none => simp [ops, ops?, Labelled.isBrIf]
    | some other =>
      rw [ops, ops?]
      split <;> simp [Labelled.isBrIf]
  | brIf target => simp [ops, ops?, Labelled.isBrIf, List.count_singleton]
  | _ => simp [ops, ops?, Labelled.isBrIf]

theorem count_jump_flatMap (body : Body) (base : Nat) (code : List Labelled) (label : Label) :
    (code.flatMap (ops body base)).count (.jump (base + label)) = code.countP (·.isBr label) +
      if body.blocks[label]?.map Block.kind = some .loop then code.count (.close (some label))
      else 0 := by
  induction code with
  | nil => simp
  | cons labelled code ih =>
    rw [List.flatMap_cons, List.count_append, count_jump_ops, ih, List.countP_cons, List.count_cons]
    by_cases hk : body.blocks[label]?.map Block.kind = some .loop
    · simp only [hk, true_and, if_true, beq_iff_eq]
      omega
    · simp only [hk, false_and, if_false]
      omega

theorem count_jumpIf_flatMap (body : Body) (base : Nat) (code : List Labelled) (label : Label) :
    (code.flatMap (ops body base)).count (.jumpIf (base + label)) =
      code.countP (·.isBrIf label) := by
  induction code with
  | nil => simp
  | cons labelled code ih =>
    rw [List.flatMap_cons, List.count_append, count_jumpIf_ops, ih, List.countP_cons, Nat.add_comm]

end Lowering

/-! ## Bodies whose blocks are known -/

namespace Resolved

open Lowering

variable {body : Body} {base : Nat} {label : Label} {block : Block}

theorem count_close (h : Resolved body.code body.blocks) (hb : body.blocks[label]? = some block) :
    body.code.count (.close (some label)) = 1 := by
  obtain ⟨last, -, -, hlast⟩ := h.end_iff label block hb
  have hone := count_flatMap_eq_one (f := fun labelled => [labelled]) ((hlast last).mpr rfl)
    (List.count_singleton_self ..) (fun index other hc hm => (hlast index).mp (by
      rw [hc, List.mem_singleton.mp hm]))
  rwa [List.flatMap_singleton'] at hone

/-- The label of a loop is marked where the loop begins, that of a block where the block ends. -/
theorem mark_index (h : Resolved body.code body.blocks) (hb : body.blocks[label]? = some block)
    {index : Nat} {labelled : Labelled} (hc : body.code[index]? = some labelled)
    (hm : .mark (base + label) ∈ ops body base labelled) :
    block.kind = .loop ∧ index = block.start ∨ block.kind = .block ∧ block.endAt = some index := by
  rcases mark_mem_ops hm with ⟨type, rfl⟩ | ⟨rfl, hk⟩
  · obtain ⟨hstart, hkind, -⟩ := (h.start_iff label block hb index .loop type).mp hc
    exact .inl ⟨hkind.symm, hstart⟩
  · obtain ⟨block', hb', -, he⟩ := h.block_of_close hc
    obtain rfl : block = block' := Option.some.inj (hb.symm.trans hb')
    rw [hb, Option.map_some, Option.some.injEq] at hk
    exact .inr ⟨hk, he⟩

/-- A jump to a block stands behind its beginning, and, if it is no loop, before its end. -/
theorem jump_index (h : Resolved body.code body.blocks) (hb : body.blocks[label]? = some block)
    {index : Nat} {labelled : Labelled} (hc : body.code[index]? = some labelled) {op : Listing.Op}
    (hm : op ∈ ops body base labelled) (hd : op.destination? = some (base + label)) :
    block.start < index ∧
      (block.kind = .block → ∀ last, block.endAt = some last → index < last) := by
  obtain ⟨own, heq, hcase⟩ := destination_mem_ops hm hd
  obtain rfl : label = own := Nat.add_left_cancel heq
  rcases hcase with ⟨target, ht, rfl⟩ | ⟨rfl, hk⟩
  · obtain ⟨block', hb', he⟩ := h.block_of_target hc ht
    obtain rfl : block = block' := Option.some.inj (hb.symm.trans hb')
    refine ⟨Block.start_lt_of_encloses he, ?_⟩
    intro _ last hlast
    rw [Block.encloses, hlast, Option.any_some, Bool.and_eq_true, decide_eq_true_eq,
      decide_eq_true_eq] at he
    exact he.2
  · obtain ⟨block', hb', hlt, -⟩ := h.block_of_close hc
    obtain rfl : block = block' := Option.some.inj (hb.symm.trans hb')
    rw [hb, Option.map_some, Option.some.injEq] at hk
    refine ⟨hlt, ?_⟩
    intro hblock
    rw [hblock] at hk
    cases hk

theorem destination_label (h : Resolved body.code body.blocks) {labelled : Labelled}
    (hl : labelled ∈ body.code) {op : Listing.Op} (hm : op ∈ ops body base labelled) {target : Nat}
    (hd : op.destination? = some target) : ∃ label < body.blocks.size, target = base + label := by
  obtain ⟨index, hc⟩ := List.getElem?_of_mem hl
  obtain ⟨label, rfl, hcase⟩ := destination_mem_ops hm hd
  refine ⟨label, ?_, rfl⟩
  rcases hcase with ⟨own, ht, rfl⟩ | ⟨rfl, -⟩
  · obtain ⟨block, hb, -⟩ := h.block_of_target hc ht
    exact (Array.getElem?_eq_some_iff.mp hb).1
  · obtain ⟨block, hb, -⟩ := h.block_of_close hc
    exact (Array.getElem?_eq_some_iff.mp hb).1

/-- The opening of a conditional is unsupported. -/
theorem kind_ne_cond (h : Resolved body.code body.blocks)
    (hs : ∀ labelled ∈ body.code, labelled.operator.isSupported = true)
    (hb : body.blocks[label]? = some block) : block.kind ≠ .cond := by
  intro hk
  have hopen := (h.start_iff label block hb block.start block.kind block.type).mpr ⟨rfl, rfl, rfl⟩
  have hsup := hs _ (List.mem_of_getElem? hopen)
  rw [hk] at hsup
  cases hsup

theorem count_mark (h : Resolved body.code body.blocks)
    (hb : body.blocks[label]? = some block) (hk : block.kind ≠ .cond) :
    (body.code.flatMap (ops body base)).count (.mark (base + label)) = 1 := by
  have hopen := (h.start_iff label block hb block.start block.kind block.type).mpr ⟨rfl, rfl, rfl⟩
  obtain ⟨last, he, -, hlast⟩ := h.end_iff label block hb
  cases hkind : block.kind with
  | loop =>
    rw [hkind] at hopen
    refine count_flatMap_eq_one hopen (List.count_singleton_self ..) ?_
    intro index other hc hm
    rcases h.mark_index hb hc hm with ⟨-, hstart⟩ | ⟨hblock, -⟩
    · exact hstart
    · rw [hkind] at hblock
      cases hblock
  | block =>
    have hops : ops body base (.close (some label)) = [.mark (base + label)] := by
      simp [ops, ops?, hb, hkind]
    refine count_flatMap_eq_one ((hlast last).mpr rfl) (by rw [hops, List.count_singleton_self]) ?_
    intro index other hc hm
    rcases h.mark_index hb hc hm with ⟨hloop, -⟩ | ⟨-, hend⟩
    · rw [hkind] at hloop
      cases hloop
    · exact Option.some.inj (hend.symm.trans he)
  | cond => exact absurd hkind hk

/-- Branches to a block are lowered to operations before the mark of its label. -/
theorem jump_before_mark (h : Resolved body.code body.blocks)
    (hb : body.blocks[label]? = some block) (hk : block.kind = .block) {mark place : Nat}
    {op : Listing.Op}
    (hm : (body.code.flatMap (ops body base))[mark]? = some (.mark (base + label)))
    (hp : (body.code.flatMap (ops body base))[place]? = some op)
    (hd : op.destination? = some (base + label)) : place < mark := by
  obtain ⟨site, marking, hmark⟩ := exists_stemsFrom hm
  obtain ⟨index, jumping, hjump⟩ := exists_stemsFrom hp
  apply hjump.place_lt hmark
  rcases h.mark_index hb hmark.code_eq hmark.mem with ⟨hloop, -⟩ | ⟨-, hend⟩
  · rw [hk] at hloop
    cases hloop
  · exact (h.jump_index hb hjump.code_eq hjump.mem hd).2 hk site hend

/-- Branches to a loop, and its own end, are lowered to operations behind the mark of its label. -/
theorem jump_behind_mark (h : Resolved body.code body.blocks)
    (hb : body.blocks[label]? = some block) (hk : block.kind = .loop) {mark place : Nat}
    {op : Listing.Op}
    (hm : (body.code.flatMap (ops body base))[mark]? = some (.mark (base + label)))
    (hp : (body.code.flatMap (ops body base))[place]? = some op)
    (hd : op.destination? = some (base + label)) : mark < place := by
  obtain ⟨site, marking, hmark⟩ := exists_stemsFrom hm
  obtain ⟨index, jumping, hjump⟩ := exists_stemsFrom hp
  apply hmark.place_lt hjump
  rcases h.mark_index hb hmark.code_eq hmark.mem with ⟨-, rfl⟩ | ⟨hblock, -⟩
  · exact (h.jump_index hb hjump.code_eq hjump.mem hd).1
  · rw [hk] at hblock
    cases hblock

/-- The end of a loop is lowered to a jump, which stands at its place. -/
theorem jump_of_loop_end (h : Resolved body.code body.blocks)
    (hb : body.blocks[label]? = some block) (hk : block.kind = .loop) {last : Nat}
    (he : block.endAt = some last) :
    (body.code.flatMap (ops body base))[opsBefore body base body.code last]? =
      some (.jump (base + label)) := by
  obtain ⟨last', he', -, hlast⟩ := h.end_iff label block hb
  obtain rfl : last = last' := Option.some.inj (he.symm.trans he')
  have hops : ops body base (.close (some label)) = [.jump (base + label)] := by
    simp [ops, ops?, hb, hk]
  have hat := @getElem?_flatMap_ops body base _ _ _ ((hlast last).mpr rfl) 0
    (by rw [hops]; exact Nat.one_pos)
  rwa [Nat.add_zero, hops] at hat

end Resolved

/-! ## Whole bodies -/

namespace Body

/-- What is true of the labels when a body was lowered behind `listing`, which left `state` and has
appended the given operations. -/
structure Labelling (body : Body) (listing : Listing) (state : Lowering)
    (appended : List Listing.Op) : Prop where
  ops_eq : state.listing.ops.toList = listing.ops.toList ++ appended
  labels_eq : state.listing.labels = listing.labels + body.blocks.size
  target_eq : ∀ label < body.blocks.size,
    state.targets[label]? = some (some (listing.labels + label))
  appended_eq : appended = body.code.flatMap (Lowering.ops body listing.labels)
  marked_once : ∀ label < body.blocks.size, appended.count (.mark (listing.labels + label)) = 1
  bound : ∀ label < body.blocks.size, listing.labels + label ∉ state.listing.unbound
  destination : ∀ op ∈ appended, ∀ target, op.destination? = some target →
    ∃ label < body.blocks.size, target = listing.labels + label
  before_mark : ∀ (label : Label) (block : Block) (mark place : Nat) (op : Listing.Op),
    body.blocks[label]? = some block → block.kind = .block →
    appended[mark]? = some (.mark (listing.labels + label)) →
    appended[place]? = some op → op.destination? = some (listing.labels + label) → place < mark
  behind_mark : ∀ (label : Label) (block : Block) (mark place : Nat) (op : Listing.Op),
    body.blocks[label]? = some block → block.kind = .loop →
    appended[mark]? = some (.mark (listing.labels + label)) →
    appended[place]? = some op → op.destination? = some (listing.labels + label) → mark < place
  jumps : ∀ (label : Label) (block : Block), body.blocks[label]? = some block →
    appended.count (.jump (listing.labels + label)) =
      body.code.countP (·.isBr label) + if block.kind = .loop then 1 else 0
  jumpIfs : ∀ label, appended.count (.jumpIf (listing.labels + label)) =
    body.code.countP (·.isBrIf label)
  loop_end : ∀ (label : Label) (block : Block) (last : Nat), body.blocks[label]? = some block →
    block.kind = .loop → block.endAt = some last →
    state.listing.ops[body.place listing last]? = some (.jump (listing.labels + label))

variable {body : Body} {listing : Listing} {state : Lowering}

theorem supportedFront_eq (hs : ∀ labelled ∈ body.code, labelled.operator.isSupported = true) :
    body.supportedFront = body.instructions.toList := by
  rw [code, List.forall_mem_map] at hs
  exact List.takeWhile_eq_self_iff.mpr hs

/-- Every block of a body that was lowered has been given its label. -/
theorem target_of_lower (hres : Resolved body.code body.blocks)
    (hs : ∀ labelled ∈ body.code, labelled.operator.isSupported = true)
    (hl : body.lower listing = (.ok (), state)) {label : Label} (hlt : label < body.blocks.size) :
    ∃ target, state.targets[label]? = some (some target) := by
  obtain ⟨state', hrun, hb⟩ := run_supportedFront hres listing
  rw [supportedFront_eq hs] at hrun hb
  obtain rfl : state = state' := congrArg Prod.snd (hl.symm.trans hrun)
  have hm : label ∈ openedLabels (body.instructions.toList.map Placed.labelled) := by
    have heq : openedLabels body.code = List.range body.blocks.size := hres.openedLabels_eq
    rw [← code, heq, List.mem_range]
    exact hlt
  exact hb.filled label hm

theorem notMem_unbound {label : Nat} (h : Listing.Op.mark label ∈ listing.ops.toList) :
    label ∉ listing.unbound := by
  intro hm
  rw [Listing.unbound, List.mem_filter] at hm
  simp [Array.mem_toList_iff.mp h] at hm

theorem labelling_of_lower (hres : Resolved body.code body.blocks)
    (hs : ∀ labelled ∈ body.code, labelled.operator.isSupported = true)
    (hl : body.lower listing = (.ok (), state)) :
    body.Labelling listing state (body.code.flatMap (Lowering.ops body listing.labels)) := by
  have hn : openedLabels body.code = List.range body.blocks.size := hres.openedLabels_eq
  obtain ⟨-, hsync⟩ := (Lowering.InSync.start body listing).run hn hl
  have hops : state.listing.ops.toList = listing.ops.toList ++
      body.code.flatMap (Lowering.ops body listing.labels) := hsync.ops_eq
  have hlabels : state.listing.labels = listing.labels + (openedLabels body.code).length :=
    hsync.labels_eq
  have hmark : ∀ label < body.blocks.size,
      (body.code.flatMap (Lowering.ops body listing.labels)).count (.mark (listing.labels + label)) =
        1 := by
    intro label hlt
    have hb := Array.getElem?_eq_getElem hlt
    exact hres.count_mark hb (hres.kind_ne_cond hs hb)
  constructor
  case ops_eq => exact hops
  case labels_eq => rw [hlabels, hn, List.length_range]
  case target_eq =>
    intro label hlt
    obtain ⟨target, ht⟩ := target_of_lower hres hs hl hlt
    rw [ht, hsync.target_eq label target ht]
  case appended_eq => rfl
  case marked_once => exact hmark
  case bound =>
    intro label hlt
    apply notMem_unbound
    rw [hops]
    exact List.mem_append_right _ (List.count_pos_iff.mp (by rw [hmark label hlt]; exact Nat.one_pos))
  case destination =>
    intro op hm target hd
    obtain ⟨labelled, hlab, hin⟩ := List.mem_flatMap.mp hm
    exact hres.destination_label hlab hin hd
  case before_mark =>
    intro label block mark place op hb hk hm hp hd
    exact hres.jump_before_mark hb hk hm hp hd
  case behind_mark =>
    intro label block mark place op hb hk hm hp hd
    exact hres.jump_behind_mark hb hk hm hp hd
  case jumps =>
    intro label block hb
    rw [Lowering.count_jump_flatMap, hb, hres.count_close hb]
    simp
  case jumpIfs => exact Lowering.count_jumpIf_flatMap body listing.labels body.code
  case loop_end =>
    intro label block last hb hk he
    rw [place_eq hn hl, ← Array.getElem?_toList, hops, ← Array.length_toList,
      List.getElem?_append_right (Nat.le_add_right _ _), Nat.add_sub_cancel_left]
    exact hres.jump_of_loop_end hb hk he

/-- The labels that a body which was read gives to its blocks: they are the next ones of the listing,
each is marked once, and every jump goes to one of them, forward to a block and backward to a
loop. Labels are counted without a bound, whatever the listing held before, see `Listing`. -/
theorem read_labelling {mode : BodyMode} {params : UInt32} {cursor left : Cursor}
    (h : read mode params cursor = (.ok body, left))
    (hl : body.lower listing = (.ok (), state)) :
    ∃ appended, body.Labelling listing state appended := by
  obtain ⟨-, chunks, control, ht⟩ := read_ok_iff.mp h
  have hres := ht.tracks.resolved
  have hverdict : body.verdict = .ok () := by
    rw [lower_eq hres] at hl
    exact congrArg Prod.fst hl
  exact ⟨_, labelling_of_lower hres (body.verdict_eq_ok_iff.mp hverdict) hl⟩

/-- A block around a loop, with a branch out of the block and one to the loop, lowered behind a
listing that has three labels. The block is marked 3 at its end, the loop 4 at its beginning, and
the end of the loop jumps back to 4. -/
theorem read_labelling_loop :
    ∃ body left state, read .function 1 ⟨0, [0x02, 0x40, 0x03, 0x40, 0x20, 0x00, 0x0D, 0x01, 0x20,
        0x01, 0x0D, 0x00, 0x0B, 0x0B, 0x0B]⟩ = (.ok body, left) ∧
      body.lower ⟨#[.ret], 3⟩ = (.ok (), state) ∧
      state.listing = ⟨#[.ret, .mark 4, .load (.param 0), .jumpIf 3, .load (.localVar 0), .jumpIf 4,
        .jump 4, .mark 3, .ret], 5⟩ ∧
      ∃ appended, body.Labelling ⟨#[.ret], 3⟩ state appended := by
  let body : Body :=
    ⟨#[⟨.enter .block .empty 0, 0, 2⟩, ⟨.enter .loop .empty 1, 2, 2⟩,
        ⟨.plain (.variable .getLocal 0), 4, 2⟩, ⟨.brIf ⟨1, 0⟩, 6, 2⟩,
        ⟨.plain (.variable .getLocal 1), 8, 2⟩, ⟨.brIf ⟨0, 1⟩, 10, 2⟩, ⟨.close (some 1), 12, 1⟩,
        ⟨.close (some 0), 13, 1⟩, ⟨.close none, 14, 1⟩],
      #[⟨.block, .empty, 0, none, some 7⟩, ⟨.loop, .empty, 1, none, some 6⟩], 1, false⟩
  have h : read .function 1 ⟨0, [0x02, 0x40, 0x03, 0x40, 0x20, 0x00, 0x0D, 0x01, 0x20, 0x01, 0x0D,
      0x00, 0x0B, 0x0B, 0x0B]⟩ = (.ok body, ⟨15, []⟩) := by
    decide +kernel
  have hl : body.lower ⟨#[.ret], 3⟩ = (.ok (), (body.lower ⟨#[.ret], 3⟩).2) := by decide +kernel
  exact ⟨body, _, _, h, hl, by decide +kernel, read_labelling h hl⟩

end Body

end FlatWasm
