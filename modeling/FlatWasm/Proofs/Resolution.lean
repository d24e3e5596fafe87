import FlatWasm.Proofs.Scanning

/-!
# Where blocks begin and end

While a body is read, the open blocks are a stack. In the finished body that stack is gone, and
what is left are the records: the places where each block begins, is divided and ends. This module
recovers the stack from the places. The blocks that were open at an instruction are those that
begin before it and end at it or behind, and their order by label, the latest first, is their order
on the stack. Hence a depth counts the blocks around an instruction from the innermost outwards.
-/

namespace FlatWasm

namespace Block

/-- The block begins before the index, and has not ended before it. -/
def isOpenAt (block : Block) (index : Nat) : Bool :=
  block.start < index && block.endAt.all (index ≤ ·)

/-- The index lies between the two ends of the block. -/
def encloses (block : Block) (index : Nat) : Bool :=
  block.start < index && block.endAt.any (index < ·)

/-- The index lies between the two ends of the block, or at the second. -/
def reaches (block : Block) (index : Nat) : Bool :=
  block.start < index && block.endAt.any (index ≤ ·)

/-- Both ends of the block lie between those of another. -/
def within (inner outer : Block) : Bool :=
  outer.start < inner.start && inner.endAt.any fun last => outer.endAt.any (last < ·)

end Block

/-- The labels of the blocks of which something holds, in order. -/
def labelsWhere (blocks : Array Block) (holds : Block → Bool) : List Label :=
  (List.range blocks.size).filter fun label => blocks[label]?.any holds

/-- Of the blocks of which something holds, the labelled one has so many strictly inside it. -/
def IsNth (blocks : Array Block) (holds : Block → Bool) (depth : Nat) (label : Label) : Prop :=
  ∃ block, blocks[label]? = some block ∧ holds block = true ∧
    (labelsWhere blocks fun inner => holds inner && inner.within block).length = depth

namespace Labelled

/-- What an opening instruction says of its block. -/
def opening : Labelled → Option (BlockKind × BlockType × Label)
  | .enter kind type label => some (kind, type, label)
  | _ => none

/-- The targets of a branch, the default of a table last. -/
def targets : Labelled → List Target
  | .br target | .brIf target => [target]
  | .brTable targets default => targets ++ [default]
  | _ => []

end Labelled

/-- The labels of the blocks that are opened, in order. -/
def openedLabels (code : List Labelled) : List Label :=
  code.filterMap fun labelled => labelled.opens.map Prod.snd

theorem openedLabels_append (front back : List Labelled) :
    openedLabels (front ++ back) = openedLabels front ++ openedLabels back :=
  List.filterMap_append

/-- The records of a body agree with its instructions, and its labels with the records. -/
structure Resolved (code : List Labelled) (blocks : Array Block) : Prop where
  openings : code.filterMap Labelled.opening =
    blocks.toList.zipIdx.map fun (block, label) => (block.kind, block.type, label)
  start_iff : ∀ (label : Label) (block : Block), blocks[label]? = some block →
    ∀ (index : Nat) kind type, code[index]? = some (.enter kind type label) ↔
      index = block.start ∧ kind = block.kind ∧ type = block.type
  end_iff : ∀ (label : Label) (block : Block), blocks[label]? = some block →
    ∃ last, block.endAt = some last ∧ block.start < last ∧
      ∀ index : Nat, code[index]? = some (.close (some label)) ↔ index = last
  else_iff : ∀ (label : Label) (block : Block), blocks[label]? = some block →
    ∀ index : Nat, code[index]? = some (.otherwise label) ↔ block.elseAt = some index
  else_between : ∀ (label : Label) (block : Block) (index : Nat), blocks[label]? = some block →
    block.elseAt = some index → block.kind = .cond ∧ block.encloses index = true
  disjoint_or_nested : ∀ (label label' : Label) (block block' : Block) (last last' : Nat),
    label ≠ label' → blocks[label]? = some block → blocks[label']? = some block' →
    block.endAt = some last → block'.endAt = some last' →
    last < block'.start ∨ last' < block.start ∨
      block'.within block = true ∨ block.within block' = true
  target_iff : ∀ (index : Nat) (labelled : Labelled) (target : Target),
    code[index]? = some labelled → target ∈ labelled.targets →
    ∀ label, IsNth blocks (·.encloses index) target.depth.toNat label ↔ label = target.label
  otherwise_iff : ∀ (index : Nat) (label : Label), code[index]? = some (.otherwise label) →
    ∀ other, IsNth blocks (·.encloses index) 0 other ↔ other = label
  close_iff : ∀ (index : Nat) (label : Label), code[index]? = some (.close (some label)) →
    ∀ other, IsNth blocks (·.reaches index) 0 other ↔ other = label

/-! ## The stack, recovered from the places -/

/-- The blocks open at an index, the innermost first. -/
def openAt (blocks : Array Block) (index : Nat) : List Label :=
  (labelsWhere blocks (·.isOpenAt index)).reverse

/-- The labels of an instruction are those that the blocks open at its index give it. -/
structure Named (blocks : Array Block) (index : Nat) (labelled : Labelled) : Prop where
  targets : ∀ target ∈ labelled.targets,
    (openAt blocks index)[target.depth.toNat]? = some target.label
  innermost : ∀ label, labelled = .otherwise label ∨ labelled = .close (some label) →
    (openAt blocks index)[0]? = some label

/-- Each block that was opened in `code` has its record, and the records stand in the order of the
openings. -/
structure Opened (code : List Labelled) (blocks : Array Block) : Prop where
  openings : code.filterMap Labelled.opening =
    blocks.toList.zipIdx.map fun (block, label) => (block.kind, block.type, label)
  starts : ∀ (label : Label) (block : Block), blocks[label]? = some block →
    code[block.start]? = some (.enter block.kind block.type label)
  enters : ∀ (index : Nat) kind type (label : Label),
    code[index]? = some (.enter kind type label) →
    ∃ block, blocks[label]? = some block ∧ block.start = index
  ordered : ∀ (label label' : Label) (block block' : Block), label < label' →
    blocks[label]? = some block → blocks[label']? = some block' → block.start < block'.start

/-- What is true of the records and of the open blocks when `code` has been read of a body. -/
structure Tracks (code : List Labelled) (blocks : Array Block) (openBlocks : List OpenBlock) : Prop
    extends Opened code blocks where
  closes : ∀ (index : Nat) (label : Label), code[index]? = some (.close (some label)) ↔
    ∃ block, blocks[label]? = some block ∧ block.endAt = some index
  divides : ∀ (index : Nat) (label : Label), code[index]? = some (.otherwise label) ↔
    ∃ block, blocks[label]? = some block ∧ block.elseAt = some index
  forward : ∀ (label : Label) (block : Block) last, blocks[label]? = some block →
    block.endAt = some last → block.start < last
  elses : ∀ (label : Label) (block : Block) index, blocks[label]? = some block →
    block.elseAt = some index →
    block.kind = .cond ∧ block.start < index ∧ ∀ last, block.endAt = some last → index < last
  nested : ∀ (label label' : Label) (block block' : Block) (last : Nat), label < label' →
    blocks[label]? = some block → blocks[label']? = some block' → block.endAt = some last →
    last < block'.start ∨ ∃ last', block'.endAt = some last' ∧ last' < last
  stack : openBlocks.map OpenBlock.label = openAt blocks code.length
  kinds : ∀ entry ∈ openBlocks, ∃ block, blocks[entry.label]? = some block ∧
    block.kind = entry.kind ∧ block.elseAt.isSome = entry.hasElse
  named : ∀ (index : Nat) labelled, code[index]? = some labelled → Named blocks index labelled

theorem getElem?_concat_eq_some_iff {code : List Labelled} {labelled found : Labelled}
    {index : Nat} : (code ++ [labelled])[index]? = some found ↔
      code[index]? = some found ∨ index = code.length ∧ labelled = found := by
  grind

theorem getElem?_modify_eq_some_iff {blocks : Array Block} {label : Label} {own : Block}
    (hown : blocks[label]? = some own) (change : Block → Block) (other : Label) (block : Block) :
    (blocks.modify label change)[other]? = some block ↔
      other ≠ label ∧ blocks[other]? = some block ∨ other = label ∧ block = change own := by
  grind

theorem mem_openAt {blocks : Array Block} {index : Nat} {label : Label} :
    label ∈ openAt blocks index ↔
      ∃ block, blocks[label]? = some block ∧ block.isOpenAt index = true := by
  simp only [openAt, labelsWhere, List.mem_reverse, List.mem_filter, List.mem_range,
    Option.any_eq_true]
  grind

theorem openAt_sorted (blocks : Array Block) (index : Nat) :
    (openAt blocks index).Pairwise (· > ·) := by
  rw [openAt, List.pairwise_reverse]
  exact List.pairwise_lt_range.filter _

theorem openAt_push {blocks : Array Block} {block : Block} {index : Nat} :
    openAt (blocks.push block) index =
      if block.isOpenAt index then blocks.size :: openAt blocks index else openAt blocks index := by
  have hold : (List.range blocks.size).filter
      (fun label => (blocks.push block)[label]?.any (·.isOpenAt index)) =
      labelsWhere blocks (·.isOpenAt index) := by
    apply List.filter_congr
    intro label hl
    rw [Array.getElem?_push_lt (List.mem_range.mp hl)]
    simp [List.mem_range.mp hl]
  rw [openAt, labelsWhere, Array.size_push, List.range_succ, List.filter_append, hold]
  by_cases ho : block.isOpenAt index <;> simp [ho, openAt]

/-- Changing one record keeps the blocks open at an index, all but the changed one perhaps. -/
theorem openAt_modify {blocks : Array Block} {label : Label} {change : Block → Block}
    {index : Nat} (kept : Bool)
    (hc : ∀ block, blocks[label]? = some block →
      (change block).isOpenAt index = (block.isOpenAt index && kept)) :
    openAt (blocks.modify label change) index =
      (openAt blocks index).filter fun other => kept || other != label := by
  rw [openAt, labelsWhere, Array.size_modify, openAt, labelsWhere, List.filter_reverse,
    List.filter_filter]
  congr 1
  apply List.filter_congr
  intro other _
  rw [Array.getElem?_modify]
  by_cases hl : label = other
  · subst hl
    cases hb : blocks[label]? with
    | none => simp
    | some block => simp [hc block hb, Bool.and_comm]
  · simp [hl, Ne.symm hl]

/-- A block that begins at an index is not among those open there, nor before. -/
theorem openAt_opened {blocks : Array Block} {kind : BlockKind} {type : BlockType}
    {start index : Nat} (hi : index ≤ start) :
    openAt (blocks.push ⟨kind, type, start, none, none⟩) index = openAt blocks index := by
  rw [openAt_push, if_neg]
  simpa [Block.isOpenAt] using hi

theorem openAt_divided {blocks : Array Block} {label : Label} {place : Option Nat} {index : Nat} :
    openAt (blocks.modify label ({ · with elseAt := place })) index = openAt blocks index := by
  rw [openAt_modify true (by simp [Block.isOpenAt])]
  simp

/-- The end of a block is not yet seen at the index of the end, nor before. -/
theorem openAt_closed {blocks : Array Block} {label : Label} {own : Block} {last index : Nat}
    (hown : blocks[label]? = some own) (hopen : own.endAt = none) (hi : index ≤ last) :
    openAt (blocks.modify label ({ · with endAt := some last })) index = openAt blocks index := by
  rw [openAt_modify true]
  · simp
  · intro block hb
    obtain rfl : block = own := Option.some.inj (hb.symm.trans hown)
    simp [Block.isOpenAt, hopen, hi]

theorem Named.congr {blocks blocks' : Array Block} {index : Nat} {labelled : Labelled}
    (h : Named blocks index labelled) (ho : openAt blocks' index = openAt blocks index) :
    Named blocks' index labelled := by
  constructor
  · rw [ho]
    exact h.targets
  · rw [ho]
    exact h.innermost

namespace Opened

variable {code : List Labelled} {blocks : Array Block} {label : Label} {block : Block}

theorem start_lt (o : Opened code blocks) (hb : blocks[label]? = some block) :
    block.start < code.length :=
  (List.getElem?_eq_some_iff.mp (o.starts label block hb)).1

theorem concat (o : Opened code blocks) {labelled : Labelled} (hl : labelled.opening = none) :
    Opened (code ++ [labelled]) blocks := by
  refine ⟨by simp [o.openings, hl], ?_, ?_, o.ordered⟩
  · intro label block hb
    rw [getElem?_concat_eq_some_iff]
    exact .inl (o.starts label block hb)
  · intro index kind type label h
    rcases getElem?_concat_eq_some_iff.mp h with h | ⟨-, rfl⟩
    · exact o.enters index kind type label h
    · simp [Labelled.opening] at hl

theorem modify (o : Opened code blocks) (label : Label) {change : Block → Block}
    (hk : ∀ block, (change block).kind = block.kind)
    (ht : ∀ block, (change block).type = block.type)
    (hs : ∀ block, (change block).start = block.start) :
    Opened code (blocks.modify label change) := by
  have hmod : ∀ (other : Label) (block : Block),
      (blocks.modify label change)[other]? = some block →
        ∃ old, blocks[other]? = some old ∧ old.kind = block.kind ∧ old.type = block.type ∧
          old.start = block.start := by
    intro other block hb
    grind
  constructor
  · rw [o.openings]
    apply List.ext_getElem?
    intro other
    simp only [List.getElem?_map, List.getElem?_zipIdx, Array.getElem?_toList,
      Array.getElem?_modify]
    grind
  · intro other block hb
    obtain ⟨old, ho, hkind, htype, hstart⟩ := hmod other block hb
    rw [← hkind, ← htype, ← hstart]
    exact o.starts other old ho
  · intro index kind type other h
    obtain ⟨block, hb, hstart⟩ := o.enters index kind type other h
    rw [Array.getElem?_modify, hb]
    grind
  · intro other other' block block' hlt hb hb'
    obtain ⟨old, ho, -, -, hstart⟩ := hmod other block hb
    obtain ⟨old', ho', -, -, hstart'⟩ := hmod other' block' hb'
    rw [← hstart, ← hstart']
    exact o.ordered other other' old old' hlt ho ho'

theorem push (o : Opened code blocks) (kind : BlockKind) (type : BlockType) :
    Opened (code ++ [.enter kind type blocks.size])
      (blocks.push ⟨kind, type, code.length, none, none⟩) := by
  constructor
  · simp [o.openings, Labelled.opening, List.zipIdx_append]
  · intro label block hb
    rw [getElem?_concat_eq_some_iff]
    rw [Array.getElem?_push] at hb
    split at hb
    · next hl =>
      cases hb
      exact .inr ⟨rfl, by rw [hl]⟩
    · exact .inl (o.starts label block hb)
  · intro index kind' type' label h
    rcases getElem?_concat_eq_some_iff.mp h with h | ⟨rfl, hl⟩
    · obtain ⟨block, hb, hs⟩ := o.enters index kind' type' label h
      exact ⟨block, by rw [Array.getElem?_push_lt (Array.getElem?_eq_some_iff.mp hb).1]; grind, hs⟩
    · cases hl
      exact ⟨_, Array.getElem?_push_size, rfl⟩
  · intro label label' block block' hlt hb hb'
    -- of two labels the smaller is never the new one
    have hb : blocks[label]? = some block := by grind
    rw [Array.getElem?_push] at hb'
    split at hb'
    · cases hb'
      exact o.start_lt hb
    · exact o.ordered label label' block block' hlt hb hb'

end Opened

namespace Tracks

variable {code : List Labelled} {blocks : Array Block} {openBlocks outer : List OpenBlock}
  {label : Label} {block : Block} {labelled : Labelled}

theorem end_lt (t : Tracks code blocks openBlocks) (hb : blocks[label]? = some block) {last : Nat}
    (he : block.endAt = some last) : last < code.length :=
  (List.getElem?_eq_some_iff.mp ((t.closes last label).mpr ⟨block, hb, he⟩)).1

theorem else_lt (t : Tracks code blocks openBlocks) (hb : blocks[label]? = some block)
    {index : Nat} (he : block.elseAt = some index) : index < code.length :=
  (List.getElem?_eq_some_iff.mp ((t.divides index label).mpr ⟨block, hb, he⟩)).1

/-- Behind all that has been read, the open blocks are those without an end. -/
theorem isOpenAt_eq (t : Tracks code blocks openBlocks) (hb : blocks[label]? = some block)
    {index : Nat} (hi : code.length ≤ index) : block.isOpenAt index = block.endAt.isNone := by
  have hs := t.start_lt hb
  cases he : block.endAt with
  | none =>
    have hbegun : block.start < index := by omega
    simp [Block.isOpenAt, he, hbegun]
  | some last =>
    have hl := t.end_lt hb he
    have hended : last < index := by omega
    simp [Block.isOpenAt, he, hended]

theorem openAt_succ (t : Tracks code blocks openBlocks) :
    openAt blocks (code.length + 1) = openAt blocks code.length := by
  rw [openAt, openAt, labelsWhere, labelsWhere]
  congr 1
  apply List.filter_congr
  intro label _
  cases hb : blocks[label]? with
  | none => rfl
  | some block => simp [t.isOpenAt_eq hb]

theorem mem_stack (t : Tracks code blocks openBlocks) :
    label ∈ openBlocks.map OpenBlock.label ↔
      ∃ block, blocks[label]? = some block ∧ block.endAt = none := by
  rw [t.stack, mem_openAt]
  constructor
  · rintro ⟨block, hb, ho⟩
    rw [t.isOpenAt_eq hb (Nat.le_refl _), Option.isNone_iff_eq_none] at ho
    exact ⟨block, hb, ho⟩
  · rintro ⟨block, hb, ho⟩
    exact ⟨block, hb, by rw [t.isOpenAt_eq hb (Nat.le_refl _), ho]; rfl⟩

/-- The innermost open block has no end yet, and every block opened after it has one. -/
theorem innermost {entry : OpenBlock} (t : Tracks code blocks (entry :: outer)) :
    (∃ block, blocks[entry.label]? = some block ∧ block.endAt = none ∧ block.kind = entry.kind ∧
      block.elseAt.isSome = entry.hasElse) ∧
    ∀ (label : Label) (block : Block), entry.label < label → blocks[label]? = some block →
      ∃ last, block.endAt = some last := by
  constructor
  · obtain ⟨block, hb, he⟩ := t.mem_stack.mp (List.mem_cons_self ..)
    obtain ⟨block', hb', hk⟩ := t.kinds entry (List.mem_cons_self ..)
    obtain rfl : block = block' := Option.some.inj (hb.symm.trans hb')
    exact ⟨block, hb, he, hk⟩
  · intro label block hlt hb
    rw [← Option.isSome_iff_exists, Option.isSome_iff_ne_none]
    intro he
    have hm := t.mem_stack.mpr ⟨block, hb, he⟩
    have hs := openAt_sorted blocks code.length
    rw [← t.stack, List.map_cons, List.pairwise_cons] at hs
    rcases List.mem_cons.mp hm with rfl | hm
    · exact absurd hlt (Nat.lt_irrefl _)
    · exact absurd hlt (Nat.lt_asymm (hs.1 label hm))

theorem label_ne {entry other : OpenBlock} (t : Tracks code blocks (entry :: outer))
    (hm : other ∈ outer) : other.label ≠ entry.label := by
  have hs := openAt_sorted blocks code.length
  rw [← t.stack, List.map_cons, List.pairwise_cons] at hs
  exact Nat.ne_of_lt (hs.1 other.label (List.mem_map_of_mem hm))

theorem empty : Tracks [] Control.empty.blocks Control.empty.openBlocks := by
  constructor
  · constructor <;> simp [Control.empty]
  all_goals simp [Control.empty, openAt, labelsWhere]

/-- Earlier instructions keep their labels, and so does the one that was read last. -/
theorem named_concat (t : Tracks code blocks openBlocks) {blocks' : Array Block}
    (ho : ∀ index ≤ code.length, openAt blocks' index = openAt blocks index)
    (hr : ∀ target ∈ labelled.targets,
      (openBlocks.map OpenBlock.label)[target.depth.toNat]? = some target.label)
    (hi : ∀ label, labelled = .otherwise label ∨ labelled = .close (some label) →
      (openBlocks.map OpenBlock.label)[0]? = some label)
    (index : Nat) (found : Labelled) (hf : (code ++ [labelled])[index]? = some found) :
    Named blocks' index found := by
  rcases getElem?_concat_eq_some_iff.mp hf with hf | ⟨rfl, rfl⟩
  · have hlt := (List.getElem?_eq_some_iff.mp hf).1
    exact (t.named index found hf).congr (ho index (Nat.le_of_lt hlt))
  · rw [t.stack, ← ho _ (Nat.le_refl _)] at hr hi
    exact ⟨hr, hi⟩

/-- An instruction that is no part of a block's frame changes nothing. -/
theorem idle (t : Tracks code blocks openBlocks) (ho : labelled.opening = none)
    (hd : ∀ label, labelled ≠ .otherwise label) (hc : ∀ label, labelled ≠ .close (some label))
    (hr : ∀ target ∈ labelled.targets,
      (openBlocks.map OpenBlock.label)[target.depth.toNat]? = some target.label) :
    Tracks (code ++ [labelled]) blocks openBlocks where
  toOpened := t.toOpened.concat ho
  closes index label := by
    rw [getElem?_concat_eq_some_iff, t.closes]
    simp [hc]
  divides index label := by
    rw [getElem?_concat_eq_some_iff, t.divides]
    simp [hd]
  forward := t.forward
  elses := t.elses
  nested := t.nested
  stack := by rw [t.stack, List.length_append, List.length_singleton, t.openAt_succ]
  kinds := t.kinds
  named := t.named_concat (fun _ _ => rfl) hr (by simp [hd, hc])

theorem enter (t : Tracks code blocks openBlocks) (kind : BlockKind) (type : BlockType) :
    Tracks (code ++ [.enter kind type blocks.size])
      (blocks.push ⟨kind, type, code.length, none, none⟩)
      (⟨blocks.size, kind, false⟩ :: openBlocks) where
  toOpened := t.toOpened.push kind type
  closes index label := by
    rw [getElem?_concat_eq_some_iff, t.closes]
    grind
  divides index label := by
    rw [getElem?_concat_eq_some_iff, t.divides]
    grind
  forward label block last hb he := t.forward label block last (by grind) he
  elses label block index hb he := t.elses label block index (by grind) he
  nested label label' block block' last hlt hb hb' he := by
    have hb : blocks[label]? = some block := by grind
    rw [Array.getElem?_push] at hb'
    split at hb'
    · cases hb'
      exact .inl (t.end_lt hb he)
    · exact t.nested label label' block block' last hlt hb hb' he
  stack := by
    rw [openAt_push, List.length_append, List.length_singleton, t.openAt_succ, List.map_cons,
      t.stack]
    simp [Block.isOpenAt]
  kinds entry hm := by
    rcases List.mem_cons.mp hm with rfl | hm
    · exact ⟨_, Array.getElem?_push_size, rfl, rfl⟩
    · obtain ⟨block, hb, hk⟩ := t.kinds entry hm
      exact ⟨block, by grind, hk⟩
  named := by
    refine t.named_concat (fun index hi => ?_) (by simp [Labelled.targets]) (by simp)
    exact openAt_opened hi

theorem divide {label : Label} (t : Tracks code blocks (⟨label, .cond, false⟩ :: outer)) :
    Tracks (code ++ [.otherwise label])
      (blocks.modify label ({ · with elseAt := some code.length }))
      (⟨label, .cond, true⟩ :: outer) := by
  obtain ⟨⟨own, hown, hopen, hkind, helse⟩, -⟩ := t.innermost
  have hmod := getElem?_modify_eq_some_iff hown ({ · with elseAt := some code.length })
  constructor
  · exact (t.toOpened.modify label (by simp) (by simp) (by simp)).concat rfl
  · intro index other
    rw [getElem?_concat_eq_some_iff, t.closes]
    grind
  · intro index other
    rw [getElem?_concat_eq_some_iff, t.divides]
    grind
  · intro other block last hb he
    rcases (hmod other block).mp hb with ⟨-, hb⟩ | ⟨rfl, rfl⟩
    · exact t.forward other block last hb he
    · exact t.forward other own last hown he
  · intro other block index hb he
    rcases (hmod other block).mp hb with ⟨-, hb⟩ | ⟨rfl, rfl⟩
    · exact t.elses other block index hb he
    · have hs := t.start_lt hown
      cases he
      exact ⟨hkind, hs, fun last hl => by simp [hopen] at hl⟩
  · intro other other' block block' last hlt hb hb' he
    obtain ⟨old, ho, hoe⟩ : ∃ old, blocks[other]? = some old ∧ old.endAt = some last := by grind
    rcases (hmod other' block').mp hb' with ⟨-, hb'⟩ | ⟨rfl, rfl⟩
    · exact t.nested other other' old block' last hlt ho hb' hoe
    · exact t.nested other other' old own last hlt ho hown hoe
  · rw [openAt_divided, List.length_append, List.length_singleton, t.openAt_succ, ← t.stack]
    rfl
  · intro entry hm
    rcases List.mem_cons.mp hm with rfl | hm
    · exact ⟨_, (hmod _ _).mpr (.inr ⟨rfl, rfl⟩), hkind, rfl⟩
    · obtain ⟨block, hb, hk⟩ := t.kinds entry (List.mem_cons_of_mem _ hm)
      exact ⟨block, (hmod _ _).mpr (.inl ⟨t.label_ne hm, hb⟩), hk⟩
  · exact t.named_concat (fun index _ => openAt_divided) (by simp [Labelled.targets]) (by simp)

theorem close {entry : OpenBlock} (t : Tracks code blocks (entry :: outer)) :
    Tracks (code ++ [.close (some entry.label)])
      (blocks.modify entry.label ({ · with endAt := some code.length })) outer := by
  obtain ⟨⟨own, hown, hopen, -, -⟩, hlater⟩ := t.innermost
  have hmod := getElem?_modify_eq_some_iff hown ({ · with endAt := some code.length })
  constructor
  · exact (t.toOpened.modify entry.label (by simp) (by simp) (by simp)).concat rfl
  · intro index other
    rw [getElem?_concat_eq_some_iff, t.closes]
    grind
  · intro index other
    rw [getElem?_concat_eq_some_iff, t.divides]
    grind
  · intro other block last hb he
    rcases (hmod other block).mp hb with ⟨-, hb⟩ | ⟨rfl, rfl⟩
    · exact t.forward other block last hb he
    · have hs := t.start_lt hown
      cases he
      exact hs
  · intro other block index hb he
    rcases (hmod other block).mp hb with ⟨-, hb⟩ | ⟨rfl, rfl⟩
    · exact t.elses other block index hb he
    · obtain ⟨hk, hs, -⟩ := t.elses _ own index hown he
      refine ⟨hk, hs, ?_⟩
      intro last hl
      cases hl
      exact t.else_lt hown he
  -- a block that was opened later than the one that ends has ended before it
  · intro other other' block block' last hlt hb hb' he
    rcases (hmod other block).mp hb with ⟨-, hb⟩ | ⟨rfl, rfl⟩
    · rcases (hmod other' block').mp hb' with ⟨-, hb'⟩ | ⟨rfl, rfl⟩
      · exact t.nested other other' block block' last hlt hb hb' he
      · rcases t.nested other _ block own last hlt hb hown he with hs | ⟨last', hl', -⟩
        · exact .inl hs
        · simp [hopen] at hl'
    · rcases (hmod other' block').mp hb' with ⟨-, hb'⟩ | ⟨rfl, rfl⟩
      · cases he
        obtain ⟨last', hl'⟩ := hlater other' block' hlt hb'
        exact .inr ⟨last', hl', t.end_lt hb' hl'⟩
      · exact absurd hlt (Nat.lt_irrefl _)
  · rw [List.length_append, List.length_singleton, openAt_modify false (by simp [Block.isOpenAt]),
      t.openAt_succ, ← t.stack, List.map_cons, List.filter_cons_of_neg (by simp), Eq.comm,
      List.filter_eq_self, List.forall_mem_map]
    intro other hm
    simpa using t.label_ne hm
  · intro other hm
    obtain ⟨block, hb, hk⟩ := t.kinds other (List.mem_cons_of_mem _ hm)
    exact ⟨block, (hmod _ _).mpr (.inl ⟨t.label_ne hm, hb⟩), hk⟩
  · refine t.named_concat (fun index hi => ?_) (by simp [Labelled.targets]) (by simp)
    exact openAt_closed hown hopen hi

theorem step {control next : Control} (t : Tracks code control.blocks control.openBlocks)
    (hs : control.Step code.length labelled next) :
    Tracks (code ++ [labelled]) next.blocks next.openBlocks := by
  cases hs with
  | plain instruction => exact t.idle rfl (by simp) (by simp) (by simp [Labelled.targets])
  | enter kind type nested => exact t.enter kind type
  | otherwise label outer innermost =>
    rw [innermost] at t
    exact t.divide
  | close block outer innermost =>
    rw [innermost] at t
    exact t.close
  | finish empty => exact t.idle rfl (by simp) (by simp) (by simp [Labelled.targets])
  | br target resolves =>
    exact t.idle rfl (by simp) (by simp) (List.forall_mem_singleton.mpr resolves)
  | brIf target resolves =>
    exact t.idle rfl (by simp) (by simp) (List.forall_mem_singleton.mpr resolves)
  | brTable targets default resolves default_resolves =>
    refine t.idle rfl (by simp) (by simp) ?_
    intro target hm
    rw [Labelled.targets, List.mem_append, List.mem_singleton] at hm
    rcases hm with hm | rfl
    · exact resolves target hm
    · exact default_resolves

theorem follows {control final : Control} {more : List Labelled}
    (t : Tracks code control.blocks control.openBlocks)
    (hf : control.Follows code.length more final) :
    Tracks (code ++ more) final.blocks final.openBlocks := by
  induction more generalizing code control with
  | nil =>
    rw [Control.Follows] at hf
    subst hf
    rwa [List.append_nil]
  | cons labelled more ih =>
    obtain ⟨next, hs, hf⟩ := hf
    have h := ih (t.step hs) (by rwa [List.length_append, List.length_singleton])
    rwa [List.append_assoc, List.singleton_append] at h

/-- What is read later does not change which blocks were open at an index. -/
theorem openAt_step {control next : Control} (t : Tracks code control.blocks control.openBlocks)
    (hs : control.Step code.length labelled next) {index : Nat} (hi : index ≤ code.length) :
    openAt next.blocks index = openAt control.blocks index := by
  cases hs with
  | enter kind type nested => exact openAt_opened hi
  | otherwise label outer innermost => exact openAt_divided
  | close block outer innermost =>
    rw [innermost] at t
    obtain ⟨⟨own, hown, hopen, -⟩, -⟩ := t.innermost
    exact openAt_closed hown hopen hi
  | _ => rfl

theorem openAt_follows {control final : Control} {more : List Labelled}
    (t : Tracks code control.blocks control.openBlocks)
    (hf : control.Follows code.length more final) {index : Nat} (hi : index ≤ code.length) :
    openAt final.blocks index = openAt control.blocks index := by
  induction more generalizing code control with
  | nil =>
    rw [Control.Follows] at hf
    rw [hf]
  | cons labelled more ih =>
    obtain ⟨next, hs, hf⟩ := hf
    have hlength : (code ++ [labelled]).length = code.length + 1 := List.length_append
    have hlater := ih (t.step hs) (by rwa [hlength]) (by omega)
    rw [hlater, t.openAt_step hs hi]

/-! ## Depths count blocks -/

theorem end_exists (t : Tracks code blocks []) (hb : blocks[label]? = some block) :
    ∃ last, block.endAt = some last := by
  rw [← Option.isSome_iff_exists, Option.isSome_iff_ne_none]
  intro he
  have hm := t.mem_stack.mpr ⟨block, hb, he⟩
  simp at hm

theorem disjoint_or_within (t : Tracks code blocks []) {label' : Label} {block' : Block}
    {last : Nat} (hlt : label < label') (hb : blocks[label]? = some block)
    (hb' : blocks[label']? = some block') (he : block.endAt = some last) :
    last < block'.start ∨ block'.within block = true := by
  rcases t.nested label label' block block' last hlt hb hb' he with hd | ⟨last', he', hl⟩
  · exact .inl hd
  · have hs := t.ordered label label' block block' hlt hb hb'
    exact .inr (by simp [Block.within, he, he', hs, hl])

/-- Of two blocks around one index, the inner is the one opened later. -/
theorem within_iff (t : Tracks code blocks []) {label' : Label} {block' : Block} {index : Nat}
    (hb : blocks[label]? = some block) (hb' : blocks[label']? = some block')
    (ho : block.isOpenAt index = true) (ho' : block'.isOpenAt index = true) :
    block'.within block = true ↔ label < label' := by
  constructor
  · intro hw
    rw [Block.within, Bool.and_eq_true, decide_eq_true_eq] at hw
    rcases Nat.lt_trichotomy label label' with hlt | rfl | hlt
    · exact hlt
    · rw [hb, Option.some.injEq] at hb'
      exact absurd hw.1 (by rw [hb']; exact Nat.lt_irrefl _)
    · exact absurd hw.1 (Nat.lt_asymm (t.ordered label' label block' block hlt hb' hb))
  · intro hlt
    obtain ⟨last, he⟩ := t.end_exists hb
    rcases t.disjoint_or_within hlt hb hb' he with hd | hw
    · simp only [Block.isOpenAt, Bool.and_eq_true, decide_eq_true_eq, he, Option.all_some] at ho ho'
      omega
    · exact hw

end Tracks

/-- In a decreasing list, the place of a member is the number of members that are greater. -/
theorem getElem?_eq_some_iff_of_decreasing {labels : List Label} (hs : labels.Pairwise (· > ·))
    {place : Nat} {label : Label} : labels[place]? = some label ↔
      label ∈ labels ∧ (labels.filter (label < ·)).length = place := by
  induction labels generalizing place with
  | nil => simp
  | cons first rest ih =>
    obtain ⟨hf, hr⟩ := List.pairwise_cons.mp hs
    have hnone : (first :: rest).filter (first < ·) = [] := by
      simpa [List.filter_eq_nil_iff] using fun other hm => Nat.le_of_lt (hf other hm)
    have hmore : label ∈ rest → ((first :: rest).filter (label < ·)).length =
        (rest.filter (label < ·)).length + 1 := by
      intro hm
      rw [List.filter_cons_of_pos (by simpa using hf label hm), List.length_cons]
    cases place with
    | zero =>
      rw [List.getElem?_cons_zero, Option.some.injEq]
      constructor
      · rintro rfl
        exact ⟨List.mem_cons_self, by rw [hnone, List.length_nil]⟩
      · rintro ⟨hm, hl⟩
        rcases List.mem_cons.mp hm with rfl | hm
        · rfl
        · rw [hmore hm] at hl
          omega
    | succ place =>
      rw [List.getElem?_cons_succ, ih hr]
      constructor
      · rintro ⟨hm, hl⟩
        exact ⟨List.mem_cons_of_mem first hm, by rw [hmore hm, hl]⟩
      · rintro ⟨hm, hl⟩
        rcases List.mem_cons.mp hm with rfl | hm
        · rw [hnone, List.length_nil] at hl
          omega
        · rw [hmore hm] at hl
          exact ⟨hm, by omega⟩

namespace Tracks

variable {code : List Labelled} {blocks : Array Block}

/-- The place of a block among those open at an index is the number of them inside it. -/
theorem isNth_iff (t : Tracks code blocks []) {index depth : Nat} {label : Label}
    {holds : Block → Bool}
    (hh : ∀ (label : Label) (block : Block), blocks[label]? = some block →
      holds block = block.isOpenAt index) :
    IsNth blocks holds depth label ↔ (openAt blocks index)[depth]? = some label := by
  -- the blocks inside are those open at the index that were opened later
  have hinner : ∀ block, blocks[label]? = some block → block.isOpenAt index = true →
      labelsWhere blocks (fun inner => holds inner && inner.within block) =
        (labelsWhere blocks (·.isOpenAt index)).filter (label < ·) := by
    intro block hb ho
    rw [labelsWhere, labelsWhere, List.filter_filter]
    apply List.filter_congr
    intro other _
    cases hi : blocks[other]? with
    | none => simp
    | some inner =>
      rw [Option.any_some, Option.any_some, hh other inner hi]
      cases hoi : inner.isOpenAt index with
      | false => simp
      | true =>
        rw [Bool.true_and, Bool.and_true, Bool.eq_iff_iff, t.within_iff hb hi ho hoi,
          decide_eq_true_eq]
  have hlength : ((openAt blocks index).filter (label < ·)).length =
      ((labelsWhere blocks (·.isOpenAt index)).filter (label < ·)).length := by
    rw [openAt, List.filter_reverse, List.length_reverse]
  rw [getElem?_eq_some_iff_of_decreasing (openAt_sorted blocks index), mem_openAt, hlength]
  constructor
  · rintro ⟨block, hb, ho, hl⟩
    rw [hh label block hb] at ho
    rw [hinner block hb ho] at hl
    exact ⟨⟨block, hb, ho⟩, hl⟩
  · rintro ⟨⟨block, hb, ho⟩, hl⟩
    exact ⟨block, hb, by rw [hh label block hb, ho], by rw [hinner block hb ho, hl]⟩

theorem reaches_eq (t : Tracks code blocks []) (index : Nat) (label : Label) (block : Block)
    (hb : blocks[label]? = some block) : block.reaches index = block.isOpenAt index := by
  obtain ⟨last, he⟩ := t.end_exists hb
  rw [Block.reaches, Block.isOpenAt, he, Option.any_some, Option.all_some]

/-- Where no block ends, the open blocks are those that lie around the index. -/
theorem encloses_eq (t : Tracks code blocks []) {index : Nat} {labelled : Labelled}
    (hl : code[index]? = some labelled) (hc : ∀ label, labelled ≠ .close (some label))
    (label : Label) (block : Block) (hb : blocks[label]? = some block) :
    block.encloses index = block.isOpenAt index := by
  obtain ⟨last, he⟩ := t.end_exists hb
  have hne : index ≠ last := by
    rintro rfl
    have hclose := (t.closes index label).mpr ⟨block, hb, he⟩
    rw [hl, Option.some.injEq] at hclose
    exact hc label hclose
  rw [Block.encloses, Block.isOpenAt, he, Option.any_some, Option.all_some]
  congr 2
  simpa using ⟨Nat.le_of_lt, fun h => Nat.lt_of_le_of_ne h hne⟩

theorem resolved (t : Tracks code blocks []) : Resolved code blocks where
  openings := t.openings
  start_iff label block hb index kind type := by
    constructor
    · intro h
      obtain ⟨block', hb', rfl⟩ := t.enters index kind type label h
      obtain rfl : block = block' := Option.some.inj (hb.symm.trans hb')
      rw [t.starts label block hb] at h
      cases h
      exact ⟨rfl, rfl, rfl⟩
    · rintro ⟨rfl, rfl, rfl⟩
      exact t.starts label block hb
  end_iff label block hb := by
    obtain ⟨last, he⟩ := t.end_exists hb
    refine ⟨last, he, t.forward label block last hb he, ?_⟩
    intro index
    rw [t.closes]
    grind
  else_iff label block hb index := by
    rw [t.divides]
    grind
  else_between label block index hb he := by
    obtain ⟨hk, hs, hbefore⟩ := t.elses label block index hb he
    obtain ⟨last, hl⟩ := t.end_exists hb
    exact ⟨hk, by simp [Block.encloses, hl, hs, hbefore last hl]⟩
  disjoint_or_nested label label' block block' last last' hne hb hb' he he' := by
    rcases Nat.lt_or_gt_of_ne hne with hlt | hlt
    · rcases t.disjoint_or_within hlt hb hb' he with hd | hw
      · exact .inl hd
      · exact .inr (.inr (.inl hw))
    · rcases t.disjoint_or_within hlt hb' hb he' with hd | hw
      · exact .inr (.inl hd)
      · exact .inr (.inr (.inr hw))
  target_iff index labelled target hl hm label := by
    have hc : ∀ label, labelled ≠ .close (some label) := by
      rintro label rfl
      simp [Labelled.targets] at hm
    rw [t.isNth_iff (t.encloses_eq hl hc), (t.named index labelled hl).targets target hm,
      Option.some.injEq, Eq.comm]
  otherwise_iff index label hl other := by
    rw [t.isNth_iff (t.encloses_eq hl (by simp)), (t.named index _ hl).innermost label (.inl rfl),
      Option.some.injEq, Eq.comm]
  close_iff index label hl other := by
    rw [t.isNth_iff (t.reaches_eq index), (t.named index _ hl).innermost label (.inr rfl),
      Option.some.injEq, Eq.comm]

end Tracks

/-- The labels of a body number its blocks in the order in which they open. -/
theorem Resolved.openedLabels_eq {code : List Labelled} {blocks : Array Block}
    (h : Resolved code blocks) : openedLabels code = List.range blocks.size := by
  have hopens : (fun labelled : Labelled => labelled.opens.map Prod.snd) =
      fun labelled => labelled.opening.map (·.2.2) := by
    funext labelled
    cases labelled <;> rfl
  rw [openedLabels, hopens, ← List.map_filterMap, h.openings, List.map_map]
  have hsnd := List.zipIdx_map_snd 0 blocks.toList
  rw [← List.range_eq_range', Array.length_toList] at hsnd
  rw [← hsnd]
  rfl

namespace Transcript

variable {mode : BodyMode} {cursor left : Cursor} {chunks : List Chunk} {control : Control}
  {body : Body}

theorem tracks (h : Transcript mode cursor chunks control body left) :
    Tracks body.code body.blocks [] := by
  have ht := @Tracks.follows [] .empty control _ .empty h.follows
  rwa [List.nil_append, h.openBlocks_eq, ← h.blocks_eq, ← h.code_eq] at ht

end Transcript

namespace Body

/-- Every body that is read has its control flow resolved; and the last instruction of a function,
and no other, is an end that closes no block. -/
theorem read_resolved {mode : BodyMode} {params : UInt32} {cursor left : Cursor} {body : Body}
    (h : read mode params cursor = (.ok body, left)) :
    Resolved body.code body.blocks ∧
      (mode = .function → ∃ front, body.code = front ++ [.close none] ∧ .close none ∉ front) := by
  obtain ⟨-, chunks, control, ht⟩ := read_ok_iff.mp h
  refine ⟨ht.tracks.resolved, ?_⟩
  rintro rfl
  have hfin := ht.finished
  cases he : body.elseTerminated with
  | true =>
    rw [he] at hfin
    cases hfin.1
  | false =>
    rw [he, ← ht.code_eq] at hfin
    exact hfin

/-- A block, a loop and a condition in it, read behind three other bytes up to an else that belongs
to none of them. The depths 0, 1 and 2 in the table are the condition, the loop and the block; in
the alternative the depth 1 is the loop. -/
theorem read_resolved_segment :
    ∃ body left, read .segment 1 ⟨3, [0x02, 0x40, 0x03, 0x40, 0x04, 0x7F, 0x0E, 0x02, 0x00, 0x01,
        0x02, 0x05, 0x0C, 0x01, 0x0B, 0x0B, 0x0B, 0x05, 0x01]⟩ = (.ok body, left) ∧
      body.code = [.enter .block .empty 0, .enter .loop .empty 1, .enter .cond (.value .i32) 2,
        .brTable [⟨0, 2⟩, ⟨1, 1⟩] ⟨2, 0⟩, .otherwise 2, .br ⟨1, 1⟩, .close (some 2),
        .close (some 1), .close (some 0)] ∧
      Resolved body.code body.blocks := by
  have h : read .segment 1 ⟨3, [0x02, 0x40, 0x03, 0x40, 0x04, 0x7F, 0x0E, 0x02, 0x00, 0x01, 0x02,
      0x05, 0x0C, 0x01, 0x0B, 0x0B, 0x0B, 0x05, 0x01]⟩ =
      (.ok ⟨#[⟨.enter .block .empty 0, 3, 2⟩, ⟨.enter .loop .empty 1, 5, 2⟩,
          ⟨.enter .cond (.value .i32) 2, 7, 2⟩, ⟨.brTable [⟨0, 2⟩, ⟨1, 1⟩] ⟨2, 0⟩, 9, 5⟩,
          ⟨.otherwise 2, 14, 1⟩, ⟨.br ⟨1, 1⟩, 15, 2⟩, ⟨.close (some 2), 17, 1⟩,
          ⟨.close (some 1), 18, 1⟩, ⟨.close (some 0), 19, 1⟩],
        #[⟨.block, .empty, 0, none, some 8⟩, ⟨.loop, .empty, 1, none, some 7⟩,
          ⟨.cond, .value .i32, 2, some 4, some 6⟩], 1, true⟩, ⟨21, [0x01]⟩) := by
    decide +kernel
  exact ⟨_, _, h, by decide, (read_resolved h).1⟩

end Body

end FlatWasm
