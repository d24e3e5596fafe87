import FlatWasm.Proofs.Assembling
import FlatWasm.Proofs.Resolution

/-!
# The listing of a body

The listing is printed with a counter of its own, which goes up behind an opening and down at an
end, and which stops at zero. It never looks at the records of the blocks. The counter is shown to
be the number of open blocks all the way, so that it never stops, and the indentation of each line
to be the number of records around the instruction. Without its first column the listing assembles
to the bytes of the body.
-/

namespace FlatWasm

namespace Text

/-- The line behind its first word. -/
def withoutFirst (line : List Char) : List Char :=
  (line.dropWhile isBlank).dropWhile (!isBlank ·)

end Text

namespace Body

/-- The counter of the listing behind some instructions. -/
def nestingBehind (nesting : Nat) (code : List Labelled) : Nat :=
  code.foldl (fun nesting labelled => (indentation nesting labelled).2) nesting

/-- The counter of the listing in front of the instruction at an index. -/
def nestingAt (body : Body) (index : Nat) : Nat := nestingBehind 0 (body.code.take index)

/-- The number of blocks that begin before the index and end behind it. -/
def levelAt (body : Body) (index : Nat) : Nat :=
  (labelsWhere body.blocks (·.encloses index)).length

/-- An instruction stands as deep as there are blocks around it, and an else one less. -/
def indentAt (body : Body) (index : Nat) : Nat :=
  match body.code[index]? with
  | some (.otherwise _) => body.levelAt index - 1
  | _ => body.levelAt index

/-- A line of the listing, without the line feed. -/
def row (floats : FloatCodec) (indent : Nat) (placed : Placed) : List Char :=
  (offsetColumn placed.offset).toList ++ ("  ".toList ++ (List.replicate (2 * indent) ' ' ++
    (placed.labelled.text floats).toList))

/-- The listing with the offset taken from each line. -/
def withoutOffsets (text : List Char) : List Char :=
  ['\n'].intercalate ((Text.lines text).map Text.withoutFirst)

/-- The listing of a body shows how its blocks are nested. -/
structure ShowsNesting (floats : FloatCodec) (body : Body) : Prop where
  lines_eq : Text.lines (body.text floats).toList =
    (body.instructions.toList.mapIdx fun index placed =>
      row floats (body.indentAt index) placed) ++ [[]]
  else_enclosed : ∀ (index : Nat) (label : Label),
    body.code[index]? = some (.otherwise label) → 0 < body.levelAt index
  aligned : ∀ (label : Label) (block : Block), body.blocks[label]? = some block →
    ∃ last, block.endAt = some last ∧ body.indentAt last = body.indentAt block.start ∧
      ∀ index, block.elseAt = some index → body.indentAt index = body.indentAt block.start
  counted : ∀ index : Nat, body.text floats =
    linesAfter floats (linesAfter floats "" 0 (body.instructions.toList.take index))
      (body.nestingAt index) (body.instructions.toList.drop index)
  unsaturated : ∀ (index : Nat) (label : Label),
    body.code[index]? = some (.otherwise label) ∨ body.code[index]? = some (.close (some label)) →
      0 < body.nestingAt index
  settled : body.nestingAt body.instructions.size = 0
  assembled : Assembly.assemble floats (withoutOffsets (body.text floats).toList) = .ok body.encode

end Body

/-! ## The counter is the number of open blocks -/

namespace Control

theorem Step.indentation_eq {control next : Control} {index : Nat} {labelled : Labelled}
    (h : control.Step index labelled next) :
    (Body.indentation control.openCount labelled).2 = next.openCount := by
  cases h with
  | otherwise label outer innermost => rw [openCount, innermost]; rfl
  | close block outer innermost => rw [openCount, innermost]; rfl
  | _ => rfl

theorem Follows.nestingBehind_eq {control final : Control} {index : Nat} {code : List Labelled}
    (h : Follows index control code final) :
    Body.nestingBehind control.openCount code = final.openCount := by
  induction code generalizing index control with
  | nil =>
    rw [Follows] at h
    rw [h]
    rfl
  | cons labelled code ih =>
    obtain ⟨next, hs, hf⟩ := h
    have hrest := ih hf
    rw [← hs.indentation_eq] at hrest
    exact hrest

end Control

namespace Transcript

variable {mode : BodyMode} {cursor left : Cursor} {chunks : List Chunk} {control : Control}
  {body : Body}

/-- In front of each instruction the counter is the number of blocks that are open there. -/
theorem nestingAt_eq (h : Transcript mode cursor chunks control body left) {index : Nat}
    (hi : index ≤ body.code.length) : body.nestingAt index = (openAt body.blocks index).length := by
  have hf := h.follows
  rw [← h.code_eq, ← List.take_append_drop index body.code, Control.follows_append] at hf
  obtain ⟨middle, hfront, hback⟩ := hf
  have hlength : (body.code.take index).length = index := List.length_take_of_le hi
  have ht := @Tracks.follows [] .empty middle _ .empty hfront
  rw [List.nil_append] at ht
  -- what is read behind the index does not change the blocks that were open at it
  have hlater := ht.openAt_follows (by rwa [Nat.zero_add] at hback) (Nat.le_refl _)
  have hcount : body.nestingAt index = middle.openCount := hfront.nestingBehind_eq
  rw [hcount, h.blocks_eq, ← hlength, hlater, ← ht.stack, List.length_map]
  rfl

theorem nestingAt_pos (h : Transcript mode cursor chunks control body left) {index : Nat}
    {label : Label} (hl : body.code[index]? = some (.otherwise label) ∨
      body.code[index]? = some (.close (some label))) : 0 < body.nestingAt index := by
  obtain ⟨labelled, hf, hk⟩ : ∃ labelled, body.code[index]? = some labelled ∧
      (labelled = .otherwise label ∨ labelled = .close (some label)) := by
    rcases hl with hl | hl
    · exact ⟨_, hl, .inl rfl⟩
    · exact ⟨_, hl, .inr rfl⟩
  have hlt := (List.getElem?_eq_some_iff.mp hf).1
  have hinner := (h.tracks.named index labelled hf).innermost label hk
  rw [h.nestingAt_eq (Nat.le_of_lt hlt)]
  exact (List.getElem?_eq_some_iff.mp hinner).1

theorem nestingAt_length (h : Transcript mode cursor chunks control body left) :
    body.nestingAt body.code.length = 0 := by
  rw [h.nestingAt_eq (Nat.le_refl _), ← h.tracks.stack]
  rfl

end Transcript

/-! ## Open blocks and blocks around an instruction -/

theorem labelsWhere_congr {blocks : Array Block} {holds holds' : Block → Bool}
    (h : ∀ (label : Label) (block : Block), blocks[label]? = some block →
      holds block = holds' block) : labelsWhere blocks holds = labelsWhere blocks holds' := by
  apply List.filter_congr
  intro label _
  cases hb : blocks[label]? with
  | none => rfl
  | some block => exact h label block hb

/-- Where two properties differ at one block only, the one that it has counts one block more. -/
theorem length_labelsWhere_eq_succ {blocks : Array Block} {holds holds' : Block → Bool}
    {label : Label} {own : Block} (hown : blocks[label]? = some own) (hin : holds own = true)
    (hout : holds' own = false)
    (hrest : ∀ (other : Label) (block : Block), other ≠ label → blocks[other]? = some block →
      holds' block = holds block) :
    (labelsWhere blocks holds).length = (labelsWhere blocks holds').length + 1 := by
  have hnodup : (labelsWhere blocks holds).Nodup := List.nodup_range.filter _
  have hmem : label ∈ labelsWhere blocks holds := by
    rw [labelsWhere, List.mem_filter, List.mem_range, hown]
    exact ⟨(Array.getElem?_eq_some_iff.mp hown).1, hin⟩
  have herase : (labelsWhere blocks holds).erase label = labelsWhere blocks holds' := by
    rw [hnodup.erase_eq_filter, labelsWhere, List.filter_filter]
    apply List.filter_congr
    intro other _
    by_cases ho : other = label
    · simp [ho, hown, hout]
    · cases hb : blocks[other]? with
      | none => simp
      | some block => simp [ho, hrest other block ho hb]
  rw [← herase, List.length_erase_of_mem hmem]
  have hpos := List.length_pos_of_mem hmem
  omega

namespace Body

variable {body : Body} {index : Nat} {labelled : Labelled} {label : Label}

/-- Away from the ends of blocks, a block is open exactly if it lies around the instruction. -/
theorem length_openAt (t : Tracks body.code body.blocks [])
    (hl : body.code[index]? = some labelled) (hc : ∀ label, labelled ≠ .close (some label)) :
    (openAt body.blocks index).length = body.levelAt index := by
  rw [openAt, List.length_reverse, levelAt, labelsWhere_congr (t.encloses_eq hl hc)]

/-- At the end of a block, that block is still open and no longer lies around the instruction. -/
theorem length_openAt_close (t : Tracks body.code body.blocks [])
    (hl : body.code[index]? = some (.close (some label))) :
    (openAt body.blocks index).length = body.levelAt index + 1 := by
  obtain ⟨own, hown, hend⟩ := (t.closes index label).mp hl
  have hforward := t.forward label own index hown hend
  rw [openAt, List.length_reverse, levelAt]
  apply length_labelsWhere_eq_succ hown
  · simp [Block.isOpenAt, hend, hforward]
  · simp [Block.encloses, hend]
  · intro other block hne hb
    obtain ⟨last, he⟩ := t.end_exists hb
    have hother : index ≠ last := by
      intro heq
      have hclose := (t.closes index other).mpr ⟨block, hb, by rw [he, heq]⟩
      rw [hl] at hclose
      cases hclose
      exact hne rfl
    rw [Block.encloses, Block.isOpenAt, he, Option.any_some, Option.all_some]
    grind

end Body

/-- The indentation that the counter gives is the one that the records give. -/
theorem Transcript.indentation_eq {mode : BodyMode} {cursor left : Cursor} {chunks : List Chunk}
    {control : Control} {body : Body} (h : Transcript mode cursor chunks control body left)
    {index : Nat} {labelled : Labelled} (hl : body.code[index]? = some labelled) :
    (Body.indentation (body.nestingAt index) labelled).1 = body.indentAt index := by
  have hlt := (List.getElem?_eq_some_iff.mp hl).1
  rw [h.nestingAt_eq (Nat.le_of_lt hlt), Body.indentAt, hl]
  cases labelled with
  | close closed =>
    cases closed with
    | none => exact Body.length_openAt h.tracks hl (by simp)
    | some label =>
      rw [Body.length_openAt_close h.tracks hl]
      rfl
  | otherwise label => rw [Body.length_openAt h.tracks hl (by simp)]; rfl
  | _ => exact Body.length_openAt h.tracks hl (by simp)

/-! ## Both ends of a block and its else stand at one level -/

namespace Resolved

variable {body : Body} {label : Label} {block : Block}

/-- Apart from the block itself, what lies around an index inside it and not inside an inner block
lies around its opening. -/
theorem encloses_start (r : Resolved body.code body.blocks) (hb : body.blocks[label]? = some block)
    {index last : Nat} (hlast : block.endAt = some last) (hs : block.start < index)
    (hi : index ≤ last)
    (hinner : ∀ (other : Label) (inner : Block), body.blocks[other]? = some inner →
      inner.within block = true → inner.encloses index = false)
    {other : Label} {outer : Block} (hne : other ≠ label) (ho : body.blocks[other]? = some outer) :
    outer.encloses block.start = outer.encloses index := by
  obtain ⟨last', hlast', hforward', -⟩ := r.end_iff other outer ho
  have hcases := r.disjoint_or_nested label other block outer last last' hne.symm hb ho hlast hlast'
  have hnot := hinner other outer ho
  simp only [Block.within, Block.encloses, hlast, hlast', Option.any_some, Bool.and_eq_true,
    Bool.and_eq_false_iff, decide_eq_true_eq, decide_eq_false_iff_not] at hcases hnot ⊢
  rw [Bool.eq_iff_iff]
  simp only [Bool.and_eq_true, decide_eq_true_eq]
  omega

theorem levelAt_end (r : Resolved body.code body.blocks) (hb : body.blocks[label]? = some block)
    {last : Nat} (hlast : block.endAt = some last) :
    body.levelAt last = body.levelAt block.start := by
  obtain ⟨last', hlast', hforward, -⟩ := r.end_iff label block hb
  obtain rfl : last = last' := Option.some.inj (hlast.symm.trans hlast')
  rw [Body.levelAt, Body.levelAt]
  congr 1
  apply labelsWhere_congr
  intro other outer ho
  by_cases hne : other = label
  · subst hne
    obtain rfl : outer = block := Option.some.inj (ho.symm.trans hb)
    simp [Block.encloses, hlast]
  · apply Eq.symm
    apply r.encloses_start hb hlast hforward (Nat.le_refl _) ?_ hne ho
    intro inside inner hinner hw
    obtain ⟨lastInner, hli, -⟩ := r.end_iff inside inner hinner
    simp only [Block.within, Block.encloses, hlast, hli, Option.any_some, Bool.and_eq_true,
      Bool.and_eq_false_iff, decide_eq_true_eq, decide_eq_false_iff_not] at hw ⊢
    omega

/-- An else lies inside its own block and inside none of the blocks in it. -/
theorem levelAt_else (r : Resolved body.code body.blocks) (hb : body.blocks[label]? = some block)
    {index : Nat} (he : block.elseAt = some index) :
    body.levelAt index = body.levelAt block.start + 1 := by
  obtain ⟨last, hlast, -⟩ := r.end_iff label block hb
  obtain ⟨-, henc⟩ := r.else_between label block index hb he
  have hcode := (r.else_iff label block hb index).mpr he
  obtain ⟨own, hown, -, hnone⟩ := (r.otherwise_iff index label hcode label).mpr rfl
  obtain rfl : own = block := Option.some.inj (hown.symm.trans hb)
  have hbetween : own.start < index ∧ index < last := by
    simpa [Block.encloses, hlast] using henc
  apply length_labelsWhere_eq_succ hb henc
  · simp [Block.encloses]
  · intro other outer hne ho
    apply r.encloses_start hb hlast hbetween.1 (Nat.le_of_lt hbetween.2) ?_ hne ho
    intro inside inner hinner hw
    rw [List.length_eq_zero_iff, labelsWhere, List.filter_eq_nil_iff] at hnone
    have hin := hnone inside (List.mem_range.mpr (Array.getElem?_eq_some_iff.mp hinner).1)
    simpa [hinner, hw] using hin

theorem indentAt_start (r : Resolved body.code body.blocks)
    (hb : body.blocks[label]? = some block) :
    body.indentAt block.start = body.levelAt block.start := by
  rw [Body.indentAt, (r.start_iff label block hb block.start _ _).mpr ⟨rfl, rfl, rfl⟩]

theorem aligned (r : Resolved body.code body.blocks) (hb : body.blocks[label]? = some block) :
    ∃ last, block.endAt = some last ∧ body.indentAt last = body.indentAt block.start ∧
      ∀ index, block.elseAt = some index → body.indentAt index = body.indentAt block.start := by
  obtain ⟨last, hlast, -, hend⟩ := r.end_iff label block hb
  rw [r.indentAt_start hb]
  refine ⟨last, hlast, ?_, ?_⟩
  · rw [Body.indentAt, (hend last).mpr rfl]
    exact r.levelAt_end hb hlast
  · intro index he
    rw [Body.indentAt, (r.else_iff label block hb index).mpr he]
    show body.levelAt index - 1 = _
    rw [r.levelAt_else hb he, Nat.add_sub_cancel]

end Resolved

/-! ## The lines -/

variable {floats : FloatCodec}

namespace Body

theorem toList_line (indent : Nat) (placed : Placed) :
    (line floats indent placed).toList = row floats indent placed ++ ['\n'] := by
  simp only [line, row, String.toList_append, String.toList_ofList, List.append_assoc]
  rfl

/-- The listing goes on from any place with the counter that the instructions before it leave. -/
theorem linesAfter_append (floats : FloatCodec) (done : String) (nesting : Nat)
    (front back : List Placed) :
    linesAfter floats done nesting (front ++ back) =
      linesAfter floats (linesAfter floats done nesting front)
        (nestingBehind nesting (front.map Placed.labelled)) back := by
  induction front generalizing done nesting with
  | nil => rfl
  | cons placed front ih => exact ih _ _

theorem toList_linesAfter (done : String) (nesting : Nat) (placed : List Placed) :
    (linesAfter floats done nesting placed).toList = done.toList ++
      (placed.mapIdx fun index one => row floats (indentation (nestingBehind nesting
        ((placed.take index).map Placed.labelled)) one.labelled).1 one).flatMap (· ++ ['\n']) := by
  induction placed generalizing done nesting with
  | nil => exact (List.append_nil _).symm
  | cons first placed ih =>
    rw [List.mapIdx_cons, List.flatMap_cons]
    show (linesAfter floats (done ++ line floats (indentation nesting first.labelled).1 first)
      (indentation nesting first.labelled).2 placed).toList = _
    rw [ih, String.toList_append, toList_line, List.append_assoc]
    rfl

/-- A row is its offset between blanks, and then the text of its instruction. -/
theorem row_eq (floats : FloatCodec) (indent : Nat) (placed : Placed) :
    ∃ count, row floats indent placed =
      List.replicate count ' ' ++ (Nat.toDigits 10 placed.offset ++
        ' ' :: (List.replicate (2 * indent + 1) ' ' ++ (placed.labelled.text floats).toList)) := by
  refine ⟨6 - (toString placed.offset).length, ?_⟩
  rw [row, offsetColumn, String.toList_append, String.toList_ofList, toList_toString_nat,
    List.append_assoc]
  rfl

theorem isToken_offset (offset : Nat) : Text.IsToken (Nat.toDigits 10 offset) :=
  (isWord_toDigits (by decide) (by decide) offset).isToken

theorem newline_notMem_row (indent : Nat) {placed : Placed}
    (h : placed.labelled.instruction.Restored floats) : '\n' ∉ row floats indent placed := by
  obtain ⟨count, hrow⟩ := row_eq floats indent placed
  rw [hrow]
  simp only [List.mem_append, List.mem_cons, List.mem_replicate, not_or]
  exact ⟨by simp, (isToken_offset _).notMem (by decide), by decide, by simp,
    Labelled.newline_notMem_text h⟩

/-- The codec restores the float of each instruction, where it stands. -/
theorem Restored.placed {body : Body} (h : body.Restored floats) {index : Nat}
    (hi : index < body.instructions.toList.length) :
    body.instructions.toList[index].labelled.instruction.Restored floats :=
  h _ (List.mem_map_of_mem (List.getElem_mem hi))

end Body

namespace Transcript

variable {mode : BodyMode} {cursor left : Cursor} {chunks : List Chunk} {control : Control}
  {body : Body}

theorem toList_text (h : Transcript mode cursor chunks control body left) :
    (body.text floats).toList = (body.instructions.toList.mapIdx fun index placed =>
      Body.row floats (body.indentAt index) placed).flatMap (· ++ ['\n']) := by
  have hrows : (body.instructions.toList.mapIdx fun index one => Body.row floats (Body.indentation
      (Body.nestingBehind 0 ((body.instructions.toList.take index).map Placed.labelled))
        one.labelled).1 one) =
      body.instructions.toList.mapIdx fun index placed =>
        Body.row floats (body.indentAt index) placed := by
    rw [List.mapIdx_eq_mapIdx_iff]
    intro index hi
    have hl : body.code[index]? = some (body.instructions.toList.get ⟨index, hi⟩).labelled := by
      rw [Body.code, List.getElem?_map, List.getElem?_eq_getElem hi]
      rfl
    rw [← h.indentation_eq hl, Body.nestingAt, Body.code, List.map_take]
    rfl
  rw [Body.text, Body.toList_linesAfter, hrows]
  rfl

theorem lines_text (h : Transcript mode cursor chunks control body left)
    (hf : body.Restored floats) :
    Text.lines (body.text floats).toList = (body.instructions.toList.mapIdx fun index placed =>
      Body.row floats (body.indentAt index) placed) ++ [[]] := by
  rw [h.toList_text]
  apply Text.lines_terminated
  intro text hm
  obtain ⟨index, hi, rfl⟩ := List.mem_mapIdx.mp hm
  exact Body.newline_notMem_row _ (hf.placed hi)

end Transcript

/-! ## The listing without its offsets -/

namespace Text

theorem words_blank_cons {c : Char} (hc : isBlank c = true) (text : List Char) :
    words (c :: text) = words text := by
  have hsplit : ([] ++ c :: text).splitOnP isBlank = [] :: text.splitOnP isBlank :=
    List.splitOnP_append_cons_of_forall_mem (by simp) c hc text
  rw [words, ← List.nil_append (c :: text), hsplit]
  rfl

theorem words_replicate_append (count : Nat) (text : List Char) :
    words (List.replicate count ' ' ++ text) = words text := by
  induction count with
  | zero => rfl
  | succ count ih => rw [List.replicate_succ, List.cons_append, words_blank_cons (by decide), ih]

/-- A word between blanks is the first. -/
theorem withoutFirst_eq {count : Nat} {word rest : List Char} (hw : IsToken word) :
    withoutFirst (List.replicate count ' ' ++ (word ++ ' ' :: rest)) = ' ' :: rest := by
  obtain ⟨first, inner, rfl⟩ := List.exists_cons_of_ne_nil hw.ne_nil
  have hfirst := hw.not_blank first List.mem_cons_self
  rw [withoutFirst, List.dropWhile_append_of_pos, List.cons_append, List.dropWhile_cons_of_neg,
    ← List.cons_append, List.dropWhile_append_of_pos, List.dropWhile_cons_of_neg]
  · decide
  · intro c hc
    rw [hw.not_blank c hc]
    rfl
  · rw [hfirst]
    exact Bool.false_ne_true
  · intro c hc
    rw [List.eq_of_mem_replicate hc]
    rfl

theorem newline_notMem_withoutFirst {line : List Char} (h : '\n' ∉ line) :
    '\n' ∉ withoutFirst line := by
  intro hm
  exact h (((List.dropWhile_sublist _).trans (List.dropWhile_sublist _)).subset hm)

end Text

theorem Assembly.line_indented (count : Nat) (text : List Char) :
    line floats (List.replicate count ' ' ++ text) = line floats text := by
  have hblank : ';' ∉ List.replicate count ' ' := by simp
  rw [line, line, Text.uncommented_append (fun hin => hblank (hin.subset (by simp)))
    (.inl fun hlast => hblank (List.mem_of_getLast? hlast)), Text.words_replicate_append]

namespace Body

theorem withoutFirst_row (indent : Nat) (placed : Placed) :
    Text.withoutFirst (row floats indent placed) =
      List.replicate (2 * indent + 2) ' ' ++ (placed.labelled.text floats).toList := by
  obtain ⟨count, hrow⟩ := row_eq floats indent placed
  rw [hrow]
  exact Text.withoutFirst_eq (isToken_offset _)

/-- Rows that show the instructions of a body at any indentation assemble to its bytes. -/
theorem assemble_withoutOffsets {body : Body} (hf : body.Restored floats) {text : List Char}
    {indent : Nat → Nat}
    (h : Text.lines text = (body.instructions.toList.mapIdx fun index placed =>
      row floats (indent index) placed) ++ [[]]) :
    Assembly.assemble floats (withoutOffsets text) = .ok body.encode := by
  have hlines : Text.lines (withoutOffsets text) = (body.instructions.toList.mapIdx
      fun index placed => row floats (indent index) placed).map Text.withoutFirst ++ [[]] := by
    rw [withoutOffsets, h, List.map_append]
    apply List.splitOn_intercalate
    · rw [List.forall_mem_append, List.forall_mem_map]
      refine ⟨?_, by decide⟩
      intro line hm
      obtain ⟨index, hi, rfl⟩ := List.mem_mapIdx.mp hm
      exact Text.newline_notMem_withoutFirst (newline_notMem_row _ (hf.placed hi))
    · simp
  rw [encode_eq]
  apply Assembly.assemble_of_rows hlines (by simp)
  rw [List.forall₂_map_left_iff, code, List.forall₂_map_right_iff, List.forall₂_iff_get]
  refine ⟨List.length_mapIdx, ?_⟩
  intro index hi hi'
  rw [List.get_eq_getElem, List.getElem_mapIdx, withoutFirst_row, Assembly.line_indented]
  exact Assembly.line_text (hf.placed hi')

/-- The listing of every body that is read has a line for each instruction, indented by the blocks
around it; the counter of the listing agrees with the blocks all the way, and the lines without
their offsets assemble to the body. -/
theorem read_shows_nesting (floats : FloatCodec) {mode : BodyMode} {params : UInt32}
    {cursor left : Cursor} {body : Body} (h : read mode params cursor = (.ok body, left))
    (hf : body.Restored floats) : body.ShowsNesting floats := by
  obtain ⟨-, chunks, control, ht⟩ := read_ok_iff.mp h
  refine ⟨ht.lines_text hf, ?_, ?_, ?_, ?_, ?_, assemble_withoutOffsets hf (ht.lines_text hf)⟩
  · intro index label hl
    have hlt := (List.getElem?_eq_some_iff.mp hl).1
    rw [← length_openAt ht.tracks hl (by simp), ← ht.nestingAt_eq (Nat.le_of_lt hlt)]
    exact ht.nestingAt_pos (.inl hl)
  · intro label block hb
    exact ht.tracks.resolved.aligned hb
  · intro index
    have happend := linesAfter_append floats "" 0 (body.instructions.toList.take index)
      (body.instructions.toList.drop index)
    rw [List.take_append_drop, List.map_take] at happend
    exact happend
  · intro index label hl
    exact ht.nestingAt_pos hl
  · have hlength := ht.nestingAt_length
    rwa [code, List.length_map, Array.length_toList] at hlength

/-- A loop in the first arm of a condition. The offsets outgrow their column, and the else
stands under its if, one level above the branch behind it. -/
theorem read_shows_nesting_arms :
    ∃ body left, read .function 0 ⟨999998, [0x02, 0x40, 0x04, 0x40, 0x03, 0x7F, 0x0B, 0x05, 0x0C,
        0x01, 0x0B, 0x0B, 0x0B]⟩ = (.ok body, left) ∧
      body.text .hexadecimal = "999998  block ;; L0\n" ++
        "1000000    if ;; L1\n" ++
        "1000002      loop i32 ;; L2\n" ++
        "1000004      end ;; L2\n" ++
        "1000005    else ;; L1\n" ++
        "1000006      br 1 ;; L0\n" ++
        "1000008    end ;; L1\n" ++
        "1000009  end ;; L0\n" ++
        "1000010  end\n" ∧
      body.ShowsNesting .hexadecimal := by
  have h : read .function 0 ⟨999998, [0x02, 0x40, 0x04, 0x40, 0x03, 0x7F, 0x0B, 0x05, 0x0C, 0x01,
      0x0B, 0x0B, 0x0B]⟩ =
      (.ok ⟨#[⟨.enter .block .empty 0, 999998, 2⟩, ⟨.enter .cond .empty 1, 1000000, 2⟩,
          ⟨.enter .loop (.value .i32) 2, 1000002, 2⟩, ⟨.close (some 2), 1000004, 1⟩,
          ⟨.otherwise 1, 1000005, 1⟩, ⟨.br ⟨1, 0⟩, 1000006, 2⟩, ⟨.close (some 1), 1000008, 1⟩,
          ⟨.close (some 0), 1000009, 1⟩, ⟨.close none, 1000010, 1⟩],
        #[⟨.block, .empty, 0, none, some 7⟩, ⟨.cond, .empty, 1, some 4, some 6⟩,
          ⟨.loop, .value .i32, 2, none, some 3⟩], 0, false⟩, ⟨1000011, []⟩) := by
    decide +kernel
  exact ⟨_, _, h, by decide +kernel,
    read_shows_nesting .hexadecimal h (restored_hexadecimal _)⟩

end Body

end FlatWasm
