import FlatWasm.FloatFormat.Codec
import FlatWasm.Proofs.Emission
import FlatWasm.Proofs.FloatText
import FlatWasm.Proofs.Scanning

/-!
# Text assembled back

The text of an instruction is a row of words: its mnemonic and its operands. Each operand is read
from its word alone, so a line shows the instruction whose text it is, and the labels in its comment
are passed over. The lines of a body assemble to the bytes that the body is encoded by.

How floats are written is left to a codec. All that is asked of it is that each float of the body is
one word from which its bits are read back; the codec of the command does so for every float.
-/

namespace FlatWasm

/-! ## Words of a line -/

namespace Text

theorem IsWord.notMem {word : List Char} (hw : IsWord word) {c : Char} (hc : isInner c = false) :
    c ∉ word := by
  intro hm
  rw [hw.2 c hm] at hc
  exact absurd hc (by decide)

/-- A text that is one word of a line: no blank divides it and no comment begins in it. -/
structure IsToken (word : List Char) : Prop where
  ne_nil : word ≠ []
  not_blank : ∀ c ∈ word, isBlank c = false
  no_comment : ¬[';', ';'] <:+: word

theorem IsWord.isToken {word : List Char} (hw : IsWord word) : IsToken word where
  ne_nil := hw.1
  not_blank := by
    intro c hc
    have h := hw.2 c hc
    rw [isInner, Bool.and_eq_true, Bool.not_eq_true'] at h
    exact h.1
  no_comment := fun h => hw.notMem (c := ';') (by decide) (h.subset (by simp))

theorem IsToken.notMem {word : List Char} (hw : IsToken word) {c : Char} (hc : isBlank c = true) :
    c ∉ word := by
  intro hm
  rw [hw.not_blank c hm] at hc
  exact absurd hc (by decide)

theorem words_word {word : List Char} (hw : IsToken word) : words word = [word] := by
  rw [words, List.splitOnP_eq_singleton hw.not_blank]
  simp [hw.ne_nil]

theorem words_append_space {word : List Char} (hw : IsToken word) (rest : List Char) :
    words (word ++ ' ' :: rest) = word :: words rest := by
  rw [words, List.splitOnP_append_cons_of_forall_mem hw.not_blank ' ' (by decide), words]
  simp [hw.ne_nil]

/-- Words, each behind a space. -/
def spaced (words : List (List Char)) : List Char := words.flatMap (' ' :: ·)

theorem spaced_append (front back : List (List Char)) :
    spaced (front ++ back) = spaced front ++ spaced back := List.flatMap_append

theorem toList_space (text : String) : (" " ++ text).toList = spaced [text.toList] := by
  rw [String.toList_append]
  exact (List.append_nil _).symm

theorem notMem_spaced {row : List (List Char)} (hr : ∀ word ∈ row, IsToken word) {c : Char}
    (hs : c ≠ ' ') (hc : isBlank c = true) : c ∉ spaced row := by
  intro hm
  obtain ⟨word, hword, hm⟩ := List.mem_flatMap.mp hm
  rcases List.mem_cons.mp hm with hm | hm
  · exact hs hm
  · exact (hr word hword).notMem hc hm

theorem words_spaced {first : List Char} {row : List (List Char)} (hf : IsToken first)
    (hr : ∀ word ∈ row, IsToken word) {tail : List Char} (ht : tail = [] ∨ tail = [' ']) :
    words (first ++ (spaced row ++ tail)) = first :: row := by
  induction row generalizing first with
  | nil =>
    rcases ht with rfl | rfl
    · show words (first ++ []) = [first]
      rw [List.append_nil, words_word hf]
    · exact words_append_space hf []
  | cons word row ih =>
    have hrow := List.forall_mem_cons.mp hr
    show words (first ++ (' ' :: word ++ spaced row ++ tail)) = first :: word :: row
    rw [List.append_assoc, List.cons_append, words_append_space hf, ih hrow.1 hrow.2]

/-- A comment begins behind a text if none begins in it and none across its end. -/
theorem uncommented_append {front back : List Char} (h : ¬[';', ';'] <:+: front)
    (hend : front.getLast? ≠ some ';' ∨ back.head? ≠ some ';') :
    uncommented (front ++ back) = front ++ uncommented back := by
  induction front with
  | nil => rfl
  | cons c front ih =>
    have hstep : uncommented (c :: (front ++ back)) = c :: uncommented (front ++ back) := by
      rw [uncommented]
      intro rest hc hrest
      subst hc
      cases front with
      | nil =>
        rw [List.nil_append] at hrest
        rcases hend with hend | hend
        · exact hend rfl
        · exact hend (by rw [hrest]; rfl)
      | cons next front =>
        rw [List.cons_append, List.cons.injEq] at hrest
        exact h ⟨[], front, by rw [hrest.1]; rfl⟩
    have hfront : ¬[';', ';'] <:+: front := fun hin =>
      h (hin.trans (List.suffix_cons c front).isInfix)
    have hend' : front.getLast? ≠ some ';' ∨ back.head? ≠ some ';' := by
      refine hend.imp_left fun hlast hin => hlast ?_
      rw [List.getLast?_cons, hin]
      rfl
    rw [List.cons_append, hstep, ih hfront hend', List.cons_append]

theorem uncommented_spaced {first : List Char} {row : List (List Char)} (hf : IsToken first)
    (hr : ∀ word ∈ row, IsToken word) {tail : List Char} (ht : tail.head? ≠ some ';') :
    uncommented (first ++ (spaced row ++ tail)) = first ++ (spaced row ++ uncommented tail) := by
  induction row generalizing first with
  | nil => exact uncommented_append hf.no_comment (.inr ht)
  | cons word row ih =>
    have hrow := List.forall_mem_cons.mp hr
    have hspace : uncommented (' ' :: (word ++ (spaced row ++ tail))) =
        ' ' :: uncommented (word ++ (spaced row ++ tail)) := by
      rw [uncommented]
      intro rest hc
      exact absurd hc (by decide)
    show uncommented (first ++ (' ' :: word ++ spaced row ++ tail)) =
      first ++ (' ' :: word ++ spaced row ++ uncommented tail)
    rw [List.append_assoc, List.cons_append, uncommented_append hf.no_comment (.inr (by simp)),
      hspace, ih hrow.1 hrow.2, List.append_assoc, List.cons_append]

theorem lines_append (front back : List Char) :
    lines (front ++ '\n' :: back) = lines front ++ lines back := by
  rw [lines, lines, lines, List.splitOn_eq_splitOnP, List.splitOn_eq_splitOnP,
    List.splitOn_eq_splitOnP, List.splitOnP_append_cons _ _ (by decide)]

theorem lines_terminated {texts : List (List Char)} (h : ∀ text ∈ texts, '\n' ∉ text) :
    lines (texts.flatMap (· ++ ['\n'])) = texts ++ [[]] := by
  induction texts with
  | nil => rfl
  | cons text texts ih =>
    have hcons := List.forall_mem_cons.mp h
    have htext : ∀ c ∈ text, (c == '\n') = false := by
      intro c hc
      exact beq_false_of_ne (ne_of_mem_of_not_mem hc hcons.1)
    rw [List.flatMap_cons, List.append_assoc, List.singleton_append, lines,
      List.splitOn_eq_splitOnP, List.splitOnP_append_cons_of_forall_mem htext '\n' (by decide),
      ← List.splitOn_eq_splitOnP, ← lines, ih hcons.2, List.cons_append]

end Text

/-! ## Mnemonics -/

namespace Operator

theorem isWord_mnemonic (op : Operator) : Text.IsWord op.mnemonic.toList := by
  have htable : (all.all fun op => !op.mnemonic.toList.isEmpty &&
      op.mnemonic.toList.all Text.isInner) = true := by decide +kernel
  exact Text.isWord_of_all (List.all_eq_true.mp htable op (mem_all op))

end Operator

/-! ## Operands -/

/-- A number as it stands among the operands. -/
def decimal (n : UInt32) : List Char := (toString n.toNat).toList

theorem isWord_decimal (n : UInt32) : Text.IsWord (decimal n) := by
  rw [decimal, toList_toString_nat]
  exact isWord_toDigits (by decide) (by decide) _

theorem isToken_decimal (n : UInt32) : Text.IsToken (decimal n) := (isWord_decimal n).isToken

namespace Assembly

theorem index_decimal (n : UInt32) : index (decimal n) = .ok n := by
  have hlt := n.toNat_lt
  have hread : Numeral.literal? (decimal n) = some n.toNat := by
    rw [decimal, toList_toString_nat]
    exact Numeral.literal?_toDigits (by omega)
  rw [index, hread, Option.filter_some, if_pos (decide_eq_true hlt)]
  simp

theorem mapM_index (indices : List UInt32) :
    (indices.map decimal).mapM index = .ok indices := by
  rw [mapM_eq_ok_iff, List.forall₂_map_left_iff, List.forall₂_same]
  exact fun n _ => index_decimal n

end Assembly

namespace Constant

/-- The codec writes a float as one word, and reads the same bits from it. -/
def Restored (floats : FloatCodec) : Constant → Prop
  | .i32 _ | .i64 _ => True
  | .f32 bits => Text.IsToken (floats.text32 bits).toList ∧
      floats.ofText32? (floats.text32 bits).toList = some bits
  | .f64 bits => Text.IsToken (floats.text64 bits).toList ∧
      floats.ofText64? (floats.text64 bits).toList = some bits

/-- In hexadecimal no float is lost. -/
theorem restored_hexadecimal (value : Constant) : value.Restored .hexadecimal := by
  cases value with
  | i32 value => trivial
  | i64 value => trivial
  | f32 bits =>
    refine ⟨(FloatFormat.isWord_text FloatFormat.narrow_single _).isToken, ?_⟩
    show (FloatFormat.single.ofText? (FloatFormat.single.text bits.toNat).toList).map _ = _
    rw [FloatFormat.ofText?_text FloatFormat.narrow_single bits.toNat_lt, Option.map_some,
      UInt32.ofNat_toNat]
  | f64 bits =>
    refine ⟨(FloatFormat.isWord_text FloatFormat.narrow_double _).isToken, ?_⟩
    show (FloatFormat.double.ofText? (FloatFormat.double.text bits.toNat).toList).map _ = _
    rw [FloatFormat.ofText?_text FloatFormat.narrow_double bits.toNat_lt, Option.map_some,
      UInt64.ofNat_toNat]

variable {floats : FloatCodec} {value : Constant}

theorem Restored.isToken_text (h : value.Restored floats) :
    Text.IsToken (value.text floats).toList := by
  cases value with
  | i32 value => exact (isWord_toString_int _).isToken
  | i64 value => exact (isWord_toString_int _).isToken
  | f32 bits => exact h.1
  | f64 bits => exact h.1

theorem Restored.constant?_text (h : value.Restored floats) :
    Assembly.constant? floats value.type (value.text floats).toList = some value := by
  cases value with
  | i32 value =>
    have hread : Numeral.signedLiteral? 32 (toString value.toInt).toList = some value.toInt :=
      Numeral.signedLiteral?_toString (by decide) value.le_toInt value.toInt_lt
    show (Numeral.signedLiteral? 32 (toString value.toInt).toList).map _ = _
    rw [hread, Option.map_some, Int32.ofInt_toInt]
  | i64 value =>
    have hread : Numeral.signedLiteral? 64 (toString value.toInt).toList = some value.toInt :=
      Numeral.signedLiteral?_toString (by decide) value.le_toInt value.toInt_lt
    show (Numeral.signedLiteral? 64 (toString value.toInt).toList).map _ = _
    rw [hread, Option.map_some, Int64.ofInt_toInt]
  | f32 bits =>
    show (floats.ofText32? (floats.text32 bits).toList).map _ = _
    rw [h.2, Option.map_some]
  | f64 bits =>
    show (floats.ofText64? (floats.text64 bits).toList).map _ = _
    rw [h.2, Option.map_some]

theorem Restored.constant_text (h : value.Restored floats) :
    Assembly.constant floats value.type (value.text floats).toList = .ok value := by
  rw [Assembly.constant, h.constant?_text]

end Constant

namespace BlockType

/-- An empty block type is no operand at all. -/
def operandWords : BlockType → List (List Char)
  | .empty => []
  | .value type => [type.name.toList]
  | .index type => ["type[".toList ++ (decimal type ++ [']'])]

theorem toList_text (type : BlockType) : type.text.toList = Text.spaced type.operandWords := by
  cases type with
  | empty => rfl
  | value type => exact Text.toList_space type.name
  | index type =>
    rw [text, String.toList_append, String.toList_append, List.append_assoc]
    exact (List.append_nil _).symm

theorem isToken_operandWords (type : BlockType) :
    ∀ word ∈ type.operandWords, Text.IsToken word := by
  cases type with
  | empty => exact fun word hw => absurd hw List.not_mem_nil
  | value type =>
    rw [operandWords, List.forall_mem_singleton]
    cases type <;> exact (Text.isWord_of_all (by decide)).isToken
  | index type =>
    have hmark : Text.IsWord "type[".toList := Text.isWord_of_all (by decide)
    rw [operandWords, List.forall_mem_singleton]
    apply Text.IsWord.isToken
    apply hmark.append
    rw [List.forall_mem_append, List.forall_mem_singleton]
    exact ⟨(isWord_decimal type).2, by decide⟩

end BlockType

namespace Assembly

theorem blockType_value (type : ValueType) :
    blockType type.name.toList = .ok (.value type) := by
  cases type <;> rfl

theorem blockType_index (type : UInt32) :
    blockType ("type[".toList ++ (decimal type ++ [']'])) = .ok (.index type) := by
  have hname : (ValueType.all.find? fun name =>
      name.name == String.ofList ("type[".toList ++ (decimal type ++ [']']))) = none := by
    rw [List.find?_eq_none]
    intro name _ hfound
    have hword : name.name.toList = "type[".toList ++ (decimal type ++ [']']) := by
      rw [eq_of_beq hfound, String.toList_ofList]
    cases name <;> cases hword
  have hindex : typeIndex? ("type[".toList ++ (decimal type ++ [']'])) =
      some (decimal type) := by
    show (if (decimal type ++ [']']).getLast? = some ']' then
      some (decimal type ++ [']']).dropLast else none) = some (decimal type)
    rw [List.getLast?_concat, if_pos rfl, List.dropLast_concat]
  have hread : Numeral.unsigned? 10 32 (decimal type) = some type.toNat := by
    rw [decimal, toList_toString_nat]
    exact Numeral.unsigned?_toDigits (by decide) (by decide) type.toNat_lt
  simp only [blockType, hname, hindex, Option.bind_some, hread, UInt32.ofNat_toNat]

end Assembly

theorem toList_operandText (n : UInt32) : (operandText n).toList = Text.spaced [decimal n] :=
  Text.toList_space _

variable {floats : FloatCodec}

namespace Plain

def Restored (floats : FloatCodec) : Plain → Prop
  | .const value => value.Restored floats
  | _ => True

def operandWords (floats : FloatCodec) : Plain → List (List Char)
  | .unreachable | .nop | .ret | .parametric _ | .numeric _ | .memorySize _ => []
  | .call function => [decimal function]
  | .callIndirect type => [decimal type]
  | .variable _ index => [decimal index]
  | .memory _ arg => [decimal arg.align, decimal arg.offset]
  | .const value => [(value.text floats).toList]

theorem toList_operandText (instruction : Plain) :
    (instruction.operandText floats).toList = Text.spaced (instruction.operandWords floats) := by
  cases instruction with
  | call function => exact FlatWasm.toList_operandText function
  | callIndirect type => exact FlatWasm.toList_operandText type
  | «variable» op index => exact FlatWasm.toList_operandText index
  | memory op arg =>
    show (FlatWasm.operandText arg.align ++ FlatWasm.operandText arg.offset).toList = _
    rw [String.toList_append, FlatWasm.toList_operandText, FlatWasm.toList_operandText,
      ← Text.spaced_append]
    rfl
  | const value => exact Text.toList_space (value.text floats)
  | _ => rfl

theorem Restored.isToken_operandWords {instruction : Plain} (h : instruction.Restored floats) :
    ∀ word ∈ instruction.operandWords floats, Text.IsToken word := by
  cases instruction with
  | const value =>
    rw [operandWords, List.forall_mem_singleton]
    exact Constant.Restored.isToken_text h
  | _ => simp [operandWords, isToken_decimal]

end Plain

namespace Instruction

/-- The codec restores the float of the instruction, if it has one. -/
def Restored (floats : FloatCodec) : Instruction → Prop
  | .plain instruction => instruction.Restored floats
  | _ => True

/-- The operands as words; the default of a branch table is the last. -/
def operandWords (floats : FloatCodec) : Instruction → List (List Char)
  | .plain instruction => instruction.operandWords floats
  | .enter _ type => type.operandWords
  | .otherwise | .close => []
  | .br depth | .brIf depth => [decimal depth]
  | .brTable depths default => (depths ++ [default]).map decimal

theorem toList_join_operandText (depths : List UInt32) :
    (String.join (depths.map FlatWasm.operandText)).toList = Text.spaced (depths.map decimal) := by
  induction depths with
  | nil => rfl
  | cons depth depths ih =>
    rw [List.map_cons, String.join_cons, String.toList_append, FlatWasm.toList_operandText, ih,
      ← Text.spaced_append]
    rfl

theorem toList_text (instruction : Instruction) :
    (instruction.text floats).toList =
      instruction.operator.mnemonic.toList ++ Text.spaced (instruction.operandWords floats) := by
  rw [text, String.toList_append]
  congr 1
  cases instruction with
  | plain instruction => exact instruction.toList_operandText
  | enter kind type => exact type.toList_text
  | otherwise => rfl
  | close => rfl
  | br depth => exact FlatWasm.toList_operandText depth
  | brIf depth => exact FlatWasm.toList_operandText depth
  | brTable depths default =>
    show (String.join (depths.map FlatWasm.operandText) ++ FlatWasm.operandText default).toList = _
    rw [String.toList_append, toList_join_operandText, FlatWasm.toList_operandText,
      ← Text.spaced_append, operandWords, List.map_append]
    rfl

theorem Restored.isToken_operandWords {instruction : Instruction}
    (h : instruction.Restored floats) :
    ∀ word ∈ instruction.operandWords floats, Text.IsToken word := by
  cases instruction with
  | plain instruction => exact Plain.Restored.isToken_operandWords h
  | enter kind type => exact type.isToken_operandWords
  | brTable depths default =>
    intro word hw
    obtain ⟨depth, -, rfl⟩ := List.mem_map.mp hw
    exact isToken_decimal depth
  | _ => simp [operandWords, isToken_decimal]

end Instruction

/-! ## Instructions from their words -/

namespace Assembly

theorem instruction_brTable (depths : List UInt32) (default : UInt32) :
    instruction floats .brTable ((depths ++ [default]).map decimal) =
      .ok (.brTable depths default) := by
  obtain ⟨first, rest, hsplit⟩ : ∃ first rest, depths ++ [default] = first :: rest :=
    List.exists_cons_of_ne_nil (by simp)
  have hlast : (first :: rest).getLast (by simp) = default := by
    simp only [← hsplit, List.getLast_concat]
  have hfront : (first :: rest).dropLast = depths := by
    rw [← hsplit, List.dropLast_concat]
  rw [hsplit, List.map_cons, instruction, index_decimal, mapM_index]
  show Except.ok (Instruction.brTable _ _) = _
  rw [hlast, hfront]

theorem instruction_plain {plain : Plain} (h : plain.Restored floats) :
    instruction floats plain.operator (plain.operandWords floats) = .ok (.plain plain) := by
  cases plain with
  | call function => exact map_ok (index_decimal function) fun n => Instruction.plain (.call n)
  | callIndirect type =>
    exact map_ok (index_decimal type) fun n => Instruction.plain (.callIndirect n)
  | «variable» op index =>
    exact map_ok (index_decimal index) fun n => Instruction.plain (.variable op n)
  | memory op arg =>
    show (do
      let align ← index (decimal arg.align)
      let offset ← index (decimal arg.offset)
      return Instruction.plain (.memory op ⟨align, offset⟩)) = _
    rw [index_decimal, index_decimal]
    rfl
  | const value =>
    exact map_ok (Constant.Restored.constant_text h) fun value => Instruction.plain (.const value)
  | _ => rfl

/-- An operator and the words of its operands give the instruction back. -/
theorem instruction_operandWords {i : Instruction} (h : i.Restored floats) :
    instruction floats i.operator (i.operandWords floats) = .ok i := by
  cases i with
  | plain plain => exact instruction_plain h
  | enter kind type =>
    cases type with
    | empty => rfl
    | value type => exact map_ok (blockType_value type) (Instruction.enter kind)
    | index type => exact map_ok (blockType_index type) (Instruction.enter kind)
  | otherwise => rfl
  | close => rfl
  | br depth => exact map_ok (index_decimal depth) Instruction.br
  | brIf depth => exact map_ok (index_decimal depth) Instruction.brIf
  | brTable depths default => exact instruction_brTable depths default

end Assembly

/-! ## Lines -/

theorem Instruction.Restored.newline_notMem_text {instruction : Instruction}
    (h : instruction.Restored floats) : '\n' ∉ (instruction.text floats).toList := by
  rw [toList_text, List.mem_append, not_or]
  exact ⟨(Operator.isWord_mnemonic _).isToken.notMem (by decide),
    Text.notMem_spaced h.isToken_operandWords (by decide) (by decide)⟩

namespace Labelled

theorem notMem_labelText (label : Label) : '\n' ∉ (" " ++ Label.text label).toList := by
  have hdigits : Text.IsWord (Nat.toDigits 10 label) := isWord_toDigits (by decide) (by decide) label
  rw [Label.text, String.toList_append, String.toList_append, toList_toString_nat, List.mem_append,
    List.mem_append, not_or, not_or]
  exact ⟨by decide, by decide, hdigits.notMem (by decide)⟩

/-- Labels follow the instruction behind a space and the mark of a comment, on the same line. -/
theorem comment_cases (labelled : Labelled) :
    labelled.comment.toList = [] ∨
      ∃ rest, labelled.comment.toList = ' ' :: ';' :: ';' :: rest ∧ '\n' ∉ rest := by
  unfold comment
  split
  · exact .inl rfl
  · refine .inr ⟨(String.join (labelled.labels.map fun label => " " ++ Label.text label)).toList,
      ?_, ?_⟩
    · rw [String.toList_append]
      rfl
    · rw [String.toList_join, List.flatMap_map]
      intro hm
      obtain ⟨label, -, hm⟩ := List.mem_flatMap.mp hm
      exact notMem_labelText label hm

theorem toList_text (labelled : Labelled) :
    (labelled.text floats).toList =
      (labelled.instruction.text floats).toList ++ labelled.comment.toList :=
  String.toList_append ..

variable {labelled : Labelled}

theorem newline_notMem_text (h : labelled.instruction.Restored floats) :
    '\n' ∉ (labelled.text floats).toList := by
  rw [toList_text, List.mem_append, not_or]
  refine ⟨h.newline_notMem_text, ?_⟩
  rcases labelled.comment_cases with hc | ⟨rest, hc, hrest⟩
  · rw [hc]
    exact List.not_mem_nil
  · rw [hc]
    simpa using hrest

theorem words_text (h : labelled.instruction.Restored floats) :
    Text.words (Text.uncommented (labelled.text floats).toList) =
      labelled.instruction.operator.mnemonic.toList ::
        labelled.instruction.operandWords floats := by
  have hname := (Operator.isWord_mnemonic labelled.instruction.operator).isToken
  have hcomment : labelled.comment.toList.head? ≠ some ';' ∧
      (Text.uncommented labelled.comment.toList = [] ∨
        Text.uncommented labelled.comment.toList = [' ']) := by
    rcases labelled.comment_cases with hc | ⟨rest, hc, -⟩
    · rw [hc]
      exact ⟨by simp, .inl rfl⟩
    · rw [hc]
      exact ⟨by simp, .inr rfl⟩
  rw [toList_text, Instruction.toList_text, List.append_assoc,
    Text.uncommented_spaced hname h.isToken_operandWords hcomment.1]
  exact Text.words_spaced hname h.isToken_operandWords hcomment.2

end Labelled

namespace Assembly

/-- The line of a labelled instruction is assembled to the bytes of the instruction. -/
theorem line_text {labelled : Labelled} (h : labelled.instruction.Restored floats) :
    line floats (labelled.text floats).toList = .ok labelled.encode := by
  rw [line_eq (Labelled.words_text h), instruction_operandWords h]
  rfl

theorem numberedLine_eq_ok_iff {numbered : List Char × Nat} {result : List UInt8} :
    numberedLine floats numbered = .ok result ↔ line floats numbered.1 = .ok result := by
  rw [numberedLine]
  cases line floats numbered.1 <;> simp [Except.mapError]

/-- Lines are assembled together if each of them is assembled, whatever their numbers. -/
theorem mapM_numberedLine_eq_ok_iff {texts : List (List Char)} {results : List (List UInt8)}
    {first : Nat} : (texts.zipIdx first).mapM (numberedLine floats) = .ok results ↔
      List.Forall₂ (fun text result => line floats text = .ok result) texts results := by
  rw [mapM_eq_ok_iff]
  nth_rewrite 2 [← List.zipIdx_map_fst first texts]
  rw [List.forall₂_map_left_iff]
  simp only [numberedLine_eq_ok_iff]

/-- Lines that are each assembled to the bytes of an instruction, with nothing but empty lines
behind them. -/
theorem assemble_of_rows {text : List Char} {rows empty : List (List Char)}
    {code : List Labelled} (hlines : Text.lines text = rows ++ empty)
    (hempty : ∀ row ∈ empty, row = [])
    (hrows : List.Forall₂ (fun row labelled => line floats row = .ok labelled.encode) rows code) :
    assemble floats text = .ok (code.flatMap Labelled.encode) := by
  have hresults : List.Forall₂ (fun text result => line floats text = .ok result) (rows ++ empty)
      (code.map Labelled.encode ++ empty.map fun _ => []) := by
    apply List.rel_append
    · rw [List.forall₂_map_right_iff]
      exact hrows
    · rw [List.forall₂_map_right_iff, List.forall₂_same]
      intro row hrow
      rw [hempty row hrow]
      rfl
  rw [assemble, hlines, assembleLines, map_ok (mapM_numberedLine_eq_ok_iff.mpr hresults),
    List.flatten_append, List.flatMap_def]
  simp

end Assembly

namespace Body

/-- The text of a body: a line for each instruction. -/
def source (floats : FloatCodec) (body : Body) : String :=
  String.join (body.instructions.toList.map fun placed => placed.labelled.text floats ++ "\n")

/-- The codec restores every float of the body. -/
def Restored (floats : FloatCodec) (body : Body) : Prop :=
  ∀ labelled ∈ body.code, labelled.instruction.Restored floats

theorem restored_hexadecimal (body : Body) : body.Restored .hexadecimal := by
  intro labelled _
  rcases labelled.instruction with plain | _ | _ | _ | _ | _ | _
  · cases plain with
    | const value => exact value.restored_hexadecimal
    | _ => trivial
  all_goals trivial

theorem toList_source (body : Body) :
    (body.source floats).toList =
      (body.code.map fun labelled => (labelled.text floats).toList).flatMap (· ++ ['\n']) := by
  rw [source, code, String.toList_join, List.flatMap_map, List.flatMap_map, List.flatMap_map]
  simp only [String.toList_append]
  rfl

variable {body : Body}

theorem Restored.lines_source (h : body.Restored floats) :
    Text.lines (body.source floats).toList =
      (body.code.map fun labelled => (labelled.text floats).toList) ++ [[]] := by
  rw [toList_source]
  apply Text.lines_terminated
  rw [List.forall_mem_map]
  exact fun labelled hm => Labelled.newline_notMem_text (h labelled hm)

/-- Lines that show a body, with nothing but empty lines behind them, assemble to its bytes. -/
theorem Restored.assemble_of_lines (h : body.Restored floats) {text : List Char}
    {empty : List (List Char)}
    (hlines : Text.lines text =
      (body.code.map fun labelled => (labelled.text floats).toList) ++ empty)
    (hempty : ∀ row ∈ empty, row = []) :
    Assembly.assemble floats text = .ok body.encode := by
  rw [encode_eq]
  apply Assembly.assemble_of_rows hlines hempty
  rw [List.forall₂_map_left_iff, List.forall₂_same]
  exact fun labelled hm => Assembly.line_text (h labelled hm)

/-- The text of a body assembles to the bytes that the body is encoded by. -/
theorem assemble_source (floats : FloatCodec) (body : Body) (h : body.Restored floats) :
    Assembly.assemble floats (body.source floats).toList = .ok body.encode :=
  h.assemble_of_lines h.lines_source (by simp)

/-- A NaN with a payload, the zero below zero, and a reserved byte that no word gives. -/
theorem assemble_source_floats :
    ∃ body, decode [0x02, 0x40, 0x43, 0x01, 0x00, 0xA0, 0x7F, 0x1A, 0x44, 0x00, 0x00, 0x00, 0x00,
        0x00, 0x00, 0x00, 0x80, 0x1A, 0x11, 0x05, 0x00, 0x0B, 0x0B] 0 = .ok body ∧
      body.source .hexadecimal = "block ;; L0\nf32.const nan:0x200001\ndrop\n" ++
        "f64.const -0x0p+0\ndrop\ncall_indirect 5\nend ;; L0\nend\n" ∧
      Assembly.assemble .hexadecimal (body.source .hexadecimal).toList =
        .ok [0x02, 0x40, 0x43, 0x01, 0x00, 0xA0, 0x7F, 0x1A, 0x44, 0x00, 0x00, 0x00, 0x00, 0x00, 0x00,
          0x00, 0x80, 0x1A, 0x11, 0x05, 0x00, 0x0B, 0x0B] := by
  let body : Body :=
    ⟨#[⟨.enter .block .empty 0, 0, 2⟩, ⟨.plain (.const (.f32 0x7FA00001)), 2, 5⟩,
        ⟨.plain (.parametric .drop), 7, 1⟩, ⟨.plain (.const (.f64 0x8000000000000000)), 8, 9⟩,
        ⟨.plain (.parametric .drop), 17, 1⟩, ⟨.plain (.callIndirect 5), 18, 3⟩,
        ⟨.close (some 0), 21, 1⟩, ⟨.close none, 22, 1⟩],
      #[⟨.block, .empty, 0, none, some 6⟩], 0, false⟩
  have hencode : body.encode = [0x02, 0x40, 0x43, 0x01, 0x00, 0xA0, 0x7F, 0x1A, 0x44, 0x00, 0x00,
      0x00, 0x00, 0x00, 0x00, 0x00, 0x80, 0x1A, 0x11, 0x05, 0x00, 0x0B, 0x0B] := by
    decide +kernel
  refine ⟨body, by decide +kernel, by decide +kernel, ?_⟩
  rw [assemble_source .hexadecimal body body.restored_hexadecimal, hencode]

end Body

end FlatWasm
