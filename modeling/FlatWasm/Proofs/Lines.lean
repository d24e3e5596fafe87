import FlatWasm.Proofs.Assembling

/-!
# Assembled line by line

Every line of a text that has a word shows one instruction, whose operator the first word names, and
is assembled to the one form that the encoder has for it. The bytes hold no mark of where a line
ends. A reader finds the lines again all the same, because no spelling of an instruction begins with
another: whatever body is read from the bytes has the instructions of the lines, one for each.
-/

namespace FlatWasm

/-! ## From lines to instructions -/

namespace Text

/-- The words of each line that has any, comments left out. -/
def rows (text : List Char) : List (List (List Char)) :=
  ((lines text).map fun line => words (uncommented line)).filter fun row => !row.isEmpty

end Text

/-- The length of a table fits into the 32 bits that are written of it. -/
def Instruction.Counted : Instruction → Prop
  | .brTable depths _ => depths.length < 2 ^ 32
  | _ => True

namespace Assembly

variable {floats : FloatCodec}

/-- Lines without a word leave nothing behind; each of the others shows an instruction, and leaves
its bytes. -/
theorem exists_reads {texts : List (List Char)} {results : List (List UInt8)}
    (h : List.Forall₂ (fun text result => line floats text = .ok result) texts results) :
    ∃ row : List Instruction, results.flatten = row.flatMap Instruction.encode ∧
      List.Forall₂ (Reads floats)
        ((texts.map fun line => Text.words (Text.uncommented line)).filter fun row => !row.isEmpty)
        row := by
  induction h with
  | nil => exact ⟨[], rfl, .nil⟩
  | @cons text result texts results hline _ ih =>
    obtain ⟨row, hbytes, hreads⟩ := ih
    rcases line_ok hline with ⟨hwords, rfl⟩ | ⟨i, rfl, hread⟩
    · refine ⟨row, hbytes, ?_⟩
      simpa [hwords] using hreads
    · have hkept : (!(Text.words (Text.uncommented text)).isEmpty) = true := by
        obtain ⟨operands, hwords, -⟩ := hread
        rw [hwords]
        rfl
      refine ⟨i :: row, by rw [List.flatten_cons, hbytes, List.flatMap_cons], ?_⟩
      rw [List.map_cons, List.filter_cons, if_pos hkept]
      exact .cons hread hreads

theorem assemble_ok {text : List Char} {bytes : List UInt8}
    (h : assemble floats text = .ok bytes) :
    ∃ row : List Instruction, bytes = row.flatMap Instruction.encode ∧
      List.Forall₂ (Reads floats) (Text.rows text) row := by
  obtain ⟨results, hresults, rfl⟩ := map_eq_ok h
  exact exists_reads (mapM_numberedLine_eq_ok_iff.mp hresults)

/-- The depths of a table and its default are as many as the words behind the mnemonic. -/
theorem Reads.counted {row : List (List Char)} {i : Instruction} (h : Reads floats row i)
    (hrow : row.length ≤ 2 ^ 32) : i.Counted := by
  obtain ⟨operands, rfl, hread⟩ := h
  cases i with
  | brTable depths default =>
    cases operands with
    | nil => cases hread
    | cons first rest =>
      obtain ⟨first, -, hread⟩ := bind_eq_ok hread
      obtain ⟨depths, hdepths, hread⟩ := bind_eq_ok hread
      cases hread
      have hlength := (mapM_eq_ok_iff.mp hdepths).length_eq
      rw [List.length_cons, List.length_cons] at hrow
      show (first :: depths).dropLast.length < 2 ^ 32
      rw [List.length_dropLast, List.length_cons]
      omega
  | _ => trivial

theorem counted_of_reads {rows : List (List (List Char))} {row : List Instruction}
    (h : List.Forall₂ (Reads floats) rows row) (hrows : ∀ words ∈ rows, words.length ≤ 2 ^ 32) :
    ∀ i ∈ row, i.Counted := by
  induction h with
  | nil => exact fun i hi => absurd hi List.not_mem_nil
  | cons hread _ ih =>
    obtain ⟨hfirst, hrest⟩ := List.forall_mem_cons.mp hrows
    exact List.forall_mem_cons.mpr ⟨hread.counted hfirst, ih hrest⟩

theorem mnemonics_of_reads {rows : List (List (List Char))} {row : List Instruction}
    (h : List.Forall₂ (Reads floats) rows row) :
    row.map (fun i => i.operator.mnemonic.toList) = rows.filterMap List.head? := by
  induction h with
  | nil => rfl
  | cons hread _ ih =>
    obtain ⟨operands, rfl, -⟩ := hread
    rw [List.map_cons, ih]
    rfl

end Assembly

/-! ## From bytes back to instructions -/

namespace Leb128

/-- No terminated stretch begins with another. -/
theorem Terminated.eq_of_append {front front' back back' : List UInt8} (h : Terminated front)
    (h' : Terminated front') (he : front ++ back = front' ++ back') : front = front' := by
  induction front generalizing front' with
  | nil => exact h.elim
  | cons byte rest ih =>
    cases front' with
    | nil => exact h'.elim
    | cons byte' rest' =>
      rw [List.cons_append, List.cons_append, List.cons.injEq] at he
      obtain ⟨rfl, he⟩ := he
      cases rest with
      | nil =>
        cases rest' with
        | nil => rfl
        | cons next' rest' => exact absurd (h.symm.trans h'.1) Bool.false_ne_true
      | cons next rest =>
        cases rest' with
        | nil => exact absurd (h'.symm.trans h.1) Bool.false_ne_true
        | cons next' rest' => rw [ih h.2 h'.2 he]

end Leb128

namespace Instruction

/-- A table that is longer than the limit is written with its length, and a reader stops there. -/
theorem Spelled.encodable_of_append {i other : Instruction} {bytes rest rest' : List UInt8}
    (h : i.Spelled bytes) (hc : other.Counted) (he : bytes ++ rest = other.encode ++ rest') :
    other.Encodable := by
  obtain ⟨operands, rfl, ht⟩ := h
  rw [encode, List.cons_append, List.cons_append, List.cons.injEq] at he
  obtain ⟨hopcode, he⟩ := he
  cases other with
  | brTable depths default =>
    have hop : i.operator = .brTable := Operator.opcode_injective hopcode
    rw [hop] at ht
    obtain ⟨front, back, targets, rfl, hf, -⟩ := (Read.takes_bind_iff Read.codec_indices.isLocal
      fun targets => Read.codec_index.isLocal.bind fun _ => Read.local_pure _).mp ht
    obtain ⟨count, items, rfl, hcount, -, hmost⟩ := Read.takes_indices hf
    have hread := (Leb128.takes_readUnsigned_iff (by decide)).mp hcount
    have hwritten : Leb128.Unsigned 32 _ depths.length :=
      Leb128.encodeUnsigned_spec (by decide) hc
    have hsame : count = Leb128.encodeUnsigned depths.length := by
      simp only [operandBytes, Read.encodeIndices_eq hc, List.append_assoc] at he
      exact hread.terminated.eq_of_append hwritten.terminated he
    have hlength : targets.length = depths.length := by
      rw [← hread.value_eq, hsame, hwritten.value_eq]
    show depths.length ≤ maxBranchTargets
    rwa [← hlength]
  | _ => trivial

/-- Of two instructions at the front of one input, the first spelled and the second written, both
are the same, and so are their bytes. -/
theorem Spelled.eq_of_append {i other : Instruction} {bytes rest rest' : List UInt8}
    (h : i.Spelled bytes) (hc : other.Counted) (he : bytes ++ rest = other.encode ++ rest') :
    bytes = other.encode ∧ i = other := by
  have hother := spelled_encode (h.encodable_of_append hc he)
  obtain ⟨operands, rfl, ht⟩ := h
  obtain ⟨operands', hoperands', ht'⟩ := hother
  rw [hoperands', List.cons_append, List.cons_append, List.cons.injEq] at he
  rw [Operator.opcode_injective he.1] at ht ⊢
  obtain ⟨rfl, rfl⟩ := ht.unique ht' he.2
  exact ⟨hoperands'.symm, rfl⟩

end Instruction

/-- Instructions that are spelled by what other instructions are written as are those
instructions: every boundary between two of them is found. -/
theorem Chunk.instructions_of_input {chunks : List Chunk} {row : List Instruction}
    (hc : ∀ i ∈ row, i.Counted) (h : input chunks = row.flatMap Instruction.encode) :
    (code chunks).map Labelled.instruction = row := by
  induction chunks generalizing row with
  | nil =>
    cases row with
    | nil => rfl
    | cons i row => cases h
  | cons chunk chunks ih =>
    cases row with
    | nil =>
      have hpos := chunk.spelled.length_pos
      have hlength := congrArg List.length h
      rw [input, List.flatMap_cons, List.length_append, List.flatMap_nil, List.length_nil] at hlength
      omega
    | cons i row =>
      rw [input, List.flatMap_cons, List.flatMap_cons] at h
      obtain ⟨hfirst, hrest⟩ := List.forall_mem_cons.mp hc
      obtain ⟨hbytes, hi⟩ := chunk.spelled.eq_of_append hfirst h
      rw [hbytes] at h
      rw [code, List.map_cons, List.map_cons, hi, ← code, ih hrest (List.append_cancel_left h)]

namespace Assembly

/-- The bytes of a text are the written forms of its instructions, one for each line that has a
word, and its first word names the operator. Whatever body is read from the bytes has these
instructions and is written as these bytes. No line may have so many operands that 32 bits cannot
count them. -/
theorem assemble_canonical (floats : FloatCodec) {text : List Char} {bytes : List UInt8}
    (hrows : ∀ row ∈ Text.rows text, row.length ≤ 2 ^ 32)
    (h : assemble floats text = .ok bytes) :
    ∃ row : List Instruction, bytes = row.flatMap Instruction.encode ∧
      List.Forall₂ (Reads floats) (Text.rows text) row ∧
      row.map (fun i => i.operator.mnemonic.toList) = (Text.rows text).filterMap List.head? ∧
      ∀ params body, Body.decode bytes params = .ok body →
        body.code.map Labelled.instruction = row ∧
        body.instructions.size = (Text.rows text).length ∧
        body.code.map (fun labelled => labelled.operator.mnemonic.toList) =
          (Text.rows text).filterMap List.head? ∧
        body.encode = bytes := by
  obtain ⟨row, hbytes, hreads⟩ := assemble_ok h
  have hnames := mnemonics_of_reads hreads
  refine ⟨row, hbytes, hreads, hnames, ?_⟩
  intro params body hbody
  obtain ⟨-, -, chunks, -, -, hinput, -, -, -, -, hins, -⟩ := Body.decode_ok_iff.mp hbody
  have hcode : body.code.map Labelled.instruction = row := by
    rw [Body.code, hins, Chunk.place_labelled]
    exact Chunk.instructions_of_input (counted_of_reads hreads hrows) (hinput.symm.trans hbytes)
  refine ⟨hcode, ?_, ?_, ?_⟩
  · calc body.instructions.size
        = (body.code.map Labelled.instruction).length := by simp [Body.code]
      _ = (Text.rows text).length := by rw [hcode, hreads.length_eq]
  · rw [← hnames, ← hcode, List.map_map]
    rfl
  · calc body.encode
        = (body.code.map Labelled.instruction).flatMap Instruction.encode := by
          rw [Body.encode_eq, List.flatMap_map]
          rfl
      _ = bytes := by rw [hcode, hbytes]

/-- Comments, an empty line and blanks leave no trace in the bytes, and the length of the table is
written though no word gives it. -/
theorem assemble_canonical_table :
    assemble .hexadecimal
        "block i32 ;; opens\n\n  i32.const -0x1\n\tbr_table 0 +0 0\n;; drop\nend\ndrop\nend".toList =
      .ok [0x02, 0x7F, 0x41, 0x7F, 0x0E, 0x02, 0x00, 0x00, 0x00, 0x0B, 0x1A, 0x0B] ∧
      ∃ body, Body.decode [0x02, 0x7F, 0x41, 0x7F, 0x0E, 0x02, 0x00, 0x00, 0x00, 0x0B, 0x1A, 0x0B] 3 =
          .ok body ∧
        body.instructions.size = 6 ∧
        body.code.map (fun labelled => labelled.operator.mnemonic.toList) =
          ["block", "i32.const", "br_table", "end", "drop", "end"].map String.toList ∧
        body.encode = [0x02, 0x7F, 0x41, 0x7F, 0x0E, 0x02, 0x00, 0x00, 0x00, 0x0B, 0x1A, 0x0B] := by
  have htext : assemble .hexadecimal
      "block i32 ;; opens\n\n  i32.const -0x1\n\tbr_table 0 +0 0\n;; drop\nend\ndrop\nend".toList =
      .ok [0x02, 0x7F, 0x41, 0x7F, 0x0E, 0x02, 0x00, 0x00, 0x00, 0x0B, 0x1A, 0x0B] := by
    decide +kernel
  have hbody : Body.decode
      [0x02, 0x7F, 0x41, 0x7F, 0x0E, 0x02, 0x00, 0x00, 0x00, 0x0B, 0x1A, 0x0B] 3 = .ok
      ⟨#[⟨.enter .block (.value .i32) 0, 0, 2⟩, ⟨.plain (.const (.i32 (-1))), 2, 2⟩,
          ⟨.brTable [⟨0, 0⟩, ⟨0, 0⟩] ⟨0, 0⟩, 4, 5⟩, ⟨.close (some 0), 9, 1⟩,
          ⟨.plain (.parametric .drop), 10, 1⟩, ⟨.close none, 11, 1⟩],
        #[⟨.block, .value .i32, 0, none, some 3⟩], 3, false⟩ := by
    decide +kernel
  obtain ⟨row, -, -, -, hread⟩ := assemble_canonical .hexadecimal (by decide +kernel) htext
  obtain ⟨-, hsize, hnames, hencode⟩ := hread 3 _ hbody
  refine ⟨htext, _, hbody, hsize.trans (by decide +kernel), hnames.trans (by decide +kernel), hencode⟩

end Assembly

end FlatWasm
