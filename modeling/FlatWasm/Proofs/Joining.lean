import FlatWasm.Proofs.Lines

/-!
# Texts joined line by line

A text is assembled line by line, and a line knows nothing of the others but its number. So two
texts that are joined by a line feed assemble to the bytes of the first and then those of the
second; and if a line is wrong, the first wrong line is reported, counted from the start of the
joined text.

The assembler cuts a text at every line feed and at nothing else. It makes no difference that a
carriage return before a line feed belongs to the end of its line, or that no line follows the last
line feed of a text: a carriage return is blank, and a line without a word is skipped.
-/

namespace FlatWasm

/-! ## Lines and their ends -/

namespace Text

/-- The line without a carriage return at its end. -/
def withoutReturn (line : List Char) : List Char :=
  if line.getLast? = some '\r' then line.dropLast else line

/-- The lines of a text as text files have them: a line ends with a line feed, or with a carriage
return and a line feed. What stands behind the last line feed is a line if it is not empty. -/
def endedLines (text : List Char) : List (List Char) :=
  (lines text).dropLast.map withoutReturn ++
    (lines text).getLast?.toList.filter fun line => !line.isEmpty

example : endedLines "nop\r\n\r\r\nend\r".toList = ["nop", "\r", "end\r"].map String.toList := by
  decide +kernel

theorem lines_ne_nil (text : List Char) : lines text ≠ [] := by
  rw [lines, List.splitOn_eq_splitOnP]
  exact List.splitOnP_ne_nil _ _

theorem length_lines (text : List Char) : (lines text).length = text.count '\n' + 1 := by
  induction text with
  | nil => rfl
  | cons c text ih =>
    rw [lines, List.splitOn_eq_splitOnP] at ih ⊢
    rw [List.splitOnP_cons_eq_if_modifyHead, List.count_cons]
    split_ifs with hc
    · rw [List.length_cons, ih]
    · rw [List.length_modifyHead, ih]

/-- Behind a line, a character that is no semicolon is part of its comment, or else it stands behind
what is left of the line. -/
theorem uncommented_concat {c : Char} (hc : c ≠ ';') (line : List Char) :
    uncommented (line ++ [c]) = uncommented line ∨
      uncommented (line ++ [c]) = uncommented line ++ [c] := by
  fun_induction uncommented line with
  | case1 =>
    right
    rw [List.nil_append, uncommented]
    · rfl
    · intro rest hfirst
      exact absurd hfirst hc
  | case2 rest => exact .inl rfl
  | case3 first rest hplain ih =>
    have hstep : uncommented (first :: (rest ++ [c])) = first :: uncommented (rest ++ [c]) := by
      rw [uncommented]
      intro more hfirst hrest
      cases rest with
      | nil => exact hc (List.cons.inj hrest).1
      | cons second rest =>
        rw [List.cons_append, List.cons.injEq] at hrest
        exact hplain rest hfirst (by rw [hrest.1])
    rw [List.cons_append, hstep]
    rcases ih with ih | ih
    · exact .inl (by rw [ih])
    · exact .inr (by rw [ih, List.cons_append])

theorem words_concat_blank {c : Char} (hc : isBlank c = true) (text : List Char) :
    words (text ++ [c]) = words text := by
  rw [words, List.splitOnP_append_cons _ _ hc, List.filter_append, words]
  exact List.append_nil _

theorem words_withoutReturn (line : List Char) :
    words (uncommented (withoutReturn line)) = words (uncommented line) := by
  unfold withoutReturn
  split_ifs with hreturn
  · have hline : line = line.dropLast ++ ['\r'] := by
      obtain ⟨front, rfl⟩ := List.getLast?_eq_some_iff.mp hreturn
      rw [List.dropLast_concat]
    conv_rhs => rw [hline]
    rcases uncommented_concat (c := '\r') (by decide) line.dropLast with h | h
    · rw [h]
    · rw [h, words_concat_blank (by decide)]
  · rfl

end Text

namespace Assembly

variable {floats : FloatCodec}

theorem line_withoutReturn (text : List Char) :
    line floats (Text.withoutReturn text) = line floats text := by
  rw [line, line, Text.words_withoutReturn]

/-- Lines are read from their words, one by one. -/
theorem mapM_numberedLine_congr {change : List Char → List Char}
    (h : ∀ text, line floats (change text) = line floats text) (texts : List (List Char))
    (first : Nat) :
    ((texts.map change).zipIdx first).mapM (numberedLine floats) =
      (texts.zipIdx first).mapM (numberedLine floats) := by
  induction texts generalizing first with
  | nil => rfl
  | cons text texts ih =>
    have hnumbered :
        numberedLine floats (change text, first) = numberedLine floats (text, first) := by
      rw [numberedLine, numberedLine, h]
    rw [List.map_cons, List.zipIdx_cons, List.mapM_cons, hnumbered, ih, List.zipIdx_cons,
      List.mapM_cons]

/-- Lines in two parts, the second numbered behind the first. -/
theorem mapM_zipIdx_append (front back : List (List Char)) (first : Nat) :
    ((front ++ back).zipIdx first).mapM (numberedLine floats) = (do
      let results ← (front.zipIdx first).mapM (numberedLine floats)
      let more ← (back.zipIdx (first + front.length)).mapM (numberedLine floats)
      return results ++ more) := by
  rw [List.zipIdx_append, List.mapM_append]

theorem assembleLines_endedLines (text : List Char) :
    assembleLines floats (Text.endedLines text) = assembleLines floats (Text.lines text) := by
  obtain ⟨front, last, hlines⟩ : ∃ front last, Text.lines text = front ++ [last] :=
    ⟨_, _, (List.dropLast_append_getLast (Text.lines_ne_nil text)).symm⟩
  have hended : Text.endedLines text =
      front.map Text.withoutReturn ++ [last].filter fun line => !line.isEmpty := by
    rw [Text.endedLines, hlines, List.dropLast_concat, List.getLast?_concat]
    rfl
  rw [hended, hlines, assembleLines, assembleLines, mapM_zipIdx_append, mapM_zipIdx_append,
    mapM_numberedLine_congr line_withoutReturn, List.length_map]
  cases (front.zipIdx 1).mapM (numberedLine floats) with
  | error error => rfl
  | ok results =>
    -- an empty line at the end adds nothing to the instructions
    cases last with
    | nil =>
      show Except.ok _ = Except.ok _
      simp
    | cons c last => rfl

end Assembly

/-! ## Two texts -/

/-- The same error, so many lines further down. -/
def AssemblyError.movedBy (count : Nat) (error : AssemblyError) : AssemblyError :=
  { error with line := error.line + count }

namespace Assembly

variable {floats : FloatCodec}

/-- The numbers of the lines are seen in the errors alone. -/
theorem mapM_zipIdx_moved (texts : List (List Char)) (first count : Nat) :
    (texts.zipIdx (first + count)).mapM (numberedLine floats) =
      ((texts.zipIdx first).mapM (numberedLine floats)).mapError (·.movedBy count) := by
  induction texts generalizing first with
  | nil => rfl
  | cons text texts ih =>
    have hnumbered : numberedLine floats (text, first + count) =
        (numberedLine floats (text, first)).mapError (·.movedBy count) := by
      rw [numberedLine, numberedLine]
      cases line floats text with
      | error cause => rfl
      | ok result => rfl
    have hnext : first + count + 1 = first + 1 + count := by omega
    rw [List.zipIdx_cons, List.mapM_cons, hnumbered, hnext, ih, List.zipIdx_cons, List.mapM_cons]
    cases numberedLine floats (text, first) with
    | error error => rfl
    | ok result =>
      cases (texts.zipIdx (first + 1)).mapM (numberedLine floats) with
      | error error => rfl
      | ok results => rfl

theorem assembleLines_append (front back : List (List Char)) :
    assembleLines floats (front ++ back) = (do
      let bytes ← assembleLines floats front
      let more ← (assembleLines floats back).mapError (·.movedBy front.length)
      return bytes ++ more) := by
  rw [assembleLines, assembleLines, assembleLines, mapM_zipIdx_append, mapM_zipIdx_moved]
  cases (front.zipIdx 1).mapM (numberedLine floats) with
  | error error => rfl
  | ok results =>
    cases (back.zipIdx 1).mapM (numberedLine floats) with
    | error error => rfl
    | ok more =>
      show Except.ok (results ++ more).flatten = _
      rw [List.flatten_append]
      rfl

/-- A text is assembled by its lines, as they end in text files. Two texts joined by a line feed
give the error of the first; or else the error of the second, so many lines further down as the
first has; or else the bytes of both. -/
theorem assemble_joined (floats : FloatCodec) :
    (∀ text, assemble floats text = assembleLines floats (Text.endedLines text)) ∧
      ∀ front back, assemble floats (front ++ '\n' :: back) = (do
        let bytes ← assemble floats front
        let more ← (assemble floats back).mapError (·.movedBy (front.count '\n' + 1))
        return bytes ++ more) := by
  constructor
  · intro text
    rw [assembleLines_endedLines, assemble]
  · intro front back
    rw [assemble, assemble, assemble, Text.lines_append, assembleLines_append, Text.length_lines]

end Assembly

end FlatWasm
