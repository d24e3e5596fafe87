import FlatWasm.Command.Standard
import FlatWasm.Proofs.Assembling

/-!
# Formats of the input

A body comes as its bytes, as hexadecimal digits or as assembly text. The command works on the bytes
that it finds in the file, and these are the same: digits of either case give their bytes however
they are spread over blanks and lines, and the text of a body gives the bytes that the body is
encoded by. So the answer is the same too, on both channels and in its code.

With the lowering left out, less is printed, but nothing else.

All this holds in every environment that reads digits of either case and restores the floats of the
body, however it logs; the environment of the command is one of them.
-/

namespace FlatWasm

/-! ## Text in files -/

namespace Command

theorem byteArray_toList_loop (bytes : ByteArray) (index : Nat) (done : List UInt8) :
    ByteArray.toList.loop bytes index done = done.reverse ++ bytes.data.toList.drop index := by
  fun_induction ByteArray.toList.loop bytes index done with
  | case1 index done hlt ih =>
    have hlength : index < bytes.data.toList.length := by simpa using hlt
    rw [ih, List.drop_eq_getElem_cons hlength]
    simp [ByteArray.get!, hlt]
  | case2 index done hle =>
    rw [List.drop_eq_nil_of_le (by simpa using hle), List.append_nil]

theorem byteArray_toList (bytes : ByteArray) : bytes.toList = bytes.data.toList := by
  rw [ByteArray.toList, byteArray_toList_loop]
  rfl

/-- A file that holds a text is read as the text. -/
theorem contentText_toUTF8 (text : String) : contentText text.toUTF8.toList = .ok text.toList := by
  have hread : String.fromUTF8? text.toUTF8 = some text := by
    rw [String.fromUTF8?, String.toUTF8_eq_toByteArray, dif_pos text.isValidUTF8]
    rfl
  rw [contentText, byteArray_toList, Array.toArray_toList, hread]

theorem utf8EncodeChar_of_lt {c : Char} (h : c.toNat < 128) :
    String.utf8EncodeChar c = [UInt8.ofNat c.toNat] := by
  have hsize : c.utf8Size = 1 := by
    rw [Char.utf8Size_eq_one_iff, UInt32.le_iff_toNat_le]
    exact Nat.le_of_lt_succ h
  rw [String.utf8EncodeChar_eq_singleton hsize]
  rfl

theorem toUTF8_ofList (text : List Char) :
    (String.ofList text).toUTF8.toList = text.flatMap String.utf8EncodeChar := by
  rw [byteArray_toList, String.toUTF8_eq_toByteArray, String.toByteArray_ofList, List.utf8Encode,
    List.toList_data_toByteArray]

/-- Each character below 128 is a byte of its own. -/
theorem byteCharacters_eq {text : List Char} (h : ∀ c ∈ text, c.toNat < 128) :
    byteCharacters text = text := by
  rw [byteCharacters, toUTF8_ofList, List.map_flatMap]
  induction text with
  | nil => rfl
  | cons c rest ih =>
    obtain ⟨hc, hrest⟩ := List.forall_mem_cons.mp h
    have hback : Char.ofNat (UInt8.ofNat c.toNat).toNat = c := by
      rw [UInt8.toNat_ofNat', Nat.mod_eq_of_lt (by omega), Char.ofNat_toNat]
    rw [List.flatMap_cons, ih hrest, utf8EncodeChar_of_lt hc, List.map_singleton, hback,
      List.singleton_append]

end Command

/-! ## Hexadecimal digits -/

namespace Hex

/-- Without its blanks and with small letters, the text is the digits of the bytes. -/
def Shows (text : List Char) (bytes : List UInt8) : Prop :=
  (text.filter (!Text.isBlank ·)).map Char.toLower = (encode bytes).toList

instance (text : List Char) (bytes : List UInt8) : Decidable (Shows text bytes) :=
  inferInstanceAs (Decidable (_ = _))

theorem toList_encode (bytes : List UInt8) :
    (encode bytes).toList = bytes.flatMap fun byte =>
      [Nat.digitChar (byte.toNat / 16), Nat.digitChar (byte.toNat % 16)] :=
  String.toList_ofList

theorem length_encode (bytes : List UInt8) : (encode bytes).toList.length = 2 * bytes.length := by
  rw [toList_encode]
  induction bytes with
  | nil => rfl
  | cons byte bytes ih =>
    rw [List.flatMap_cons, List.length_append, ih]
    simp only [List.length_cons, List.length_nil]
    omega

theorem mem_encode {bytes : List UInt8} {c : Char} (h : c ∈ (encode bytes).toList) :
    ∃ d < 16, c = Nat.digitChar d := by
  rw [toList_encode] at h
  obtain ⟨byte, -, hc⟩ := List.mem_flatMap.mp h
  have hbyte := byte.toNat_lt
  rcases List.mem_pair.mp hc with hc | hc
  · exact ⟨byte.toNat / 16, by omega, hc⟩
  · exact ⟨byte.toNat % 16, by omega, hc⟩

theorem digit?_toLower (c : Char) : digit? c.toLower = digit? c := by
  by_cases h : c.val ≥ 'A'.val ∧ c.val ≤ 'Z'.val
  · obtain ⟨n, hn, hlo, hhi⟩ : ∃ n, c = Char.ofNat n ∧ 65 ≤ n ∧ n ≤ 90 :=
      ⟨c.toNat, (Char.ofNat_toNat c).symm, h.1, h.2⟩
    subst hn
    interval_cases n <;> rfl
  · rw [Char.toLower, dif_neg h]

/-- A digit is read alike in either case. -/
theorem digit?_of_toLower {c : Char} {d : Nat} (hd : d < 16) (h : c.toLower = Nat.digitChar d) :
    digit? c = some d := by
  have hdigit := Numeral.digit?_digitChar (Nat.le_refl 16) hd
  rw [Numeral.digit?, Option.filter_eq_some_iff] at hdigit
  rw [← digit?_toLower, h, hdigit.1]

theorem toNat_lt_of_digit? {c : Char} {d : Nat} (h : digit? c = some d) : c.toNat < 128 := by
  have hle (last : Char) (hc : c ≤ last) (hlast : last.toNat < 128) : c.toNat < 128 :=
    lt_of_le_of_lt (UInt32.le_iff_toNat_le.mp (Char.le_def.mp hc)) hlast
  unfold digit? at h
  split_ifs at h with hdecimal hsmall hlarge
  · exact hle '9' hdecimal.2 (by decide)
  · exact hle 'f' hsmall.2 (by decide)
  · exact hle 'F' hlarge.2 (by decide)

theorem decodePairs_of_toLower {digits : List Char} {bytes : List UInt8}
    (h : digits.map Char.toLower = (encode bytes).toList) (position : Nat) (done : List UInt8) :
    decodePairs position done digits = .ok (done.reverse ++ bytes) := by
  rw [toList_encode] at h
  induction bytes generalizing digits position done with
  | nil =>
    obtain rfl := List.map_eq_nil_iff.mp h
    rw [decodePairs, List.append_nil]
    simp
  | cons byte bytes ih =>
    have hbyte := byte.toNat_lt
    obtain ⟨high, tail, rfl, hhigh, htail⟩ := List.map_eq_cons_iff.mp h
    obtain ⟨low, rest, rfl, hlow, hrest⟩ := List.map_eq_cons_iff.mp htail
    have hjoin : UInt8.ofNat (16 * (byte.toNat / 16) + byte.toNat % 16) = byte := by
      rw [Nat.div_add_mod, UInt8.ofNat_toNat]
    simp only [decodePairs, digit?_of_toLower (by omega) hhigh, digit?_of_toLower (by omega) hlow]
    rw [hjoin, ih hrest, List.reverse_cons, List.append_assoc, List.singleton_append]

theorem decode_of_toLower {digits : List Char} {bytes : List UInt8}
    (h : digits.map Char.toLower = (encode bytes).toList) : decode digits = .ok bytes := by
  have hlength : digits.length = 2 * bytes.length := by
    rw [← length_encode, ← h, List.length_map]
  rw [decode, if_neg (by omega), decodePairs_of_toLower h]
  rfl

/-- Digits are one byte each. -/
theorem byteCharacters_of_shows {text : List Char} {bytes : List UInt8} (h : Shows text bytes) :
    Command.byteCharacters (text.filter (!Text.isBlank ·)) = text.filter (!Text.isBlank ·) := by
  apply Command.byteCharacters_eq
  intro c hc
  have hmem : c.toLower ∈ (encode bytes).toList := h ▸ List.mem_map_of_mem hc
  obtain ⟨d, hd, hdigit⟩ := mem_encode hmem
  exact toNat_lt_of_digit? (digit?_of_toLower hd hdigit)

end Hex

/-! ## Assembly text -/

theorem Text.lines_append_break (text : List Char) :
    lines (text ++ ['\n']) = lines text ++ [[]] := lines_append text []

namespace Body

/-- A line for each instruction; at the end of the last, the line break may be missing. -/
def IsShownBy (floats : FloatCodec) (body : Body) (text : String) : Prop :=
  text = body.source floats ∨ text ++ "\n" = body.source floats

theorem assemble_of_isShownBy {floats : FloatCodec} {body : Body} {text : String}
    (hf : body.Restored floats) (h : body.IsShownBy floats text) :
    Assembly.assemble floats text.toList = .ok body.encode := by
  rcases h with rfl | h
  · exact hf.assemble_of_lines hf.lines_source (by simp)
  · have hlines : Text.lines text.toList ++ [[]] =
        (body.code.map fun labelled => (labelled.text floats).toList) ++ [[]] := by
      rw [← Text.lines_append_break, ← hf.lines_source, ← h, String.toList_append]
      rfl
    have hrows := List.append_cancel_right hlines
    exact hf.assemble_of_lines (hrows.trans (List.append_nil _).symm) (by simp)

end Body

namespace Command

/-! ## The same answer -/

/-- Hexadecimal digits of either case are read as their bytes. -/
def Environment.DecodesHex (env : Environment) : Prop :=
  ∀ (digits : List Char) (bytes : List UInt8),
    digits.map Char.toLower = (Hex.encode bytes).toList → env.decodeHex digits = .ok bytes

theorem Environment.decodesHex_standard : Environment.standard.DecodesHex :=
  fun _ _ => Hex.decode_of_toLower

variable {env : Environment} (options : Options)

theorem bodyBytes_hex (henv : env.DecodesHex) {text : String} {bytes : List UInt8}
    (h : Hex.Shows text.toList bytes) :
    bodyBytes env { options with format := .hex } (.ok text.toUTF8.toList) =
      bodyBytes env { options with format := .binary } (.ok bytes) := by
  unfold bodyBytes
  simp only [Except.mapError, contentText_toUTF8, bind, Except.bind,
    Hex.byteCharacters_of_shows h, henv _ _ h]

theorem bodyBytes_text {text : String} {body : Body} (hf : body.Restored env.floats)
    (h : body.IsShownBy env.floats text) :
    bodyBytes env { options with format := .text } (.ok text.toUTF8.toList) =
      bodyBytes env { options with format := .binary } (.ok body.encode) := by
  unfold bodyBytes
  simp only [Except.mapError, contentText_toUTF8, bind, Except.bind,
    Body.assemble_of_isShownBy hf h]

theorem runBody_format (format : Format) :
    runBody env { options with format := format } = runBody env options := rfl

/-- Once the bytes are there, the format makes no difference. -/
theorem outcome_of_bodyBytes {options : Options} {format format' : Format}
    {content content' : Except FileError (List UInt8)}
    (h : bodyBytes env { options with format := format } content =
      bodyBytes env { options with format := format' } content') :
    outcome env { options with format := format } content =
      outcome env { options with format := format' } content' := by
  have hrun : run env { options with format := format } content =
      run env { options with format := format' } content' := by
    rw [run, run, h, runBody_format options format, runBody_format options format']
  rw [outcome, outcome, hrun]

/-! ## What is printed -/

@[simp] theorem Output.stdout_log (output : Output) (level : Level)
    (messages : Unit → List Message) :
    (output.log env options level messages).stdout = output.stdout := by
  unfold log
  split <;> rfl

theorem stdout_runLowering (body : Body) (output : Output) :
    ∃ more, (runLowering env options body output).2.stdout = output.stdout ++ more := by
  unfold runLowering
  rcases body.lower .empty with ⟨_ | _, lowering⟩
  · exact ⟨"", by simp⟩
  · exact ⟨"\n" ++ lowering.listing.text env.floats, by simp [Output.print]⟩

theorem stdout_runBody (bytes : List UInt8) (output : Output) :
    ∃ more, (runBody env { options with decodeOnly := false } bytes output).2.stdout =
      (runBody env { options with decodeOnly := true } bytes output).2.stdout ++ more := by
  unfold runBody
  dsimp only
  split
  · exact ⟨"", by simp⟩
  · exact stdout_runLowering _ _ _

theorem stdout_outcome (content : Except FileError (List UInt8)) :
    (outcome env options content).output.stdout = (run env options content).2.stdout := by
  unfold outcome
  rcases run env options content with ⟨_ | _, output⟩ <;> rfl

theorem stdout_decodeOnly (content : Except FileError (List UInt8)) :
    ∃ more, (outcome env { options with decodeOnly := false } content).output.stdout =
      (outcome env { options with decodeOnly := true } content).output.stdout ++ more := by
  have hbytes : bodyBytes env { options with decodeOnly := false } content =
    bodyBytes env { options with decodeOnly := true } content := rfl
  rw [stdout_outcome, stdout_outcome, run, run, hbytes]
  cases bodyBytes env { options with decodeOnly := true } content with
  | error failure => exact ⟨"", by simp⟩
  | ok bytes => exact stdout_runBody options bytes .empty

/-- The command answers alike to a body in its three formats, and leaving out the lowering only
leaves out what is printed last. -/
theorem outcome_formats_agree (env : Environment) (options : Options) (bytes : List UInt8) :
    (env.DecodesHex → ∀ text : String, Hex.Shows text.toList bytes →
      outcome env { options with format := .hex } (.ok text.toUTF8.toList) =
        outcome env { options with format := .binary } (.ok bytes)) ∧
    (∀ body : Body, body.encode = bytes → body.Restored env.floats →
      ∀ text, body.IsShownBy env.floats text →
        outcome env { options with format := .text } (.ok text.toUTF8.toList) =
          outcome env { options with format := .binary } (.ok bytes)) ∧
    ∀ content, ∃ more, (outcome env { options with decodeOnly := false } content).output.stdout =
      (outcome env { options with decodeOnly := true } content).output.stdout ++ more := by
  refine ⟨?_, ?_, stdout_decodeOnly options⟩
  · intro henv text h
    exact outcome_of_bodyBytes (bodyBytes_hex options henv h)
  · intro body hbytes hf text h
    subst hbytes
    exact outcome_of_bodyBytes (bodyBytes_text options hf h)

/-- Digits of both cases with blanks inside a byte, and a text without a line break at its end. -/
theorem outcome_formats_agree_constant :
    outcome .standard ⟨"body", 0, .hex, false, 3⟩ (.ok "4 1fF\u2003\n00 1A\t0b".toUTF8.toList) =
        outcome .standard ⟨"body", 0, .binary, false, 3⟩ (.ok [0x41, 0xFF, 0x00, 0x1A, 0x0B]) ∧
      outcome .standard ⟨"body", 0, .text, false, 3⟩
          (.ok "i32.const 127\ndrop\nend".toUTF8.toList) =
        outcome .standard ⟨"body", 0, .binary, false, 3⟩
          (.ok [0x41, 0xFF, 0x00, 0x1A, 0x0B]) := by
  obtain ⟨hhex, htext, -⟩ := outcome_formats_agree .standard ⟨"body", 0, .binary, false, 3⟩
    [0x41, 0xFF, 0x00, 0x1A, 0x0B]
  refine ⟨hhex Environment.decodesHex_standard _ (by decide +kernel), ?_⟩
  let body : Body := ⟨#[⟨.plain (.const (.i32 127)), 0, 3⟩, ⟨.plain (.parametric .drop), 3, 1⟩,
    ⟨.close none, 4, 1⟩], #[], 0, false⟩
  exact htext body (by decide +kernel) body.restored_hexadecimal _ (.inr (by decide +kernel))

end Command

end FlatWasm
