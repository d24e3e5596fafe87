import FlatWasm.Proofs.Scanning

/-!
# Input that is cut off

A reader that takes some bytes cannot do with fewer of them: given only the front of what it takes,
it runs out of input and says so. The property passes along sequences of readers up to the operands
of each operator. All operands of an instruction are read before a block is opened, divided or
looked up, so a body that is cut anywhere fails for want of bytes and for no other reason. Bytes
behind the end of a function are counted instead.
-/

namespace FlatWasm

/-- The causes which say that the input ended too early. -/
def Malformed.isShortage : Malformed → Bool
  | .unexpectedEnd | .vectorPastEnd _ | .blocksLeftOpen _ => true
  | _ => false

/-- A cut through two stretches falls into the first of them, or else behind it. -/
theorem cut_cases {front back first second : List UInt8}
    (h : front ++ back = first ++ second) :
    (∃ cut, cut ≠ [] ∧ first = front ++ cut ∧ back = cut ++ second) ∨
      ∃ cut, front = first ++ cut ∧ second = cut ++ back := by
  rcases List.append_eq_append_iff.mp h with ⟨cut, hfirst, hback⟩ | hbehind
  · by_cases hc : cut = []
    · subst hc
      exact Or.inr ⟨[], by rw [hfirst, List.append_nil, List.append_nil], hback.symm⟩
    · exact Or.inl ⟨cut, hc, hfirst, hback⟩
  · exact Or.inr hbehind

/-! ## Readers -/

namespace Read

variable {α β : Type}

/-- Before exactly these bytes, the reader finds that the input ends too early. -/
def RunsOut (reader : Read α) (input : List UInt8) : Prop :=
  ∀ offset, ∃ cause left, reader ⟨offset, input⟩ = (.error cause, left) ∧ cause.isShortage = true

/-- The reader looks no further than the bytes it takes, and cannot do without any of them. -/
structure SelfDelimiting (reader : Read α) : Prop where
  isLocal : reader.Local
  runsOut : ∀ front back value, reader.Takes (front ++ back) value → back ≠ [] →
    reader.RunsOut front

theorem RunsOut.bind {reader : Read α} {input : List UInt8} (h : reader.RunsOut input)
    (next : α → Read β) : (reader >>= next).RunsOut input := by
  intro offset
  obtain ⟨cause, left, hr, hc⟩ := h offset
  refine ⟨cause, left, ?_, hc⟩
  rw [bind_apply, hr]

theorem Takes.runsOut_bind {reader : Read α} {next : α → Read β} {taken input : List UInt8}
    {value : α} (ht : reader.Takes taken value) (h : (next value).RunsOut input) :
    (reader >>= next).RunsOut (taken ++ input) := by
  intro offset
  obtain ⟨cause, left, hn, hc⟩ := h (offset + taken.length)
  refine ⟨cause, left, ?_, hc⟩
  rw [bind_apply, ht offset input]
  exact hn

theorem selfDelimiting_pure (value : α) : (pure value : Read α).SelfDelimiting where
  isLocal := local_pure value
  runsOut := by
    intro front back value' ht hb
    exact absurd (List.append_eq_nil_iff.mp (takes_pure_iff.mp ht).1).2 hb

theorem selfDelimiting_fail (cause : Malformed) : (fail cause : Read α).SelfDelimiting where
  isLocal := local_fail cause
  runsOut := fun _ _ _ ht => absurd ht takes_fail_iff

theorem SelfDelimiting.bind {reader : Read α} {next : α → Read β} (hr : reader.SelfDelimiting)
    (hn : ∀ value, (next value).SelfDelimiting) : (reader >>= next).SelfDelimiting where
  isLocal := hr.isLocal.bind fun value => (hn value).isLocal
  runsOut := by
    intro front back result ht hb
    obtain ⟨taken, tail, value, he, htaken, htail⟩ :=
      (takes_bind_iff hr.isLocal fun value => (hn value).isLocal).mp ht
    rcases cut_cases he with ⟨cut, hc, rfl, -⟩ | ⟨cut, rfl, rfl⟩
    · exact (hr.runsOut front cut value htaken hc).bind next
    · exact htaken.runsOut_bind ((hn value).runsOut cut back result htail hb)

theorem selfDelimiting_byte : byte.SelfDelimiting where
  isLocal := local_byte
  runsOut := by
    intro front back value ht hb
    have he := takes_byte_iff.mp ht
    cases front with
    | nil => exact fun offset => ⟨.unexpectedEnd, ⟨offset, []⟩, rfl, rfl⟩
    | cons first front =>
      rw [List.cons_append, List.cons.injEq] at he
      exact absurd (List.append_eq_nil_iff.mp he.2).2 hb

theorem selfDelimiting_bytes (count : Nat) : (bytes count).SelfDelimiting where
  isLocal := local_bytes count
  runsOut := by
    intro front back value ht hb offset
    obtain ⟨rfl, hl⟩ := takes_bytes_iff.mp ht
    have hpos := List.length_pos_iff.mpr hb
    have hh : ¬ Cursor.hasAtLeast ⟨offset, front⟩ count = true := by
      rw [List.length_append] at hl
      rw [hasAtLeast_iff]
      dsimp only
      omega
    exact ⟨.unexpectedEnd, ⟨offset, front⟩, by rw [bytes, if_neg hh], rfl⟩

end Read

namespace Leb128

theorem unsignedGroups_cut {room offset value : Nat} {front back : List UInt8}
    (h : Unsigned room (front ++ back) value) (hb : back ≠ []) :
    unsignedGroups room offset front =
      (.error .unexpectedEnd, ⟨offset + front.length, []⟩) := by
  induction front generalizing room offset value with
  | nil => rfl
  | cons byte front ih =>
    obtain ⟨hr, hc, high, rfl, hu⟩ := h.tail (List.append_ne_nil_of_right_ne_nil front hb)
    have hf := h.fits
    have hle : ¬ 2 ^ room ≤ payload byte := by omega
    have hs : ¬ room ≤ 7 := by omega
    rw [unsignedGroups, Nat.one_shiftLeft, if_neg hle]
    simp only [hc, hs, Bool.not_true, Bool.false_eq_true, if_false, ih hu, List.length_cons]
    rw [Nat.add_assoc, Nat.add_comm 1]

theorem signedGroups_cut {room offset : Nat} {value : Int} {front back : List UInt8}
    (h : Signed room (front ++ back) value) (hb : back ≠ []) :
    signedGroups room offset front =
      (.error .unexpectedEnd, ⟨offset + front.length, []⟩) := by
  induction front generalizing room offset value with
  | nil => rfl
  | cons byte front ih =>
    obtain ⟨hr, hc, high, rfl, hu⟩ := h.tail (List.append_ne_nil_of_right_ne_nil front hb)
    have hf : signFits room (payload byte) = true := (signFits_iff (payload_lt byte)).mpr (.inl hr)
    have hs : ¬ room ≤ 7 := by omega
    simp only [signedGroups, hf, hc, hs, Bool.not_true, Bool.false_eq_true, if_false, ih hu,
      List.length_cons]
    rw [Nat.add_assoc, Nat.add_comm 1]

theorem selfDelimiting_readUnsigned (width : Nat) : (readUnsigned width).SelfDelimiting where
  isLocal := local_readUnsigned width
  runsOut := by
    intro front back value ht hb offset
    by_cases hw : widthSupported width = true
    · have hu := (takes_readUnsigned_iff hw).mp ht
      refine ⟨.unexpectedEnd, ⟨offset + front.length, []⟩, ?_, rfl⟩
      rw [readUnsigned_eq hw]
      exact unsignedGroups_cut hu hb
    · have hread := ht 0 []
      rw [readUnsigned, if_neg hw] at hread
      cases hread

theorem selfDelimiting_readSigned (width : Nat) : (readSigned width).SelfDelimiting where
  isLocal := local_readSigned width
  runsOut := by
    intro front back value ht hb offset
    by_cases hw : widthSupported width = true
    · have hs := (takes_readSigned_iff hw).mp ht
      refine ⟨.unexpectedEnd, ⟨offset + front.length, []⟩, ?_, rfl⟩
      rw [readSigned_eq hw]
      exact signedGroups_cut hs hb
    · have hread := ht 0 []
      rw [readSigned, if_neg hw] at hread
      cases hread

end Leb128

/-! ## Operands -/

namespace Read

theorem selfDelimiting_index : index.SelfDelimiting :=
  (Leb128.selfDelimiting_readUnsigned 32).bind fun _ => selfDelimiting_pure _

theorem selfDelimiting_times {α : Type} {item : Read α} (hi : item.SelfDelimiting) (count : Nat) :
    (times item count).SelfDelimiting := by
  induction count with
  | zero => exact selfDelimiting_pure []
  | succ count ih =>
    rw [times_succ]
    exact hi.bind fun _ => ih.bind fun _ => selfDelimiting_pure _

/-- A length without all of its items is noticed at once if there are fewer bytes than items, and
otherwise at the item that is cut. -/
theorem indices_cut {front items : List UInt8} {values : List UInt32}
    (hf : (Leb128.readUnsigned 32).Takes front values.length)
    (hi : (times index values.length).RunsOut items)
    (hm : values.length ≤ maxBranchTargets) : indices.RunsOut (front ++ items) := by
  intro offset
  rw [indices_apply, hf offset items]
  dsimp only
  rw [if_neg (Nat.not_lt.mpr hm)]
  split
  · exact hi _
  · exact ⟨_, _, rfl, rfl⟩

theorem selfDelimiting_indices : indices.SelfDelimiting where
  isLocal := codec_indices.isLocal
  runsOut := by
    intro front back values ht hb
    have hu := Leb128.selfDelimiting_readUnsigned 32
    have hitems := selfDelimiting_times selfDelimiting_index values.length
    obtain ⟨length, items, he, hl, hi, hm⟩ := takes_indices ht
    rcases cut_cases he with ⟨cut, hc, rfl, -⟩ | ⟨cut, rfl, rfl⟩
    · intro offset
      obtain ⟨cause, left, hr, hs⟩ := hu.runsOut front cut _ hl hc offset
      refine ⟨cause, left, ?_, hs⟩
      rw [indices_apply, hr]
    · exact indices_cut hl (hitems.runsOut cut back values hi hb) hm

theorem selfDelimiting_blockType : blockType.SelfDelimiting := by
  refine (Leb128.selfDelimiting_readSigned 33).bind fun code => ?_
  cases BlockType.ofCode? code with
  | none => exact selfDelimiting_fail _
  | some type => exact selfDelimiting_pure type

theorem selfDelimiting_reserved (use : ReservedUse) : (reserved use).SelfDelimiting := by
  refine selfDelimiting_byte.bind fun value => ?_
  by_cases hv : value = 0
  · rw [if_pos hv]
    exact selfDelimiting_pure ()
  · rw [if_neg hv]
    exact selfDelimiting_fail _

theorem selfDelimiting_memArg : memArg.SelfDelimiting :=
  selfDelimiting_index.bind fun _ => selfDelimiting_index.bind fun _ => selfDelimiting_pure _

theorem selfDelimiting_read32 : Word.read32.SelfDelimiting :=
  (selfDelimiting_bytes 4).bind fun _ => selfDelimiting_pure _

theorem selfDelimiting_read64 : Word.read64.SelfDelimiting :=
  (selfDelimiting_bytes 8).bind fun _ => selfDelimiting_pure _

theorem selfDelimiting_constant (type : ValueType) : (constant type).SelfDelimiting := by
  have hs (width : Nat) {α β : Type} (ofInt : Int → α) (make : α → β) :
      ((Leb128.readSigned width >>= fun read => pure (ofInt read)) >>= fun value =>
        pure (make value)).SelfDelimiting :=
    ((Leb128.selfDelimiting_readSigned width).bind fun _ => selfDelimiting_pure _).bind fun _ =>
      selfDelimiting_pure _
  cases type with
  | i32 => exact hs 32 _ _
  | i64 => exact hs 64 _ _
  | f32 => exact selfDelimiting_read32.bind fun _ => selfDelimiting_pure _
  | f64 => exact selfDelimiting_read64.bind fun _ => selfDelimiting_pure _

end Read

open Read in
theorem selfDelimiting_readOperands (op : Operator) : op.readOperands.SelfDelimiting := by
  cases op with
  | unreachable | nop | ret | otherwise | close | parametric op | numeric op =>
    exact selfDelimiting_pure _
  | enter kind => exact selfDelimiting_blockType.bind fun _ => selfDelimiting_pure _
  | br | brIf | call => exact selfDelimiting_index.bind fun _ => selfDelimiting_pure _
  | «variable» op => exact selfDelimiting_index.bind fun _ => selfDelimiting_pure _
  | brTable =>
    exact selfDelimiting_indices.bind fun _ => selfDelimiting_index.bind fun _ =>
      selfDelimiting_pure _
  | callIndirect =>
    exact selfDelimiting_index.bind fun _ => (selfDelimiting_reserved _).bind fun _ =>
      selfDelimiting_pure _
  | memory op => exact selfDelimiting_memArg.bind fun _ => selfDelimiting_pure _
  | memorySize op => exact (selfDelimiting_reserved _).bind fun _ => selfDelimiting_pure _
  | const type => exact (selfDelimiting_constant type).bind fun _ => selfDelimiting_pure _

/-! ## Bodies -/

/-- Only the operands can be cut: the control state is not asked before all of them are there. -/
theorem Decoder.instruction_cut {instruction : Instruction} {opcode : UInt8}
    {front back : List UInt8} (hs : instruction.Spelled (opcode :: (front ++ back)))
    (hb : back ≠ []) (index offset : Nat) (control : Control) :
    ∃ cause left, Decoder.instruction opcode index ⟨⟨offset, front⟩, control⟩ =
      (.error (.malformed cause), ⟨left, control⟩) ∧ cause.isShortage = true := by
  obtain ⟨operands, he, ht⟩ := hs
  rw [List.cons.injEq] at he
  obtain ⟨rfl, rfl⟩ := he
  obtain ⟨cause, left, hr, hc⟩ :=
    (selfDelimiting_readOperands _).runsOut front back instruction ht hb offset
  refine ⟨cause, left, ?_, hc⟩
  simp only [Decoder.instruction_opcode, Decoder.operands, hr]

namespace Scan

/-- The scan comes to an error that says the input ended too early. -/
def EndsShort (outcome : Except DecodeError Bool × Scan) : Prop :=
  ∃ cause final, outcome = (.error (.malformed cause), final) ∧ cause.isShortage = true

theorem run_nil {mode : BodyMode} {begin rounds offset : Nat} {control : Control}
    {instructions : Array Placed} (hs : offset - begin ≤ maxBodySize) :
    EndsShort (run mode begin rounds ⟨⟨offset, []⟩, control, instructions⟩) := by
  have ht : tooLarge begin ⟨⟨offset, []⟩, control, instructions⟩ = false := by
    simpa [tooLarge] using hs
  refine ⟨.blocksLeftOpen control.openCount, ⟨⟨offset, []⟩, control, instructions⟩, ?_, rfl⟩
  unfold run
  rw [if_neg (by rw [ht]; exact Bool.false_ne_true)]
  cases rounds <;> rfl

/-- A scan whose rounds are used up says the same as one whose input is. -/
theorem run_zero {mode : BodyMode} {begin : Nat} {scan : Scan}
    (hs : scan.cursor.offset - begin ≤ maxBodySize) : EndsShort (run mode begin 0 scan) := by
  have ht : scan.tooLarge begin = false := by simpa [tooLarge] using hs
  refine ⟨.blocksLeftOpen scan.control.openCount, scan, ?_, rfl⟩
  unfold run
  rw [if_neg (by rw [ht]; exact Bool.false_ne_true)]

/-- A chunk that is cut ends the scan. -/
theorem run_chunk_cut {mode : BodyMode} {begin rounds offset : Nat} {chunk : Chunk}
    {front back : List UInt8} {control next : Control} {instructions : Array Placed}
    (he : chunk.bytes = front ++ back) (hb : back ≠ []) (hs : offset - begin ≤ maxBodySize)
    (hst : control.Step instructions.size chunk.labelled next) :
    EndsShort (run mode begin (rounds + 1) ⟨⟨offset, front⟩, control, instructions⟩) := by
  obtain ⟨labelled, bytes, hsp⟩ := chunk
  dsimp only at he hst
  subst he
  cases front with
  | nil => exact run_nil hs
  | cons opcode front =>
    have hopcode : opcode = labelled.instruction.operator.opcode := by
      obtain ⟨operands, he, -⟩ := hsp
      exact (List.cons.inj he).1
    have hne : ¬ (mode = .segment ∧ opcode = Operator.otherwise.opcode ∧
        control.isEmpty = true) := by
      rintro ⟨-, ho, hc⟩
      rw [step_opcode_else hst (hopcode ▸ ho)] at hc
      cases hc
    have ht : tooLarge begin ⟨⟨offset, opcode :: front⟩, control, instructions⟩ = false := by
      simpa [tooLarge] using hs
    obtain ⟨cause, left, hd, hc⟩ :=
      Decoder.instruction_cut hsp hb instructions.size (offset + 1) control
    refine ⟨cause, ⟨left, control, instructions⟩, ?_, hc⟩
    rw [run]
    simp only [ht, Bool.false_eq_true, if_false, hne, hd]

/-- A scan that is cut anywhere before its end ends short. Up to the cut it goes as it does on the
whole input. -/
theorem run_cut {mode : BodyMode} {begin rounds offset : Nat} {chunks : List Chunk}
    {front back : List UInt8} {control final : Control} {instructions : Array Placed}
    {elseTerminated : Bool}
    (he : Chunk.input chunks ++ terminator elseTerminated = front ++ back) (hb : back ≠ [])
    (hfol : Control.Follows instructions.size control (Chunk.code chunks) final)
    (hfin : Finished mode elseTerminated (Chunk.code chunks) final)
    (hsize : offset + (front ++ back).length - begin ≤ maxBodySize + 1) :
    EndsShort (run mode begin rounds ⟨⟨offset, front⟩, control, instructions⟩) := by
  have hpos := List.length_pos_iff.mpr hb
  have hs : offset - begin ≤ maxBodySize := by
    rw [List.length_append] at hsize
    omega
  induction chunks generalizing rounds offset front control instructions with
  | nil =>
    -- one byte at most is there, the else that ends a segment, and it is behind the cut
    have hl : (terminator elseTerminated).length ≤ 1 := by cases elseTerminated <;> decide
    have hlen := congrArg List.length he
    rw [Chunk.input, List.flatMap_nil, List.nil_append, List.length_append] at hlen
    obtain rfl : front = [] := List.length_eq_zero_iff.mp (by omega)
    exact run_nil hs
  | cons chunk chunks ih =>
    obtain ⟨next, hst, hfol⟩ := hfol
    have hinput : Chunk.input (chunk :: chunks) = chunk.bytes ++ Chunk.input chunks := rfl
    rw [hinput, List.append_assoc] at he
    cases rounds with
    | zero => exact run_zero hs
    | succ rounds =>
      rcases cut_cases he.symm with ⟨cut, hc, hcut, -⟩ | ⟨tail, rfl, htail⟩
      · exact run_chunk_cut hcut hc hs hst
      rw [run_chunk hs hst]
      split
      · next hlast =>
        rw [Chunk.code, List.map_cons, hlast] at hfin
        obtain ⟨rfl, hnil⟩ := finished_close hfin
        obtain rfl := List.map_eq_nil_iff.mp hnil
        exact absurd (List.append_eq_nil_iff.mp htail.symm).2 hb
      · next hgo =>
        have hlen : offset + chunk.bytes.length + (tail ++ back).length - begin ≤
            maxBodySize + 1 := by
          simp only [List.length_append] at hsize ⊢
          omega
        refine ih htail ?_ ((finished_cons hgo).mp hfin) hlen ?_
        · rwa [Array.size_push]
        · rw [List.length_append] at hlen
          omega

end Scan

namespace Body

/-- A function body that is read, as a scan sees it. -/
theorem exists_scanned {bytes : List UInt8} {params : UInt32} {body : Body}
    (h : decode bytes params = .ok body) :
    ∃ chunks control, bytes = Chunk.input chunks ++ terminator false ∧
      Control.Follows 0 .empty (Chunk.code chunks) control ∧
      Finished .function false (Chunk.code chunks) control ∧ bytes.length ≤ maxBodySize + 1 := by
  obtain ⟨-, -, chunks, control, front, he, hfol, hcode, hn, hsize, -, -⟩ := decode_ok_iff.mp h
  refine ⟨chunks, control, ?_, hfol, ⟨front, hcode, hn⟩, hsize⟩
  rw [he, terminator, if_neg Bool.false_ne_true, List.append_nil]

theorem decode_cut {bytes front back : List UInt8} {params : UInt32} {body : Body}
    (h : decode bytes params = .ok body) (he : bytes = front ++ back) (hb : back ≠ []) :
    ∃ cause, decode front params = .error (.malformed cause) ∧ cause.isShortage = true := by
  obtain ⟨chunks, control, hin, hfol, hfin, hsize⟩ := exists_scanned h
  rw [he] at hsize
  have hshort : Scan.EndsShort (scan .function (.ofBytes front)) :=
    Scan.run_cut (hin.symm.trans he) hb hfol hfin (by simpa [Cursor.ofBytes] using hsize)
  obtain ⟨cause, final, hscan, hc⟩ := hshort
  refine ⟨cause, ?_, hc⟩
  rw [decode, read, hscan]

theorem decode_append {bytes extra : List UInt8} {params : UInt32} {body : Body}
    (h : decode bytes params = .ok body) (hx : extra ≠ []) :
    decode (bytes ++ extra) params = .error (.malformed (.trailingBytes extra.length)) := by
  obtain ⟨chunks, control, rfl, hfol, hfin, hsize⟩ := exists_scanned h
  have hrest : BodyMode.function = .function ∧ (!extra.isEmpty) = true := by simp [hx]
  rw [decode, read, Cursor.ofBytes, scan_complete hfol hfin hsize]
  dsimp only
  rw [ofScan, if_pos hrest]
  rfl

/-- A function body ends where its bytes say that it ends. Of the bytes of a function, no strict
front part is a function: reading it fails for want of input. And no longer input is the function:
the bytes that follow are reported, by their number. -/
theorem decode_selfDelimiting {bytes : List UInt8} {params : UInt32} {body : Body}
    (h : decode bytes params = .ok body) :
    (∀ front, front <+: bytes → front ≠ bytes →
        ∃ cause, decode front params = .error (.malformed cause) ∧ cause.isShortage = true) ∧
      ∀ extra, extra ≠ [] →
        decode (bytes ++ extra) params = .error (.malformed (.trailingBytes extra.length)) ∧
          (Malformed.trailingBytes extra.length).message =
            toString extra.length ++ " trailing byte(s) after end of function" := by
  constructor
  · intro front hfront hne
    obtain ⟨back, rfl⟩ := hfront
    have hb : back ≠ [] := by
      intro hnil
      rw [hnil, List.append_nil] at hne
      exact hne rfl
    exact decode_cut h rfl hb
  · intro extra hx
    exact ⟨decode_append h hx, rfl⟩

/-- In this function the cut may fall behind the branch table or into it: into its count, its
entry or its default, which take two bytes each. -/
theorem decode_selfDelimiting_table :
    (∃ body, decode [0x02, 0x40, 0x0E, 0x81, 0x00, 0x80, 0x00, 0x80, 0x00, 0x0B, 0x0B] 0 =
        .ok body) ∧
      (∃ cause, decode [0x02, 0x40, 0x0E, 0x81, 0x00, 0x80, 0x00, 0x80] 0 =
        .error (.malformed cause) ∧ cause.isShortage = true) ∧
      decode [0x02, 0x40, 0x0E, 0x81, 0x00, 0x80, 0x00, 0x80, 0x00, 0x0B, 0x0B, 0xFF, 0x0B] 0 =
        .error (.malformed (.trailingBytes 2)) := by
  have h : decode [0x02, 0x40, 0x0E, 0x81, 0x00, 0x80, 0x00, 0x80, 0x00, 0x0B, 0x0B] 0 = .ok
      ⟨#[⟨.enter .block .empty 0, 0, 2⟩, ⟨.brTable [⟨0, 0⟩] ⟨0, 0⟩, 2, 7⟩, ⟨.close (some 0), 9, 1⟩,
          ⟨.close none, 10, 1⟩],
        #[⟨.block, .empty, 0, none, some 2⟩], 0, false⟩ := by
    decide +kernel
  refine ⟨⟨_, h⟩, ?_, ?_⟩
  · exact (decode_selfDelimiting h).1 _ (by decide) (by decide)
  · exact ((decode_selfDelimiting h).2 [0xFF, 0x0B] (by decide)).1

end Body

end FlatWasm
