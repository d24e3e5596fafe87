import FlatWasm.Instruction.Read
import FlatWasm.Proofs.Leb128
import FlatWasm.Proofs.Operators

/-!
# Operands read and written

A reader and a writer are a codec when the reader takes what the writer gives, and when every
other stretch of bytes that it takes for a value is longer than what the writer gives for that
value. Codecs are put together along the readers, up to the operands of each operator.

A branch table has a limit on its length. It is the only instruction that has a written form which
cannot be read back.
-/

namespace FlatWasm

namespace Read

variable {α β γ : Type}

structure Codec (reader : Read α) (valid : α → Prop) (encode : α → List UInt8) : Prop where
  isLocal : reader.Local
  complete : ∀ value, valid value → reader.Takes (encode value) value
  sound : ∀ taken value, reader.Takes taken value → valid value ∧ Shortens (encode value) taken

namespace Codec

theorem map {reader : Read α} {valid : α → Prop} {encode : α → List UInt8}
    (hc : Codec reader valid encode) (make : α → β) {valid' : β → Prop}
    {encode' : β → List UInt8}
    (hv : ∀ result, valid' result ↔ ∃ value, valid value ∧ make value = result)
    (he : ∀ value, valid value → encode' (make value) = encode value) :
    Codec (reader >>= fun value => pure (make value)) valid' encode' where
  isLocal := hc.isLocal.bind fun _ => local_pure _
  complete := by
    intro result hr
    obtain ⟨value, hval, rfl⟩ := (hv result).mp hr
    have ht : (reader >>= fun value => pure (make value)).Takes (encode value ++ []) (make value) :=
      (hc.complete value hval).bind (takes_pure _)
    rwa [List.append_nil, ← he value hval] at ht
  sound := by
    intro taken result ht
    obtain ⟨front, back, value, rfl, hf, hb⟩ :=
      (takes_bind_iff hc.isLocal fun _ => local_pure _).mp ht
    obtain ⟨rfl, rfl⟩ := takes_pure_iff.mp hb
    obtain ⟨hval, hs⟩ := hc.sound front value hf
    rw [he value hval, List.append_nil]
    exact ⟨(hv _).mpr ⟨value, hval, rfl⟩, hs⟩

theorem seq {first : Read α} {second : Read β} {valid₁ : α → Prop} {valid₂ : β → Prop}
    {encode₁ : α → List UInt8} {encode₂ : β → List UInt8} (h₁ : Codec first valid₁ encode₁)
    (h₂ : Codec second valid₂ encode₂) (make : α → β → γ) {valid : γ → Prop}
    {encode : γ → List UInt8}
    (hv : ∀ result, valid result ↔ ∃ a b, valid₁ a ∧ valid₂ b ∧ make a b = result)
    (he : ∀ a b, valid₁ a → valid₂ b → encode (make a b) = encode₁ a ++ encode₂ b) :
    Codec (first >>= fun a => second >>= fun b => pure (make a b)) valid encode := by
  have hl (a : α) : (second >>= fun b => pure (make a b)).Local :=
    h₂.isLocal.bind fun _ => local_pure _
  refine ⟨h₁.isLocal.bind hl, ?_, ?_⟩
  · intro result hr
    obtain ⟨a, b, ha, hb, rfl⟩ := (hv result).mp hr
    have hs : (second >>= fun b => pure (make a b)).Takes (encode₂ b ++ []) (make a b) :=
      (h₂.complete b hb).bind (takes_pure _)
    rw [List.append_nil] at hs
    rw [he a b ha hb]
    exact (takes_bind_iff h₁.isLocal hl).mpr ⟨_, _, a, rfl, h₁.complete a ha, hs⟩
  · intro taken result ht
    obtain ⟨front, back, a, rfl, hf, hb⟩ := (takes_bind_iff h₁.isLocal hl).mp ht
    obtain ⟨middle, last, b, rfl, hm, hp⟩ :=
      (takes_bind_iff h₂.isLocal fun _ => local_pure _).mp hb
    obtain ⟨rfl, rfl⟩ := takes_pure_iff.mp hp
    obtain ⟨ha, hsa⟩ := h₁.sound front a hf
    obtain ⟨hb, hsb⟩ := h₂.sound middle b hm
    rw [he a b ha hb, List.append_nil]
    exact ⟨(hv _).mpr ⟨a, b, ha, hb, rfl⟩, hsa.append hsb⟩

theorem constantly (value : α) {valid : α → Prop} {encode : α → List UInt8}
    (hv : ∀ result, valid result ↔ result = value) (he : encode value = []) :
    Codec (pure value) valid encode where
  isLocal := local_pure value
  complete := by
    intro result hr
    obtain rfl := (hv result).mp hr
    rw [he]
    exact takes_pure result
  sound := by
    intro taken result ht
    obtain ⟨rfl, rfl⟩ := takes_pure_iff.mp ht
    rw [he]
    exact ⟨(hv _).mpr rfl, Shortens.refl _⟩

end Codec

/-! ## Numbers -/

theorem codec_readUnsigned {width : Nat} (hw : Leb128.widthSupported width = true) :
    Codec (Leb128.readUnsigned width) (· < 2 ^ width) Leb128.encodeUnsigned where
  isLocal := Leb128.local_readUnsigned width
  complete := by
    intro value hv
    exact (Leb128.takes_readUnsigned_iff hw).mpr (Leb128.encodeUnsigned_spec (Leb128.width_pos hw) hv)
  sound := by
    intro taken value ht
    have hu := (Leb128.takes_readUnsigned_iff hw).mp ht
    exact ⟨hu.fits, hu.shortens⟩

theorem codec_readSigned {width : Nat} (hw : Leb128.widthSupported width = true) :
    Codec (Leb128.readSigned width) (fun value => -2 ^ (width - 1) ≤ value ∧ value < 2 ^ (width - 1))
      Leb128.encodeSigned where
  isLocal := Leb128.local_readSigned width
  complete := by
    rintro value ⟨hl, hu⟩
    exact (Leb128.takes_readSigned_iff hw).mpr
      (Leb128.encodeSigned_spec (Leb128.width_pos hw) hl hu)
  sound := by
    intro taken value ht
    have hs := (Leb128.takes_readSigned_iff hw).mp ht
    exact ⟨⟨hs.least, hs.greatest⟩, hs.shortens⟩

theorem codec_index : Codec index (fun _ => True) encodeIndex := by
  refine (codec_readUnsigned (by decide : Leb128.widthSupported 32 = true)).map UInt32.ofNat ?_ ?_
  · intro result
    simp only [true_iff]
    exact ⟨result.toNat, result.toNat_lt, UInt32.ofNat_toNat⟩
  · intro value hv
    rw [encodeIndex, UInt32.toNat_ofNat_of_lt' hv]

theorem codec_readInt32 :
    Codec Leb128.readInt32 (fun _ => True) fun value => Leb128.encodeSigned value.toInt := by
  refine (codec_readSigned (by decide : Leb128.widthSupported 32 = true)).map Int32.ofInt ?_ ?_
  · intro result
    simp only [true_iff]
    exact ⟨result.toInt, ⟨result.le_toInt, result.toInt_lt⟩, Int32.ofInt_toInt result⟩
  · rintro value ⟨hl, hu⟩
    rw [Int32.toInt_ofInt_of_le hl hu]

theorem codec_readInt64 :
    Codec Leb128.readInt64 (fun _ => True) fun value => Leb128.encodeSigned value.toInt := by
  refine (codec_readSigned (by decide : Leb128.widthSupported 64 = true)).map Int64.ofInt ?_ ?_
  · intro result
    simp only [true_iff]
    exact ⟨result.toInt, ⟨result.le_toInt, result.toInt_lt⟩, Int64.ofInt_toInt result⟩
  · rintro value ⟨hl, hu⟩
    rw [Int64.toInt_ofInt_of_le hl hu]

/-! ## Words -/

end Read

namespace Word

theorem littleEndian_length (count value : Nat) : (littleEndian count value).length = count := by
  induction count generalizing value with
  | zero => rfl
  | succ count ih => rw [littleEndian, List.length_cons, ih]

theorem littleEndian_ofLittleEndian (bytes : List UInt8) :
    littleEndian bytes.length (ofLittleEndian bytes) = bytes := by
  induction bytes with
  | nil => rfl
  | cons byte rest ih =>
    have hb := byte.toNat_lt
    have hd : (byte.toNat + 256 * ofLittleEndian rest) / 256 = ofLittleEndian rest := by omega
    have ho : UInt8.ofNat (byte.toNat + 256 * ofLittleEndian rest) = byte := by
      apply UInt8.toNat_inj.mp
      rw [UInt8.toNat_ofNat']
      omega
    rw [List.length_cons, ofLittleEndian, littleEndian, hd, ho, ih]

theorem ofLittleEndian_lt (bytes : List UInt8) : ofLittleEndian bytes < 256 ^ bytes.length := by
  induction bytes with
  | nil => simp [ofLittleEndian]
  | cons byte rest ih =>
    have hb := byte.toNat_lt
    rw [ofLittleEndian, List.length_cons, Nat.pow_succ]
    omega

theorem ofLittleEndian_littleEndian {count value : Nat} (h : value < 256 ^ count) :
    ofLittleEndian (littleEndian count value) = value := by
  induction count generalizing value with
  | zero =>
    rw [Nat.pow_zero] at h
    rw [littleEndian, ofLittleEndian]
    omega
  | succ count ih =>
    rw [Nat.pow_succ] at h
    rw [littleEndian, ofLittleEndian, UInt8.toNat_ofNat', ih (by omega)]
    omega

end Word

namespace Read

theorem codec_bytes (count : Nat) : Codec (bytes count) (·.length = count) id where
  isLocal := local_bytes count
  complete := by
    intro value hv
    exact takes_bytes_iff.mpr ⟨rfl, hv⟩
  sound := by
    intro taken value ht
    obtain ⟨rfl, hl⟩ := takes_bytes_iff.mp ht
    exact ⟨hl, Shortens.refl _⟩

theorem codec_read32 : Codec Word.read32 (fun _ => True) Word.encode32 := by
  refine (codec_bytes 4).map (fun bytes => UInt32.ofNat (Word.ofLittleEndian bytes)) ?_ ?_
  · intro result
    simp only [true_iff]
    refine ⟨Word.littleEndian 4 result.toNat, Word.littleEndian_length 4 _, ?_⟩
    rw [Word.ofLittleEndian_littleEndian result.toNat_lt, UInt32.ofNat_toNat]
  · intro bytes hl
    have hb := Word.ofLittleEndian_lt bytes
    rw [hl] at hb
    have hw := Word.littleEndian_ofLittleEndian bytes
    rw [hl] at hw
    rw [Word.encode32, UInt32.toNat_ofNat_of_lt' hb, hw, id]

theorem codec_read64 : Codec Word.read64 (fun _ => True) Word.encode64 := by
  refine (codec_bytes 8).map (fun bytes => UInt64.ofNat (Word.ofLittleEndian bytes)) ?_ ?_
  · intro result
    simp only [true_iff]
    refine ⟨Word.littleEndian 8 result.toNat, Word.littleEndian_length 8 _, ?_⟩
    rw [Word.ofLittleEndian_littleEndian result.toNat_lt, UInt64.ofNat_toNat]
  · intro bytes hl
    have hb := Word.ofLittleEndian_lt bytes
    rw [hl] at hb
    have hw := Word.littleEndian_ofLittleEndian bytes
    rw [hl] at hw
    rw [Word.encode64, UInt64.toNat_ofNat_of_lt' hb, hw, id]

end Read

/-! ## Block types, memory arguments, reserved bytes and constants -/

theorem BlockType.ofCode?_of_nonneg {code : Int} (h : 0 ≤ code) :
    ofCode? code = some (.index (UInt32.ofNat code.toNat)) := by
  have hne : ∀ negative < (0 : Int), code ≠ negative := by omega
  rw [ofCode?, if_neg (hne _ (by decide)), if_neg (hne _ (by decide)), if_neg (hne _ (by decide)),
    if_neg (hne _ (by decide)), if_neg (hne _ (by decide)), if_pos h]

theorem BlockType.ofCode?_code (type : BlockType) : ofCode? type.code = some type := by
  cases type with
  | empty => rfl
  | value type => cases type <;> rfl
  | index type =>
    rw [code, ofCode?_of_nonneg (Int.natCast_nonneg _), Int.toNat_natCast, UInt32.ofNat_toNat]

theorem BlockType.code_of_ofCode? {code : Int} {type : BlockType} (hc : code < 2 ^ (33 - 1))
    (h : ofCode? code = some type) : type.code = code := by
  rw [ofCode?] at h
  split_ifs at h with hempty hi32 hi64 hf32 hf64 hindex
  · exact Option.some.inj h ▸ hempty.symm
  · exact Option.some.inj h ▸ hi32.symm
  · exact Option.some.inj h ▸ hi64.symm
  · exact Option.some.inj h ▸ hf32.symm
  · exact Option.some.inj h ▸ hf64.symm
  · have hn : code.toNat < UInt32.size := by
      rw [UInt32.size]
      omega
    cases h
    rw [BlockType.code, UInt32.toNat_ofNat_of_lt' hn]
    exact Int.toNat_of_nonneg hindex

theorem BlockType.code_bounds (type : BlockType) :
    -2 ^ (33 - 1) ≤ type.code ∧ type.code < 2 ^ (33 - 1) := by
  cases type with
  | empty => decide
  | value type => cases type <;> decide
  | index type =>
    have ht := type.toNat_lt
    rw [code]
    omega

namespace Read

theorem local_orFail (cause : Malformed) (value : Option α) : Local (orFail cause value) := by
  cases value with
  | none => exact local_fail cause
  | some value => exact local_pure value

theorem codec_blockType : Codec blockType (fun _ => True) BlockType.encode := by
  have hs := codec_readSigned (by decide : Leb128.widthSupported 33 = true)
  have hl (code : Int) := local_orFail (.invalidBlockType code) (BlockType.ofCode? code)
  refine ⟨hs.isLocal.bind hl, ?_, ?_⟩
  · intro type _
    refine (takes_bind_iff hs.isLocal hl).mpr ⟨type.encode, [], type.code, (List.append_nil _).symm,
      hs.complete _ type.code_bounds, ?_⟩
    rw [BlockType.ofCode?_code]
    exact takes_pure type
  · intro taken type ht
    obtain ⟨front, back, code, rfl, hf, hb⟩ := (takes_bind_iff hs.isLocal hl).mp ht
    refine ⟨trivial, ?_⟩
    cases hc : BlockType.ofCode? code with
    | none => exact absurd (hc ▸ hb) takes_fail_iff
    | some found =>
      rw [hc] at hb
      obtain ⟨rfl, rfl⟩ := takes_pure_iff.mp hb
      obtain ⟨⟨-, hmost⟩, hshort⟩ := hs.sound front code hf
      rw [BlockType.encode, BlockType.code_of_ofCode? hmost hc, List.append_nil]
      exact hshort

theorem codec_memArg :
    Codec memArg (fun _ => True) fun arg => encodeIndex arg.align ++ encodeIndex arg.offset := by
  refine codec_index.seq codec_index MemArg.mk ?_ fun _ _ _ _ => rfl
  intro arg
  simp only [true_and, true_iff]
  exact ⟨arg.align, arg.offset, rfl⟩

theorem codec_reserved (use : ReservedUse) : Codec (reserved use) (fun _ => True) fun _ => [0] := by
  have hl (value : UInt8) :
      Local (if value = 0 then pure () else fail (.reservedByte use value)) := by
    by_cases hv : value = 0
    · rw [if_pos hv]
      exact local_pure ()
    · rw [if_neg hv]
      exact local_fail _
  refine ⟨local_byte.bind hl, ?_, ?_⟩
  · intro result _
    refine (takes_bind_iff local_byte hl).mpr ⟨[0], [], 0, rfl, takes_byte 0, ?_⟩
    exact takes_pure result
  · intro taken result ht
    obtain ⟨front, back, value, rfl, hf, hb⟩ := (takes_bind_iff local_byte hl).mp ht
    refine ⟨trivial, ?_⟩
    by_cases hv : value = 0
    · rw [if_pos hv, takes_pure_iff] at hb
      rw [hb.1, takes_byte_iff.mp hf, hv]
      exact Shortens.refl _
    · rw [if_neg hv] at hb
      exact absurd hb takes_fail_iff

theorem codec_constant (type : ValueType) :
    Codec (constant type) (·.type = type) Constant.encode := by
  cases type with
  | i32 =>
    refine codec_readInt32.map Constant.i32 (fun result => ?_) fun _ _ => rfl
    cases result <;> simp [Constant.type]
  | i64 =>
    refine codec_readInt64.map Constant.i64 (fun result => ?_) fun _ _ => rfl
    cases result <;> simp [Constant.type]
  | f32 =>
    refine codec_read32.map Constant.f32 (fun result => ?_) fun _ _ => rfl
    cases result <;> simp [Constant.type]
  | f64 =>
    refine codec_read64.map Constant.f64 (fun result => ?_) fun _ _ => rfl
    cases result <;> simp [Constant.type]

/-! ## Repetition -/

section times

variable {α : Type} {item : Read α}

theorem timesAfter_succ (count : Nat) (done : List α) :
    timesAfter item (count + 1) done =
      item >>= fun value => timesAfter item count (value :: done) := by
  funext cursor
  rcases hi : item cursor with ⟨_ | _, _⟩
  · rw [bind_apply, hi, timesAfter, hi]
  · rw [bind_apply, hi, timesAfter, hi]

theorem timesAfter_eq (count : Nat) (done : List α) :
    timesAfter item count done = times item count >>= fun values => pure (done.reverse ++ values) := by
  induction count generalizing done with
  | zero =>
    funext cursor
    rw [bind_apply]
    simp [times, timesAfter, pure_apply]
  | succ count ih =>
    rw [times, timesAfter_succ, timesAfter_succ]
    simp only [ih (_ :: done), ih [_], bind_assoc, pure_bind, List.reverse_cons, List.reverse_nil,
      List.nil_append, List.append_assoc, List.cons_append]

theorem times_succ (count : Nat) :
    times item (count + 1) =
      item >>= fun value => times item count >>= fun values => pure (value :: values) := by
  rw [times, timesAfter_succ]
  simp only [timesAfter_eq count [_], List.reverse_singleton, List.cons_append, List.nil_append]

theorem codec_times {valid : α → Prop} {encode : α → List UInt8} (hc : Codec item valid encode)
    (count : Nat) :
    Codec (times item count) (fun values => values.length = count ∧ ∀ value ∈ values, valid value)
      fun values => values.flatMap encode := by
  induction count with
  | zero =>
    refine ⟨local_pure [], ?_, ?_⟩
    · rintro values ⟨hl, -⟩
      rw [List.length_eq_zero_iff] at hl
      subst hl
      exact takes_pure []
    · intro taken values ht
      obtain ⟨rfl, rfl⟩ := takes_pure_iff.mp ht
      exact ⟨⟨rfl, by simp⟩, Shortens.refl _⟩
  | succ count ih =>
    rw [times_succ]
    refine hc.seq ih List.cons (fun values => ?_) fun _ _ _ _ => rfl
    cases values with
    | nil => simp
    | cons value values => simp [and_left_comm]

end times

/-! ## Vectors of indices -/

theorem indices_apply (cursor : Cursor) :
    indices cursor =
      match Leb128.readUnsigned 32 cursor with
      | (.ok length, left) =>
        if maxBranchTargets < length then (.error (.vectorTooLong length), left)
        else if left.hasAtLeast length then times index length left
        else (.error (.vectorPastEnd length), left)
      | (.error cause, left) => (.error cause, left) := by
  rw [indices, bind_apply]
  rcases Leb128.readUnsigned 32 cursor with ⟨_ | length, left⟩
  · rfl
  dsimp only
  split
  · rfl
  · rw [bind_apply, hasAtLeast]
    dsimp only
    split <;> rfl

theorem length_le_flatMap_encodeIndex (values : List UInt32) :
    values.length ≤ (values.flatMap encodeIndex).length := by
  induction values with
  | nil => exact Nat.le_refl 0
  | cons value values ih =>
    have hl : 0 < (encodeIndex value).length := by
      rw [encodeIndex, Leb128.encodeUnsigned, Leb128.unsignedBytes_length]
      exact Nat.succ_pos _
    rw [List.flatMap_cons, List.length_append, List.length_cons]
    omega

/-- The length and the items stand one after the other. The look at the rest of the input, which
the reader takes in between, never fails on bytes that hold all the items. -/
theorem indices_of_parts {front back rest : List UInt8} {values : List UInt32} {offset : Nat}
    (hf : (Leb128.readUnsigned 32).Takes front values.length)
    (hb : (times index values.length).Takes back values)
    (hm : values.length ≤ maxBranchTargets) :
    indices ⟨offset, front ++ back ++ rest⟩ =
      (.ok values, ⟨offset + (front ++ back).length, rest⟩) := by
  have hle := ((codec_times codec_index _).sound back values hb).2.length_le
  have hl := length_le_flatMap_encodeIndex values
  have hh : Cursor.hasAtLeast ⟨offset + front.length, back ++ rest⟩ values.length = true := by
    rw [hasAtLeast_iff, List.length_append]
    omega
  rw [indices_apply, List.append_assoc, hf]
  simp only [Nat.not_lt.mpr hm, if_false, hh, if_true]
  rw [hb, List.length_append, Nat.add_assoc]

/-- Indices that are read are a length and so many items, whatever follows them. -/
theorem indices_ok {offset : Nat} {bytes : List UInt8} {values : List UInt32} {left : Cursor}
    (h : indices ⟨offset, bytes⟩ = (.ok values, left)) :
    ∃ front back rest, bytes = front ++ back ++ rest ∧
      left = ⟨offset + (front ++ back).length, rest⟩ ∧
      (Leb128.readUnsigned 32).Takes front values.length ∧
      (times index values.length).Takes back values ∧ values.length ≤ maxBranchTargets := by
  rw [indices_apply] at h
  rcases hr : Leb128.readUnsigned 32 ⟨offset, bytes⟩ with ⟨_ | length, middle⟩ <;> rw [hr] at h
  · cases h
  dsimp only at h
  split at h
  · cases h
  next hm =>
  split at h
  · have ht := codec_times codec_index length
    obtain ⟨front, rest, rfl, rfl, hf⟩ := Leb128.local_readUnsigned 32 _ _ _ _ hr
    obtain ⟨back, rest', rfl, rfl, hb⟩ := ht.isLocal _ _ _ _ h
    obtain ⟨⟨rfl, -⟩, -⟩ := ht.sound back values hb
    refine ⟨front, back, rest', by rw [List.append_assoc], ?_, hf, hb, by omega⟩
    rw [List.length_append, Nat.add_assoc]
  · cases h

theorem takes_indices {taken : List UInt8} {values : List UInt32}
    (h : indices.Takes taken values) :
    ∃ front back, taken = front ++ back ∧ (Leb128.readUnsigned 32).Takes front values.length ∧
      (times index values.length).Takes back values ∧ values.length ≤ maxBranchTargets := by
  obtain ⟨front, back, rest, he, hl, hf, hb, hm⟩ := indices_ok (h 0 [])
  injection hl with _ hl
  subst hl
  rw [List.append_nil, List.append_nil] at he
  exact ⟨front, back, he, hf, hb, hm⟩

/-- The number of items is written as it is, unless there are as many as 32 bits cannot count. -/
theorem encodeIndices_eq {values : List UInt32} (h : values.length < 2 ^ 32) :
    encodeIndices values =
      Leb128.encodeUnsigned values.length ++ values.flatMap encodeIndex := by
  rw [encodeIndices, encodeIndex, UInt32.toNat_ofNat_of_lt' h]

theorem codec_indices : Codec indices (·.length ≤ maxBranchTargets) encodeIndices := by
  have hu := codec_readUnsigned (by decide : Leb128.widthSupported 32 = true)
  have ht := codec_times codec_index
  have hfits : ∀ values : List UInt32, values.length ≤ maxBranchTargets →
      values.length < 2 ^ 32 := by
    intro values hm
    rw [maxBranchTargets] at hm
    omega
  refine ⟨?_, ?_, ?_⟩
  · intro offset bytes values left h
    obtain ⟨front, back, rest, rfl, rfl, hf, hb, hm⟩ := indices_ok h
    exact ⟨front ++ back, rest, rfl, rfl, fun _ _ => indices_of_parts hf hb hm⟩
  · intro values hm offset rest
    rw [encodeIndices_eq (hfits values hm)]
    exact indices_of_parts (hu.complete _ (hfits values hm))
      ((ht _).complete values ⟨rfl, by simp⟩) hm
  · intro taken values h
    obtain ⟨front, back, rfl, hf, hb, hm⟩ := takes_indices h
    rw [encodeIndices_eq (hfits values hm)]
    exact ⟨hm, (hu.sound front _ hf).2.append ((ht _).sound back values hb).2⟩

end Read

/-! ## Instructions -/

/-- The written form can be read back: a branch table keeps to the limit on its length. -/
def Instruction.Encodable : Instruction → Prop
  | .brTable depths _ => depths.length ≤ maxBranchTargets
  | _ => True

attribute [simp] Instruction.operator Plain.operator Instruction.Encodable

theorem codec_readOperands (op : Operator) :
    Read.Codec op.readOperands (fun instruction => instruction.operator = op ∧ instruction.Encodable)
      Instruction.operandBytes := by
  cases op with
  | unreachable | nop | ret | parametric op | numeric op =>
    refine .constantly _ (fun result => ?_) rfl
    rcases result with (_ | _) | _ <;> simp
  | otherwise | close =>
    refine .constantly _ (fun result => ?_) rfl
    rcases result with (_ | _) | _ <;> simp
  | enter kind =>
    refine Read.codec_blockType.map (Instruction.enter kind) (fun result => ?_) fun _ _ => rfl
    rcases result with (_ | _) | _ <;> simp [eq_comm]
  | br =>
    refine Read.codec_index.map Instruction.br (fun result => ?_) fun _ _ => rfl
    rcases result with (_ | _) | _ <;> simp
  | brIf =>
    refine Read.codec_index.map Instruction.brIf (fun result => ?_) fun _ _ => rfl
    rcases result with (_ | _) | _ <;> simp
  | brTable =>
    refine Read.codec_indices.seq Read.codec_index Instruction.brTable (fun result => ?_) fun _ _ _ _ => rfl
    rcases result with (_ | _) | _ <;> simp
  | call =>
    refine Read.codec_index.map (fun function => Instruction.plain (.call function)) (fun result => ?_)
      fun _ _ => rfl
    rcases result with (_ | _) | _ <;> simp
  | callIndirect =>
    refine Read.codec_index.seq (Read.codec_reserved .callIndirect)
      (fun type _ => Instruction.plain (.callIndirect type)) (fun result => ?_) fun _ _ _ _ => rfl
    rcases result with (_ | _) | _ <;> simp
  | «variable» op =>
    refine Read.codec_index.map (fun index => Instruction.plain (.variable op index)) (fun result => ?_)
      fun _ _ => rfl
    rcases result with (_ | _) | _ <;> simp [eq_comm]
  | memory op =>
    refine Read.codec_memArg.map (fun arg => Instruction.plain (.memory op arg)) (fun result => ?_)
      fun _ _ => rfl
    rcases result with (_ | _) | _ <;> simp [eq_comm]
  | memorySize op =>
    refine (Read.codec_reserved op.reservedUse).map (fun _ => Instruction.plain (.memorySize op))
      (fun result => ?_) fun _ _ => rfl
    rcases result with (_ | _) | _ <;> simp [eq_comm]
  | const type =>
    refine (Read.codec_constant type).map (fun value => Instruction.plain (.const value)) (fun result => ?_)
      fun _ _ => rfl
    rcases result with (_ | _) | _ <;> simp

namespace Instruction

/-- The bytes are the opcode of the instruction, and operands that read as its own. -/
def Spelled (instruction : Instruction) (bytes : List UInt8) : Prop :=
  ∃ operands, bytes = instruction.operator.opcode :: operands ∧
    instruction.operator.readOperands.Takes operands instruction

theorem spelled_encode {instruction : Instruction} (h : instruction.Encodable) :
    instruction.Spelled instruction.encode :=
  ⟨instruction.operandBytes, rfl, (codec_readOperands _).complete instruction ⟨rfl, h⟩⟩

namespace Spelled

variable {instruction : Instruction} {bytes : List UInt8}

theorem encodable (h : instruction.Spelled bytes) : instruction.Encodable := by
  obtain ⟨operands, -, ht⟩ := h
  exact ((codec_readOperands _).sound operands instruction ht).1.2

/-- No spelling of an instruction is as short as the one that is written, and different from it. -/
theorem shortens (h : instruction.Spelled bytes) : Shortens instruction.encode bytes := by
  obtain ⟨operands, rfl, ht⟩ := h
  exact ((codec_readOperands _).sound operands instruction ht).2.cons _

theorem length_pos (h : instruction.Spelled bytes) : 0 < bytes.length := by
  obtain ⟨operands, rfl, -⟩ := h
  exact Nat.succ_pos _

theorem eq_of_close (h : close.Spelled bytes) : bytes = [Operator.close.opcode] := by
  obtain ⟨operands, rfl, ht⟩ := h
  rw [(Read.takes_pure_iff.mp ht).1]
  rfl

end Spelled

end Instruction

end FlatWasm
