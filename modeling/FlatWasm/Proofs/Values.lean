import FlatWasm.Proofs.Checked
import Mathlib.Algebra.BigOperators.Fin

/-!
# Integers accepted and values restored

The bytes of an integer in terms of their bits: all but the last have the top bit set, and the other
seven bits of each are the digits of the value, plain or in two's complement. A reader accepts such
bytes when the width has room for them and the value is in its range. All else it refuses, without
looking further than an integer could reach.

What was written is restored by reading it, and no shorter bytes read as the same value.
-/

namespace FlatWasm

namespace Read

variable {α : Type} {reader : Read α}

/-- Everything the reader does at a cursor. It reads a value from the next `count` bytes exactly
when they denote it. When no bytes do, it fails behind `most` bytes or fewer, within the input. -/
structure AcceptsExactly (reader : Read α) (denotes : List UInt8 → α → Prop) (most : Nat)
    (cursor : Cursor) : Prop where
  accepted : ∀ value count, reader cursor = (.ok value, cursor.advance count) ↔
    count ≤ cursor.remaining ∧ denotes (cursor.rest.take count) value
  refused : (∀ value count, count ≤ cursor.remaining → ¬ denotes (cursor.rest.take count) value) →
    ∃ cause count, count ≤ most ∧ count ≤ cursor.remaining ∧
      reader cursor = (.error cause, cursor.advance count)

theorem Local.ok_advance_iff (hl : reader.Local) {cursor : Cursor} {value : α} {count : Nat} :
    reader cursor = (.ok value, cursor.advance count) ↔
      count ≤ cursor.remaining ∧ reader.Takes (cursor.rest.take count) value := by
  obtain ⟨offset, bytes⟩ := cursor
  constructor
  · intro h
    obtain ⟨taken, rest, rfl, hleft, htakes⟩ := hl _ _ _ _ h
    injection hleft with hoffset
    dsimp only at hoffset
    obtain rfl : count = taken.length := by omega
    refine ⟨?_, ?_⟩
    · rw [Cursor.remaining, List.length_append]
      omega
    · rwa [List.take_left]
  · intro h
    obtain ⟨hcount, htakes⟩ := h
    have h := htakes offset (bytes.drop count)
    rwa [List.take_append_drop, List.length_take_of_le hcount] at h

/-- What a local reader does is known from the bytes that it takes, and from how far it ever
moves. -/
theorem Local.acceptsExactly {denotes : List UInt8 → α → Prop} {most : Nat} {cursor : Cursor}
    (hl : reader.Local) (hd : ∀ taken value, reader.Takes taken value ↔ denotes taken value)
    (hm : ∃ count, count ≤ most ∧ count ≤ cursor.remaining ∧
      (reader cursor).2 = cursor.advance count) :
    reader.AcceptsExactly denotes most cursor := by
  have haccepted (value : α) (count : Nat) :
      reader cursor = (.ok value, cursor.advance count) ↔
        count ≤ cursor.remaining ∧ denotes (cursor.rest.take count) value := by
    rw [hl.ok_advance_iff, hd]
  refine ⟨haccepted, ?_⟩
  intro hnone
  obtain ⟨count, hmost, hcount, hleft⟩ := hm
  rcases hr : reader cursor with ⟨cause | value, left⟩
  · rw [hr] at hleft
    exact ⟨cause, count, hmost, hcount, by rw [← hleft]⟩
  · rw [hr] at hleft
    dsimp only at hleft
    rw [hleft] at hr
    exact absurd ((haccepted value count).mp hr).2 (hnone value count hcount)

end Read

namespace Leb128

/-! ## Digits -/

/-- The number whose digits are the low seven bits of the bytes, least significant first. -/
def groupSum (bytes : List UInt8) : Nat :=
  ∑ i : Fin bytes.length, bytes[i].toNat % 128 * 2 ^ (7 * i.val)

theorem groupSum_cons (byte : UInt8) (rest : List UInt8) :
    groupSum (byte :: rest) = payload byte + 128 * groupSum rest := by
  have hsplit : groupSum (byte :: rest) = byte.toNat % 128 * 2 ^ (7 * 0) +
      ∑ i : Fin rest.length, rest[i].toNat % 128 * 2 ^ (7 * (i.val + 1)) :=
    Fin.sum_univ_succ (n := rest.length) _
  have hshift (i : Fin rest.length) : rest[i].toNat % 128 * 2 ^ (7 * (i.val + 1)) =
      128 * (rest[i].toNat % 128 * 2 ^ (7 * i.val)) := by
    rw [Nat.mul_add, Nat.pow_add]
    ring
  rw [hsplit, Finset.sum_congr rfl fun i _ => hshift i, ← Finset.mul_sum]
  simp [payload, groupSum]

theorem unsignedValue_eq_groupSum (bytes : List UInt8) : unsignedValue bytes = groupSum bytes := by
  induction bytes with
  | nil => rfl
  | cons byte rest ih => rw [unsignedValue, ih, groupSum_cons]

/-- The two readings of the groups differ by a multiple of what they can hold. -/
theorem exists_borrow {bytes : List UInt8} (hn : bytes ≠ []) :
    ∃ borrow : Int, signedValue bytes =
      unsignedValue bytes + ((2 ^ (7 * bytes.length) : Nat) : Int) * borrow := by
  induction bytes with
  | nil => contradiction
  | cons byte rest ih =>
    by_cases hr : rest = []
    · subst hr
      refine ⟨if payload byte < 64 then 0 else -1, ?_⟩
      simp only [signedValue, unsignedValue, signedGroup, List.length_singleton]
      split <;> simp [sub_eq_add_neg]
    · obtain ⟨borrow, hb⟩ := ih hr
      refine ⟨borrow, ?_⟩
      rw [signedValue_cons hr, unsignedValue, hb, List.length_cons, Nat.mul_add, Nat.pow_add]
      push_cast
      ring

theorem signedValue_eq_toInt {bytes : List UInt8} (hn : bytes ≠ []) :
    signedValue bytes = (BitVec.ofNat (7 * bytes.length) (groupSum bytes)).toInt := by
  obtain ⟨borrow, hb⟩ := exists_borrow hn
  have hrange := magnitude_lt_iff.mp (magnitude_signedValue_lt hn)
  have hlength := List.length_pos_iff.mpr hn
  have hdouble : 2 ^ (7 * bytes.length) = 2 * 2 ^ (7 * (bytes.length - 1) + 6) := by
    rw [← Nat.pow_succ']
    congr 1
    omega
  calc signedValue bytes
      = (signedValue bytes).bmod (2 ^ (7 * bytes.length)) := by
        symm
        apply Int.bmod_eq_of_le_mul_two <;> omega
    _ = (unsignedValue bytes : Int).bmod (2 ^ (7 * bytes.length)) := by
        rw [hb, Int.add_mul_bmod_self_left]
    _ = (BitVec.ofNat (7 * bytes.length) (groupSum bytes)).toInt := by
        rw [← BitVec.ofInt_natCast, BitVec.toInt_ofInt, unsignedValue_eq_groupSum]

/-! ## Bytes that denote an integer -/

/-- At least one byte and no more than a width has room for, with the top bit set in all but the
last. -/
structure Delimited (width : Nat) (bytes : List UInt8) : Prop where
  least : 1 ≤ bytes.length
  most : bytes.length ≤ (width + 6) / 7
  top_bit : ∀ i (h : i < bytes.length), bytes[i] &&& 0x80 ≠ 0 ↔ i + 1 < bytes.length

structure DenotesUnsigned (width : Nat) (bytes : List UInt8) (value : Nat) : Prop
    extends Delimited width bytes where
  value_eq : value = groupSum bytes
  fits : value < 2 ^ width

structure DenotesSigned (width : Nat) (bytes : List UInt8) (value : Int) : Prop
    extends Delimited width bytes where
  value_eq : value = (BitVec.ofNat (7 * bytes.length) (groupSum bytes)).toInt
  fits : -2 ^ (width - 1) ≤ value ∧ value < 2 ^ (width - 1)

theorem top_bit_iff (byte : UInt8) : byte &&& 0x80 ≠ 0 ↔ continues byte = true := by
  rw [Ne, Checked.and_top_eq_zero_iff, Bool.not_eq_false]

theorem terminated_iff {bytes : List UInt8} :
    Terminated bytes ↔ 1 ≤ bytes.length ∧
      ∀ i (h : i < bytes.length), bytes[i] &&& 0x80 ≠ 0 ↔ i + 1 < bytes.length := by
  simp only [top_bit_iff]
  induction bytes with
  | nil => simp [Terminated]
  | cons byte rest ih =>
    by_cases hr : rest = []
    · subst hr
      simp [Terminated]
    · have hpos := List.length_pos_iff.mpr hr
      rw [terminated_cons hr, ih]
      constructor
      · intro h
        obtain ⟨hc, -, hrest⟩ := h
        refine ⟨Nat.succ_pos _, ?_⟩
        intro i h
        cases i with
        | zero => simpa [hc] using hpos
        | succ i => simpa using hrest i (by simpa using h)
      · intro h
        obtain ⟨-, hall⟩ := h
        refine ⟨?_, hpos, ?_⟩
        · simpa [hpos] using hall 0 (Nat.succ_pos _)
        · intro i h
          have hnext := hall (i + 1) (Nat.succ_lt_succ h)
          rwa [List.getElem_cons_succ, List.length_cons, Nat.add_lt_add_iff_right] at hnext

theorem delimited_iff {width : Nat} {bytes : List UInt8} :
    Delimited width bytes ↔ Terminated bytes ∧ bytes.length ≤ (width + 6) / 7 := by
  rw [terminated_iff]
  constructor
  · intro h
    exact ⟨⟨h.least, h.top_bit⟩, h.most⟩
  · intro h
    obtain ⟨⟨hleast, htop⟩, hmost⟩ := h
    exact ⟨hleast, hmost, htop⟩

theorem unsigned_iff {width value : Nat} {bytes : List UInt8} :
    Unsigned width bytes value ↔ DenotesUnsigned width bytes value := by
  constructor
  · intro h
    refine ⟨delimited_iff.mpr ⟨h.terminated, h.groups⟩, ?_, h.fits⟩
    rw [← unsignedValue_eq_groupSum, h.value_eq]
  · intro h
    obtain ⟨hterminated, hgroups⟩ := delimited_iff.mp h.toDelimited
    refine ⟨hterminated, hgroups, ?_, h.fits⟩
    rw [unsignedValue_eq_groupSum, h.value_eq]

theorem signed_iff {width : Nat} {bytes : List UInt8} {value : Int} :
    Signed width bytes value ↔ DenotesSigned width bytes value := by
  constructor
  · intro h
    refine ⟨delimited_iff.mpr ⟨h.terminated, h.groups⟩, ?_, h.least, h.greatest⟩
    rw [← signedValue_eq_toInt h.terminated.ne_nil, h.value_eq]
  · intro h
    obtain ⟨hterminated, hgroups⟩ := delimited_iff.mp h.toDelimited
    refine ⟨hterminated, hgroups, ?_, h.fits.1, h.fits.2⟩
    rw [signedValue_eq_toInt hterminated.ne_nil, h.value_eq]

/-! ## Progress -/

/-- What both loops over groups have in common: each round moves past one byte, and there is a
further one only while more than seven bits are left. -/
structure ByGroups {α : Type} (groups : Nat → Nat → List UInt8 → Except Malformed α × Cursor) :
    Prop where
  ended : ∀ room offset, (groups room offset []).2 = ⟨offset, []⟩
  round : ∀ room offset byte rest, (groups room offset (byte :: rest)).2 = ⟨offset + 1, rest⟩ ∨
    7 < room ∧ (groups room offset (byte :: rest)).2 = (groups (room - 7) (offset + 1) rest).2

theorem byGroups_unsignedGroups : ByGroups unsignedGroups where
  ended := by
    intro room offset
    rfl
  round := by
    intro room offset byte rest
    rw [unsignedGroups]
    split_ifs with hlarge hend hlong
    · exact .inl rfl
    · exact .inl rfl
    · exact .inl rfl
    · refine .inr ⟨by omega, ?_⟩
      rcases unsignedGroups (room - 7) (offset + 1) rest with ⟨_ | _, _⟩ <;> rfl

theorem byGroups_signedGroups : ByGroups signedGroups where
  ended := by
    intro room offset
    rfl
  round := by
    intro room offset byte rest
    rw [signedGroups]
    split_ifs with hlarge hend hlong
    · exact .inl rfl
    · exact .inl rfl
    · exact .inl rfl
    · refine .inr ⟨by omega, ?_⟩
      rcases signedGroups (room - 7) (offset + 1) rest with ⟨_ | _, _⟩ <;> rfl

theorem ByGroups.advances {α : Type}
    {groups : Nat → Nat → List UInt8 → Except Malformed α × Cursor} (h : ByGroups groups)
    {room : Nat} (hr : 0 < room) (offset : Nat) (bytes : List UInt8) :
    ∃ count, count ≤ (room + 6) / 7 ∧ count ≤ bytes.length ∧
      (groups room offset bytes).2 = ⟨offset + count, bytes.drop count⟩ := by
  -- every byte that is passed uses up seven bits of the room
  induction bytes generalizing room offset with
  | nil => exact ⟨0, by omega, Nat.le_refl 0, h.ended room offset⟩
  | cons byte rest ih =>
    rcases h.round room offset byte rest with hstop | ⟨hroom, hnext⟩
    · exact ⟨1, by omega, Nat.succ_pos _, hstop⟩
    · obtain ⟨count, hmost, hcount, hleft⟩ := ih (by omega : 0 < room - 7) (offset + 1)
      refine ⟨count + 1, by omega, Nat.succ_le_succ hcount, ?_⟩
      rw [hnext, hleft, List.drop_succ_cons, Nat.add_assoc, Nat.add_comm 1]

theorem widthSupported_iff {width : Nat} :
    widthSupported width = true ↔ 1 ≤ width ∧ width ≤ 64 := by
  rw [widthSupported, Bool.and_eq_true, decide_eq_true_eq, decide_eq_true_eq, maxWidth]
  rfl

/-- An unsigned integer is read from exactly the bytes that denote one of the width. -/
theorem readUnsigned_acceptsExactly (width : Nat) (cursor : Cursor) :
    if 1 ≤ width ∧ width ≤ 64 then
      (readUnsigned width).AcceptsExactly (DenotesUnsigned width) ((width + 6) / 7) cursor
    else readUnsigned width cursor = (.error (.unsupportedWidth width), cursor) := by
  split
  · next hw =>
    rw [← widthSupported_iff] at hw
    refine (local_readUnsigned width).acceptsExactly ?_ ?_
    · intro taken value
      rw [takes_readUnsigned_iff hw, unsigned_iff]
    · rw [readUnsigned_eq hw]
      exact byGroups_unsignedGroups.advances (width_pos hw) cursor.offset cursor.rest
  · next hw =>
    rw [← widthSupported_iff] at hw
    rw [readUnsigned, if_neg hw]

/-- A signed integer is read from exactly the bytes that denote one of the width. -/
theorem readSigned_acceptsExactly (width : Nat) (cursor : Cursor) :
    if 1 ≤ width ∧ width ≤ 64 then
      (readSigned width).AcceptsExactly (DenotesSigned width) ((width + 6) / 7) cursor
    else readSigned width cursor = (.error (.unsupportedWidth width), cursor) := by
  split
  · next hw =>
    rw [← widthSupported_iff] at hw
    refine (local_readSigned width).acceptsExactly ?_ ?_
    · intro taken value
      rw [takes_readSigned_iff hw, signed_iff]
    · rw [readSigned_eq hw]
      exact byGroups_signedGroups.advances (width_pos hw) cursor.offset cursor.rest
  · next hw =>
    rw [← widthSupported_iff] at hw
    rw [readSigned, if_neg hw]

end Leb128

/-! ## Values restored -/

namespace Read

variable {α : Type} {reader : Read α}

/-- The value is read from what was written for it, up to whatever follows, and it is not read from
fewer bytes anywhere. -/
structure Restores (reader : Read α) (written : List UInt8) (value : α) : Prop where
  restored : ∀ offset suffix,
    reader ⟨offset, written ++ suffix⟩ = (.ok value, ⟨offset + written.length, suffix⟩)
  shortest : ∀ offset taken rest,
    reader ⟨offset, taken ++ rest⟩ = (.ok value, ⟨offset + taken.length, rest⟩) →
      written.length ≤ taken.length

theorem Codec.restores {valid : α → Prop} {encode : α → List UInt8}
    (hc : Codec reader valid encode) {value : α} (hv : valid value) :
    reader.Restores (encode value) value where
  restored := hc.complete value hv
  shortest := by
    intro offset taken rest h
    obtain ⟨taken', rest', -, hleft, htakes⟩ := hc.isLocal _ _ _ _ h
    injection hleft with hoffset
    have hle := (hc.sound taken' value htakes).2.length_le
    omega

theorem codec_readUInt64 :
    Codec Leb128.readUInt64 (fun _ => True) fun value => Leb128.encodeUnsigned value.toNat := by
  refine (codec_readUnsigned (by decide : Leb128.widthSupported 64 = true)).map UInt64.ofNat ?_ ?_
  · intro result
    simp only [true_iff]
    exact ⟨result.toNat, result.toNat_lt, UInt64.ofNat_toNat⟩
  · intro value hv
    rw [UInt64.toNat_ofNat_of_lt' hv]

end Read

open Leb128 in
/-- Integers of every width and of the fixed ones, rows of indices, and the bits of floats are
restored. -/
theorem written_restored :
    (∀ width, 1 ≤ width → width ≤ 64 →
      (∀ value : Nat, value < 2 ^ width →
        (readUnsigned width).Restores (encodeUnsigned value) value) ∧
      ∀ value : Int, -2 ^ (width - 1) ≤ value → value < 2 ^ (width - 1) →
        (readSigned width).Restores (encodeSigned value) value) ∧
    (∀ value : UInt32, readUInt32.Restores (encodeUnsigned value.toNat) value) ∧
    (∀ value : UInt64, readUInt64.Restores (encodeUnsigned value.toNat) value) ∧
    (∀ value : Int32, readInt32.Restores (encodeSigned value.toInt) value) ∧
    (∀ value : Int64, readInt64.Restores (encodeSigned value.toInt) value) ∧
    (∀ values : List UInt32, values.length ≤ maxBranchTargets →
      Read.indices.Restores (encodeIndices values) values) ∧
    (∀ bits : UInt32, Word.read32.Restores (Word.encode32 bits) bits) ∧
    ∀ bits : UInt64, Word.read64.Restores (Word.encode64 bits) bits := by
  refine ⟨?_, ?_, ?_, ?_, ?_, ?_, ?_, ?_⟩
  · intro width hleast hmost
    have hw := widthSupported_iff.mpr ⟨hleast, hmost⟩
    refine ⟨?_, ?_⟩
    · intro value hv
      exact (Read.codec_readUnsigned hw).restores hv
    · intro value hl hu
      exact (Read.codec_readSigned hw).restores ⟨hl, hu⟩
  · intro value
    exact Read.codec_index.restores trivial
  · intro value
    exact Read.codec_readUInt64.restores trivial
  · intro value
    exact Read.codec_readInt32.restores trivial
  · intro value
    exact Read.codec_readInt64.restores trivial
  · intro values hl
    exact Read.codec_indices.restores hl
  · intro bits
    exact Read.codec_read32.restores trivial
  · intro bits
    exact Read.codec_read64.restores trivial

open Leb128 in
/-- The least integer of 33 bits, and a row of two indices. -/
theorem written_restored_extremes :
    (readSigned 33).Restores [0x80, 0x80, 0x80, 0x80, 0x70] (-4294967296) ∧
      Read.indices.Restores [0x02, 0xFF, 0xFF, 0xFF, 0xFF, 0x0F, 0x00] [4294967295, 0] := by
  have hinteger : encodeSigned (-4294967296) = [0x80, 0x80, 0x80, 0x80, 0x70] := by decide
  have hrow : encodeIndices [4294967295, 0] = [0x02, 0xFF, 0xFF, 0xFF, 0xFF, 0x0F, 0x00] := by decide
  obtain ⟨hwidths, -, -, -, -, hrows, -⟩ := written_restored
  rw [← hinteger, ← hrow]
  exact ⟨(hwidths 33 (by decide) (by decide)).2 _ (by decide) (by decide), hrows _ (by decide)⟩

end FlatWasm
