import FlatWasm.Leb128
import FlatWasm.Proofs.Reading
import Mathlib.Tactic.Ring

/-!
# The bytes of a LEB128 integer

`Unsigned` and `Signed` say without a reader which bytes stand for which value: every byte but the
last announces another, there are no more groups than the width has room for, and the groups make
up the value, which has to fit the width. The readers take exactly these bytes.

A value and the number of groups settle the bytes, so two spellings of one length are equal, and
the writers use the least number of groups that can hold the value.
-/

namespace FlatWasm.Leb128

/-- Every byte but the last says that another follows. -/
def Terminated : List UInt8 → Prop
  | [] => False
  | [byte] => continues byte = false
  | byte :: next :: rest => continues byte = true ∧ Terminated (next :: rest)

/-- The groups as the digits of a number, least significant first. -/
def unsignedValue : List UInt8 → Nat
  | [] => 0
  | byte :: rest => payload byte + 128 * unsignedValue rest

/-- The same in two's complement: the last group carries the sign. -/
def signedValue : List UInt8 → Int
  | [] => 0
  | [byte] => signedGroup (payload byte)
  | byte :: next :: rest => payload byte + 128 * signedValue (next :: rest)

structure Unsigned (width : Nat) (bytes : List UInt8) (value : Nat) : Prop where
  terminated : Terminated bytes
  groups : bytes.length ≤ (width + 6) / 7
  value_eq : unsignedValue bytes = value
  fits : value < 2 ^ width

structure Signed (width : Nat) (bytes : List UInt8) (value : Int) : Prop where
  terminated : Terminated bytes
  groups : bytes.length ≤ (width + 6) / 7
  value_eq : signedValue bytes = value
  least : -2 ^ (width - 1) ≤ value
  greatest : value < 2 ^ (width - 1)

theorem payload_lt (byte : UInt8) : payload byte < 128 := Nat.mod_lt _ (by decide)

theorem toNat_eq_payload (byte : UInt8) :
    byte.toNat = payload byte + if continues byte then 128 else 0 := by
  have hb := byte.toNat_lt
  simp only [payload, continues, decide_eq_true_eq]
  split <;> omega

theorem byte_eq_of_payload {byte : UInt8} {group : Nat} (hp : payload byte = group)
    (hc : continues byte = false) : byte = UInt8.ofNat group := by
  have hn := toNat_eq_payload byte
  rw [hc, hp] at hn
  rw [← UInt8.ofNat_toNat (x := byte), hn]
  rfl

theorem byte_eq_of_payload_continues {byte : UInt8} {group : Nat} (hp : payload byte = group)
    (hc : continues byte = true) : byte = UInt8.ofNat (group + 128) := by
  have hn := toNat_eq_payload byte
  rw [hc, hp] at hn
  rw [← UInt8.ofNat_toNat (x := byte), hn]
  rfl

theorem payload_ofNat {group : Nat} (hg : group < 128) :
    payload (UInt8.ofNat group) = group ∧ continues (UInt8.ofNat group) = false := by
  simp only [payload, continues, UInt8.toNat_ofNat', decide_eq_false_iff_not]
  omega

theorem payload_ofNat_continues {group : Nat} (hg : group < 128) :
    payload (UInt8.ofNat (group + 128)) = group ∧
      continues (UInt8.ofNat (group + 128)) = true := by
  simp only [payload, continues, UInt8.toNat_ofNat', decide_eq_true_eq]
  omega

theorem Terminated.ne_nil {bytes : List UInt8} (h : Terminated bytes) : bytes ≠ [] := by
  rintro rfl
  exact h

theorem Terminated.length_pos {bytes : List UInt8} (h : Terminated bytes) : 0 < bytes.length :=
  List.length_pos_iff.mpr h.ne_nil

theorem terminated_cons {byte : UInt8} {rest : List UInt8} (hr : rest ≠ []) :
    Terminated (byte :: rest) ↔ continues byte = true ∧ Terminated rest := by
  cases rest with
  | nil => contradiction
  | cons next rest => rfl

theorem signedValue_cons {byte : UInt8} {rest : List UInt8} (hr : rest ≠ []) :
    signedValue (byte :: rest) = payload byte + 128 * signedValue rest := by
  cases rest with
  | nil => contradiction
  | cons next rest => rfl

theorem two_pow_room {room : Nat} (h : 7 < room) : 2 ^ room = 128 * 2 ^ (room - 7) := by
  rw [show room = 7 + (room - 7) by omega, Nat.pow_add, Nat.add_sub_cancel_left]

/-! ## Unsigned integers -/

theorem Unsigned.single {room : Nat} {byte : UInt8} (hr : 0 < room)
    (hf : payload byte < 2 ^ room) (hc : continues byte = false) :
    Unsigned room [byte] (payload byte) := by
  refine ⟨hc, ?_, rfl, hf⟩
  rw [List.length_singleton]
  omega

theorem Unsigned.cons {room high : Nat} {byte : UInt8} {rest : List UInt8} (hr : 7 < room)
    (hc : continues byte = true) (h : Unsigned (room - 7) rest high) :
    Unsigned room (byte :: rest) (payload byte + 128 * high) := by
  refine ⟨(terminated_cons h.terminated.ne_nil).mpr ⟨hc, h.terminated⟩, ?_, ?_, ?_⟩
  · have hg := h.groups
    rw [List.length_cons]
    omega
  · rw [unsignedValue, h.value_eq]
  · have hp := payload_lt byte
    have hf := h.fits
    rw [two_pow_room hr]
    omega

/-- Of more than one byte, the first continues and the others are an integer of less room. -/
theorem Unsigned.tail {room value : Nat} {byte : UInt8} {rest : List UInt8}
    (h : Unsigned room (byte :: rest) value) (hn : rest ≠ []) :
    7 < room ∧ continues byte = true ∧
      ∃ high, value = payload byte + 128 * high ∧ Unsigned (room - 7) rest high := by
  obtain ⟨hc, ht⟩ := (terminated_cons hn).mp h.terminated
  have hg := h.groups
  have hl := ht.length_pos
  rw [List.length_cons] at hg
  have hr : 7 < room := by omega
  have hv := h.value_eq
  have hf := h.fits
  rw [unsignedValue] at hv
  rw [two_pow_room hr, ← hv] at hf
  exact ⟨hr, hc, unsignedValue rest, hv.symm, ht, by omega, rfl, by omega⟩

theorem unsignedGroups_sound {room offset value : Nat} {bytes : List UInt8} {left : Cursor}
    (hr : 0 < room) (h : unsignedGroups room offset bytes = (.ok value, left)) :
    ∃ taken rest, bytes = taken ++ rest ∧ left = ⟨offset + taken.length, rest⟩ ∧
      Unsigned room taken value := by
  induction bytes generalizing room offset value with
  | nil => simp [unsignedGroups] at h
  | cons byte rest ih =>
    rw [unsignedGroups, Nat.one_shiftLeft] at h
    by_cases hf : 2 ^ room ≤ payload byte
    · simp [hf] at h
    by_cases hc : continues byte = true
    · by_cases hs : room ≤ 7
      · simp [hf, hc, hs] at h
      simp only [hf, hc, hs, if_false, Bool.not_true, Bool.false_eq_true] at h
      -- the rest is read with seven bits less of room
      rcases hg : unsignedGroups (room - 7) (offset + 1) rest with ⟨_ | high, cursor⟩
      · simp [hg] at h
      simp only [hg, Prod.mk.injEq, Except.ok.injEq] at h
      obtain ⟨rfl, rfl⟩ := h
      obtain ⟨taken, rest', rfl, rfl, hu⟩ := ih (by omega) hg
      refine ⟨byte :: taken, rest', rfl, ?_, hu.cons (by omega) hc⟩
      rw [List.length_cons, Nat.add_assoc, Nat.add_comm 1]
    · rw [Bool.not_eq_true] at hc
      simp only [hf, hc, if_false, Bool.not_false, if_true, Prod.mk.injEq, Except.ok.injEq] at h
      obtain ⟨rfl, rfl⟩ := h
      exact ⟨[byte], rest, rfl, rfl, Unsigned.single hr (by omega) hc⟩

theorem unsignedGroups_complete {room offset value : Nat} {taken rest : List UInt8}
    (h : Unsigned room taken value) :
    unsignedGroups room offset (taken ++ rest) = (.ok value, ⟨offset + taken.length, rest⟩) := by
  induction taken generalizing room offset value with
  | nil => exact absurd rfl h.terminated.ne_nil
  | cons byte tail ih =>
    have hv := h.value_eq
    have hf := h.fits
    rw [unsignedValue] at hv
    have hle : ¬ 2 ^ room ≤ payload byte := by omega
    rw [List.cons_append, unsignedGroups, Nat.one_shiftLeft, if_neg hle]
    by_cases hn : tail = []
    · subst hn
      have hc : continues byte = false := h.terminated
      simp [hc, ← hv, unsignedValue]
    · obtain ⟨hr, hc, high, rfl, hu⟩ := h.tail hn
      have hs : ¬ room ≤ 7 := by omega
      simp only [hc, hs, Bool.not_true, Bool.false_eq_true, if_false, ih hu, List.length_cons]
      rw [Nat.add_assoc, Nat.add_comm 1]

theorem readUnsigned_eq {width : Nat} (hw : widthSupported width = true) (cursor : Cursor) :
    readUnsigned width cursor = unsignedGroups width cursor.offset cursor.rest := by
  rw [readUnsigned, if_pos hw]

theorem width_pos {width : Nat} (hw : widthSupported width = true) : 0 < width := by
  simp only [widthSupported, Bool.and_eq_true, decide_eq_true_eq] at hw
  exact hw.1

theorem local_readUnsigned (width : Nat) : (readUnsigned width).Local := by
  intro offset bytes value left h
  by_cases hw : widthSupported width = true
  · rw [readUnsigned_eq hw] at h
    obtain ⟨taken, rest, he, hl, hu⟩ := unsignedGroups_sound (width_pos hw) h
    refine ⟨taken, rest, he, hl, fun offset rest => ?_⟩
    rw [readUnsigned_eq hw]
    exact unsignedGroups_complete hu
  · rw [readUnsigned, if_neg hw] at h
    cases h

/-- The reader takes the encodings of the width, and nothing else. -/
theorem takes_readUnsigned_iff {width value : Nat} {taken : List UInt8}
    (hw : widthSupported width = true) :
    (readUnsigned width).Takes taken value ↔ Unsigned width taken value := by
  constructor
  · intro h
    have hr := h 0 []
    rw [readUnsigned_eq hw, List.append_nil] at hr
    obtain ⟨taken', rest, rfl, hl, hu⟩ := unsignedGroups_sound (width_pos hw) hr
    injection hl with ho hl
    rw [← hl, List.append_nil]
    exact hu
  · intro hu offset rest
    rw [readUnsigned_eq hw]
    exact unsignedGroups_complete hu

theorem unsignedBytes_length (more value : Nat) : (unsignedBytes more value).length = more + 1 := by
  induction more generalizing value with
  | zero => rfl
  | succ more ih => rw [unsignedBytes, List.length_cons, ih]

theorem unsignedBytes_ne_nil (more value : Nat) : unsignedBytes more value ≠ [] := by
  rw [← List.length_pos_iff, unsignedBytes_length]
  exact Nat.succ_pos more

theorem terminated_unsignedBytes (more value : Nat) : Terminated (unsignedBytes more value) := by
  induction more generalizing value with
  | zero => exact (payload_ofNat (Nat.mod_lt _ (by decide))).2
  | succ more ih =>
    rw [unsignedBytes, terminated_cons (unsignedBytes_ne_nil more _)]
    exact ⟨(payload_ofNat_continues (Nat.mod_lt _ (by decide))).2, ih _⟩

theorem unsignedValue_unsignedBytes {more value : Nat} (h : value < 2 ^ (7 * more + 7)) :
    unsignedValue (unsignedBytes more value) = value := by
  induction more generalizing value with
  | zero =>
    rw [unsignedBytes, unsignedValue, unsignedValue,
      (payload_ofNat (Nat.mod_lt _ (by decide))).1]
    omega
  | succ more ih =>
    have hp : 2 ^ (7 * (more + 1) + 7) = 128 * 2 ^ (7 * more + 7) := by
      rw [two_pow_room (by omega)]
      congr 2
    rw [unsignedBytes, unsignedValue, (payload_ofNat_continues (Nat.mod_lt _ (by decide))).1,
      ih (by omega)]
    omega

/-- Value and number of groups determine the bytes. -/
theorem eq_unsignedBytes {bytes : List UInt8} (h : Terminated bytes) :
    bytes = unsignedBytes (bytes.length - 1) (unsignedValue bytes) := by
  induction bytes with
  | nil => exact h.elim
  | cons byte rest ih =>
    have hp := payload_lt byte
    by_cases hn : rest = []
    · subst hn
      have hm : (payload byte + 128 * 0) % 128 = payload byte := by omega
      change [byte] = [UInt8.ofNat ((payload byte + 128 * 0) % 128)]
      rw [hm, ← byte_eq_of_payload rfl h]
    · obtain ⟨hc, ht⟩ := (terminated_cons hn).mp h
      have hl : rest.length = rest.length - 1 + 1 := by have := ht.length_pos; omega
      have hm : (payload byte + 128 * unsignedValue rest) % 128 = payload byte := by omega
      have hd : (payload byte + 128 * unsignedValue rest) / 128 = unsignedValue rest := by omega
      rw [List.length_cons, Nat.add_sub_cancel, unsignedValue, hl, unsignedBytes, hm, hd, ← ih ht,
        ← byte_eq_of_payload_continues rfl hc]

theorem unsignedValue_lt (bytes : List UInt8) : unsignedValue bytes < 2 ^ (7 * bytes.length) := by
  induction bytes with
  | nil => simp [unsignedValue]
  | cons byte rest ih =>
    have hp := payload_lt byte
    rw [unsignedValue, List.length_cons, Nat.mul_add, Nat.pow_add]
    omega

theorem log2_div_le {value more : Nat} :
    value.log2 / 7 ≤ more ↔ value < 2 ^ (7 * more + 7) := by
  by_cases h0 : value = 0
  · subst h0
    simp
  · rw [← Nat.log2_lt h0]
    omega

theorem encodeUnsigned_spec {width value : Nat} (hr : 0 < width) (h : value < 2 ^ width) :
    Unsigned width (encodeUnsigned value) value := by
  unfold encodeUnsigned
  refine ⟨terminated_unsignedBytes _ _, ?_, ?_, h⟩
  · rw [unsignedBytes_length]
    have hle : value.log2 / 7 ≤ (width - 1) / 7 := by
      rw [log2_div_le]
      exact h.trans_le (Nat.pow_le_pow_right (by decide) (by omega))
    omega
  · exact unsignedValue_unsignedBytes (log2_div_le.mp (Nat.le_refl _))

theorem Unsigned.shortens {width value : Nat} {bytes : List UInt8}
    (h : Unsigned width bytes value) : Shortens (encodeUnsigned value) bytes := by
  have hl := h.terminated.length_pos
  have hle : value.log2 / 7 ≤ bytes.length - 1 := by
    rw [log2_div_le, ← h.value_eq, show 7 * (bytes.length - 1) + 7 = 7 * bytes.length by omega]
    exact unsignedValue_lt bytes
  rcases hle.lt_or_eq with hlt | heq
  · refine Or.inr ?_
    rw [encodeUnsigned, unsignedBytes_length]
    omega
  · refine Or.inl ?_
    rw [encodeUnsigned, heq, ← h.value_eq]
    exact (eq_unsignedBytes h.terminated).symm

/-! ## Signed integers -/

theorem two_pow_pred_room {room : Nat} (h : 7 < room) :
    (2 : Int) ^ (room - 1) = 128 * 2 ^ (room - 7 - 1) := by
  rw [show room - 1 = 7 + (room - 7 - 1) by omega, pow_add]
  norm_num

theorem signedGroup_bounds {group : Nat} (h : group < 128) :
    -64 ≤ signedGroup group ∧ signedGroup group < 64 := by
  rw [signedGroup]
  split <;> omega

/-- A last group fits if the number it ends, taken for itself, lies in the range of the room. -/
theorem signFits_iff {room group : Nat} (hg : group < 128) :
    signFits room group = true ↔
      7 < room ∨ -2 ^ (room - 1) ≤ signedGroup group ∧ signedGroup group < 2 ^ (room - 1) := by
  have hc : ((2 ^ (room - 1) : Nat) : Int) = 2 ^ (room - 1) := by push_cast; rfl
  simp only [signFits, Nat.one_shiftLeft, Bool.or_eq_true, decide_eq_true_eq, ← hc, signedGroup]
  by_cases hr : 7 < room
  · have hp : 2 ^ 7 ≤ 2 ^ (room - 1) := Nat.pow_le_pow_right (by decide) (by omega)
    omega
  · have hp : 2 ^ (room - 1) ≤ 2 ^ 6 := Nat.pow_le_pow_right (by decide) (by omega)
    split <;> omega

theorem Signed.single {room : Nat} {byte : UInt8} (hr : 0 < room)
    (hf : signFits room (payload byte) = true) (hc : continues byte = false) :
    Signed room [byte] (signedGroup (payload byte)) := by
  have hg : [byte].length ≤ (room + 6) / 7 := by rw [List.length_singleton]; omega
  rcases (signFits_iff (payload_lt byte)).mp hf with hw | ⟨hl, hu⟩
  · have hb := signedGroup_bounds (payload_lt byte)
    have hp : (2 : Int) ^ (room - 1) = 128 * 2 ^ (room - 7 - 1) := two_pow_pred_room hw
    have h1 : (0 : Int) < 2 ^ (room - 7 - 1) := Int.pow_pos (by decide)
    exact ⟨hc, hg, rfl, by omega, by omega⟩
  · exact ⟨hc, hg, rfl, hl, hu⟩

theorem Signed.cons {room : Nat} {high : Int} {byte : UInt8} {rest : List UInt8} (hr : 7 < room)
    (hc : continues byte = true) (h : Signed (room - 7) rest high) :
    Signed room (byte :: rest) (payload byte + 128 * high) := by
  have hp := payload_lt byte
  have hl := h.least
  have hu := h.greatest
  refine ⟨(terminated_cons h.terminated.ne_nil).mpr ⟨hc, h.terminated⟩, ?_, ?_, ?_, ?_⟩
  · have hg := h.groups
    rw [List.length_cons]
    omega
  · rw [signedValue_cons h.terminated.ne_nil, h.value_eq]
  · rw [two_pow_pred_room hr]
    omega
  · rw [two_pow_pred_room hr]
    omega

theorem Signed.tail {room : Nat} {value : Int} {byte : UInt8} {rest : List UInt8}
    (h : Signed room (byte :: rest) value) (hn : rest ≠ []) :
    7 < room ∧ continues byte = true ∧
      ∃ high, value = payload byte + 128 * high ∧ Signed (room - 7) rest high := by
  obtain ⟨hc, ht⟩ := (terminated_cons hn).mp h.terminated
  have hg := h.groups
  have hl := ht.length_pos
  rw [List.length_cons] at hg
  have hr : 7 < room := by omega
  have hp := payload_lt byte
  have hv := h.value_eq
  have hleast := h.least
  have hgreatest := h.greatest
  rw [signedValue_cons hn] at hv
  rw [two_pow_pred_room hr, ← hv] at hleast hgreatest
  exact ⟨hr, hc, signedValue rest, hv.symm, ht, by omega, rfl, by omega, by omega⟩

theorem signedGroups_sound {room offset : Nat} {value : Int} {bytes : List UInt8} {left : Cursor}
    (hr : 0 < room) (h : signedGroups room offset bytes = (.ok value, left)) :
    ∃ taken rest, bytes = taken ++ rest ∧ left = ⟨offset + taken.length, rest⟩ ∧
      Signed room taken value := by
  induction bytes generalizing room offset value with
  | nil => simp [signedGroups] at h
  | cons byte rest ih =>
    rw [signedGroups] at h
    by_cases hf : signFits room (payload byte) = true
    · by_cases hc : continues byte = true
      · by_cases hs : room ≤ 7
        · simp [hf, hc, hs] at h
        simp only [hf, hc, hs, if_false, Bool.not_true, Bool.false_eq_true] at h
        rcases hg : signedGroups (room - 7) (offset + 1) rest with ⟨_ | high, cursor⟩
        · simp [hg] at h
        simp only [hg, Prod.mk.injEq, Except.ok.injEq] at h
        obtain ⟨rfl, rfl⟩ := h
        obtain ⟨taken, rest', rfl, rfl, hu⟩ := ih (by omega) hg
        refine ⟨byte :: taken, rest', rfl, ?_, hu.cons (by omega) hc⟩
        rw [List.length_cons, Nat.add_assoc, Nat.add_comm 1]
      · rw [Bool.not_eq_true] at hc
        simp only [hf, hc, if_false, Bool.not_false, Bool.not_true, Bool.false_eq_true, if_true,
          Prod.mk.injEq, Except.ok.injEq] at h
        obtain ⟨rfl, rfl⟩ := h
        exact ⟨[byte], rest, rfl, rfl, Signed.single hr hf hc⟩
    · simp [hf] at h

theorem signedGroups_complete {room offset : Nat} {value : Int} {taken rest : List UInt8}
    (h : Signed room taken value) :
    signedGroups room offset (taken ++ rest) = (.ok value, ⟨offset + taken.length, rest⟩) := by
  induction taken generalizing room offset value with
  | nil => exact absurd rfl h.terminated.ne_nil
  | cons byte tail ih =>
    by_cases hn : tail = []
    · subst hn
      have hc : continues byte = false := h.terminated
      have hv : signedGroup (payload byte) = value := h.value_eq
      have hf : signFits room (payload byte) = true :=
        (signFits_iff (payload_lt byte)).mpr (.inr (hv ▸ ⟨h.least, h.greatest⟩))
      simp [signedGroups, hf, hc, hv]
    · obtain ⟨hr, hc, high, rfl, hu⟩ := h.tail hn
      have hs : ¬ room ≤ 7 := by omega
      have hf : signFits room (payload byte) = true :=
        (signFits_iff (payload_lt byte)).mpr (.inl hr)
      simp only [List.cons_append, signedGroups, hf, hc, hs, Bool.not_true, Bool.false_eq_true,
        if_false, ih hu, List.length_cons]
      rw [Nat.add_assoc, Nat.add_comm 1]

theorem readSigned_eq {width : Nat} (hw : widthSupported width = true) (cursor : Cursor) :
    readSigned width cursor = signedGroups width cursor.offset cursor.rest := by
  rw [readSigned, if_pos hw]

theorem local_readSigned (width : Nat) : (readSigned width).Local := by
  intro offset bytes value left h
  by_cases hw : widthSupported width = true
  · rw [readSigned_eq hw] at h
    obtain ⟨taken, rest, he, hl, hs⟩ := signedGroups_sound (width_pos hw) h
    refine ⟨taken, rest, he, hl, fun offset rest => ?_⟩
    rw [readSigned_eq hw]
    exact signedGroups_complete hs
  · rw [readSigned, if_neg hw] at h
    cases h

theorem takes_readSigned_iff {width : Nat} {value : Int} {taken : List UInt8}
    (hw : widthSupported width = true) :
    (readSigned width).Takes taken value ↔ Signed width taken value := by
  constructor
  · intro h
    have hr := h 0 []
    rw [readSigned_eq hw, List.append_nil] at hr
    obtain ⟨taken', rest, rfl, hl, hs⟩ := signedGroups_sound (width_pos hw) hr
    injection hl with ho hl
    rw [← hl, List.append_nil]
    exact hs
  · intro hs offset rest
    rw [readSigned_eq hw]
    exact signedGroups_complete hs

theorem signedBytes_length (more : Nat) (value : Int) :
    (signedBytes more value).length = more + 1 := by
  induction more generalizing value with
  | zero => rfl
  | succ more ih => rw [signedBytes, List.length_cons, ih]

theorem signedBytes_ne_nil (more : Nat) (value : Int) : signedBytes more value ≠ [] := by
  rw [← List.length_pos_iff, signedBytes_length]
  exact Nat.succ_pos more

theorem toNat_emod_lt (value : Int) : (value % 128).toNat < 128 := by omega

theorem terminated_signedBytes (more : Nat) (value : Int) :
    Terminated (signedBytes more value) := by
  induction more generalizing value with
  | zero => exact (payload_ofNat (toNat_emod_lt value)).2
  | succ more ih =>
    rw [signedBytes, terminated_cons (signedBytes_ne_nil more _)]
    exact ⟨(payload_ofNat_continues (toNat_emod_lt value)).2, ih _⟩

theorem magnitude_lt_iff {value : Int} {bound : Nat} :
    magnitude value < bound ↔ -(bound : Int) ≤ value ∧ value < bound := by
  cases value with
  | ofNat value => simp only [magnitude, Int.ofNat_eq_natCast]; omega
  | negSucc complement => simp only [magnitude, Int.negSucc_eq]; omega

theorem magnitude_ediv {value : Int} : magnitude (value / 128) = magnitude value / 128 := by
  have h (bound : Nat) : magnitude (value / 128) < bound ↔ magnitude value / 128 < bound := by
    rw [magnitude_lt_iff, Nat.div_lt_iff_lt_mul (by decide), magnitude_lt_iff]
    omega
  have hl := (h (magnitude (value / 128) + 1)).mp (Nat.lt_succ_self _)
  have hr := (h (magnitude value / 128 + 1)).mpr (Nat.lt_succ_self _)
  omega

theorem signedValue_signedBytes {more : Nat} {value : Int}
    (h : magnitude value < 2 ^ (7 * more + 6)) : signedValue (signedBytes more value) = value := by
  induction more generalizing value with
  | zero =>
    rw [magnitude_lt_iff] at h
    rw [signedBytes, signedValue, (payload_ofNat (toNat_emod_lt value)).1, signedGroup]
    norm_num at h
    split <;> omega
  | succ more ih =>
    have hp : 2 ^ (7 * (more + 1) + 6) = 128 * 2 ^ (7 * more + 6) := by
      rw [two_pow_room (by omega)]
      congr 2
    have hd : magnitude (value / 128) < 2 ^ (7 * more + 6) := by
      rw [magnitude_ediv]
      omega
    rw [signedBytes, signedValue_cons (signedBytes_ne_nil more _),
      (payload_ofNat_continues (toNat_emod_lt value)).1, ih hd]
    omega

theorem eq_signedBytes {bytes : List UInt8} (h : Terminated bytes) :
    bytes = signedBytes (bytes.length - 1) (signedValue bytes) := by
  induction bytes with
  | nil => exact h.elim
  | cons byte rest ih =>
    have hp := payload_lt byte
    by_cases hn : rest = []
    · subst hn
      have hm : (signedGroup (payload byte) % 128).toNat = payload byte := by
        rw [signedGroup]
        split <;> omega
      change [byte] = [UInt8.ofNat (signedGroup (payload byte) % 128).toNat]
      rw [hm, ← byte_eq_of_payload rfl h]
    · obtain ⟨hc, ht⟩ := (terminated_cons hn).mp h
      have hl : rest.length = rest.length - 1 + 1 := by have := ht.length_pos; omega
      have hm : ((payload byte + 128 * signedValue rest) % 128).toNat = payload byte := by omega
      have hd : (payload byte + 128 * signedValue rest) / 128 = signedValue rest := by omega
      rw [List.length_cons, Nat.add_sub_cancel, signedValue_cons hn, hl, signedBytes, hm, hd,
        ← ih ht, ← byte_eq_of_payload_continues rfl hc]

theorem magnitude_signedValue_lt {bytes : List UInt8} (hn : bytes ≠ []) :
    magnitude (signedValue bytes) < 2 ^ (7 * (bytes.length - 1) + 6) := by
  induction bytes with
  | nil => contradiction
  | cons byte rest ih =>
    have hp := payload_lt byte
    by_cases hr : rest = []
    · subst hr
      have he : 2 ^ (7 * ([byte].length - 1) + 6) = 64 := by simp
      rw [he, magnitude_lt_iff]
      exact signedGroup_bounds hp
    · have hl := List.length_pos_iff.mpr hr
      have hd : (payload byte + 128 * signedValue rest) / 128 = signedValue rest := by omega
      have hq := @magnitude_ediv (payload byte + 128 * signedValue rest)
      have hi := ih hr
      rw [signedValue_cons hr, List.length_cons, Nat.add_sub_cancel,
        show 7 * rest.length + 6 = 7 + (7 * (rest.length - 1) + 6) by omega, Nat.pow_add]
      rw [hd] at hq
      omega

theorem log2_succ_div_le {value more : Nat} :
    (value.log2 + 1) / 7 ≤ more ↔ value < 2 ^ (7 * more + 6) := by
  by_cases h0 : value = 0
  · subst h0
    simp
  · rw [← Nat.log2_lt h0]
    omega

theorem magnitude_lt_two_pow {width : Nat} {value : Int} :
    magnitude value < 2 ^ (width - 1) ↔
      -2 ^ (width - 1) ≤ value ∧ value < 2 ^ (width - 1) := by
  rw [magnitude_lt_iff]
  push_cast
  rfl

theorem encodeSigned_spec {width : Nat} {value : Int} (hr : 0 < width)
    (hl : -2 ^ (width - 1) ≤ value) (hu : value < 2 ^ (width - 1)) :
    Signed width (encodeSigned value) value := by
  have hm := magnitude_lt_two_pow.mpr ⟨hl, hu⟩
  unfold encodeSigned
  refine ⟨terminated_signedBytes _ _, ?_, ?_, hl, hu⟩
  · rw [signedBytes_length]
    have hle : ((magnitude value).log2 + 1) / 7 ≤ (width - 1) / 7 := by
      rw [log2_succ_div_le]
      exact hm.trans_le (Nat.pow_le_pow_right (by decide) (by omega))
    omega
  · exact signedValue_signedBytes (log2_succ_div_le.mp (Nat.le_refl _))

theorem Signed.shortens {width : Nat} {value : Int} {bytes : List UInt8}
    (h : Signed width bytes value) : Shortens (encodeSigned value) bytes := by
  have hl := h.terminated.length_pos
  have hle : ((magnitude value).log2 + 1) / 7 ≤ bytes.length - 1 := by
    rw [log2_succ_div_le, ← h.value_eq]
    exact magnitude_signedValue_lt h.terminated.ne_nil
  rcases hle.lt_or_eq with hlt | heq
  · refine Or.inr ?_
    rw [encodeSigned, signedBytes_length]
    omega
  · refine Or.inl ?_
    rw [encodeSigned, heq, ← h.value_eq]
    exact (eq_signedBytes h.terminated).symm

end FlatWasm.Leb128
