import FlatWasm.Proofs.Checked

/-!
# Writing in loops

The writers of integers know at once how many groups a value takes. A machine does not: it takes
seven bits off a word of 64 bits in each round, and stops as soon as the rest of the word is nothing
but what the last byte already says. The loops have no bound. They end for every word, with the
bytes of the writers.
-/

namespace FlatWasm

namespace Leb128

/-! ## One group at a time -/

/-- A count of groups in which `room` bits fit into the first and seven more into each further one:
seven bits less are one group less. -/
theorem groups_succ (groups : Nat → Nat) {room : Nat}
    (hroom : ∀ value more, groups value ≤ more ↔ value < 2 ^ (7 * more + room)) {value : Nat}
    (h : 2 ^ room ≤ value) : groups value = groups (value / 128) + 1 := by
  have hstep (more : Nat) : groups value ≤ more + 1 ↔ groups (value / 128) ≤ more := by
    rw [hroom, hroom, Nat.div_lt_iff_lt_mul (by decide), Nat.mul_succ, Nat.add_right_comm,
      Nat.pow_add _ (7 * more + room) 7]
  have hpos : ¬groups value ≤ 0 := by
    rw [hroom, Nat.mul_zero, Nat.zero_add]
    exact Nat.not_lt.mpr h
  have hmost := (hstep (groups (value / 128))).mpr (Nat.le_refl _)
  have hleast := (hstep (groups value - 1)).mp (by omega)
  omega

theorem encodeUnsigned_of_lt {value : Nat} (h : value < 128) :
    encodeUnsigned value = [UInt8.ofNat (value % 128)] := by
  have hgroups : value.log2 / 7 = 0 := Nat.le_zero.mp (log2_div_le.mpr h)
  rw [encodeUnsigned, hgroups, unsignedBytes]

theorem encodeUnsigned_of_le {value : Nat} (h : 128 ≤ value) :
    encodeUnsigned value =
      UInt8.ofNat (value % 128 + 128) :: encodeUnsigned (value / 128) := by
  have hgroups := groups_succ (fun value => value.log2 / 7) (fun _ _ => log2_div_le) h
  rw [encodeUnsigned, hgroups, unsignedBytes, encodeUnsigned]

theorem encodeSigned_of_lt {value : Int} (h : magnitude value < 64) :
    encodeSigned value = [UInt8.ofNat (value % 128).toNat] := by
  have hgroups : ((magnitude value).log2 + 1) / 7 = 0 := Nat.le_zero.mp (log2_succ_div_le.mpr h)
  rw [encodeSigned, hgroups, signedBytes]

theorem encodeSigned_of_le {value : Int} (h : 64 ≤ magnitude value) :
    encodeSigned value =
      UInt8.ofNat ((value % 128).toNat + 128) :: encodeSigned (value / 128) := by
  have hgroups := groups_succ (fun value => (value.log2 + 1) / 7) (fun _ _ => log2_succ_div_le) h
  rw [encodeSigned, hgroups, signedBytes, encodeSigned, magnitude_ediv]

end Leb128

namespace Checked

/-! ## The loops -/

/-- The lowest seven bits of a word, as a byte. -/
def lowGroup (word : BitVec 64) : UInt8 := ⟨(word &&& 0x7F).setWidth 8⟩

/-- Writes a group behind what was written before, and goes on with the rest of the word. -/
def writeRound (stops : BitVec 64 → Bool) (rest : BitVec 64 → BitVec 64) :
    List UInt8 × BitVec 64 → Option (List UInt8 ⊕ List UInt8 × BitVec 64)
  | (written, word) =>
    if stops word then some (.inl (written ++ [lowGroup word]))
    else some (.inr (written ++ [lowGroup word ||| 0x80], rest word))

def unsignedStops (word : BitVec 64) : Bool := word >>> 7 == 0

/-- The shift keeps the sign, so the rest of a negative number comes to ones and not to zeros. The
last group must show the sign as well. -/
def signedStops (word : BitVec 64) : Bool :=
  let byte := lowGroup word
  let rest := word.sshiftRight 7
  (rest == 0 && byte &&& 0x40 == 0) || (rest == -1 && byte &&& 0x40 != 0)

noncomputable def writeUnsigned (written : List UInt8) (value : UInt64) : Option (List UInt8) :=
  loop (writeRound unsignedStops (· >>> 7)) (written, value.toBitVec)

noncomputable def writeSigned (written : List UInt8) (value : Int64) : Option (List UInt8) :=
  loop (writeRound signedStops (·.sshiftRight 7)) (written, value.toBitVec)

/-- What a loop writes, if each round writes a group of it and leaves a smaller word. -/
theorem loop_writeRound {stops : BitVec 64 → Bool} {rest : BitVec 64 → BitVec 64}
    (encode : BitVec 64 → List UInt8) (size : BitVec 64 → Nat)
    (hlast : ∀ word, stops word = true → encode word = [lowGroup word])
    (hmore : ∀ word, ¬stops word = true →
      encode word = (lowGroup word ||| 0x80) :: encode (rest word) ∧ size (rest word) < size word)
    (written : List UInt8) (word : BitVec 64) :
    loop (writeRound stops rest) (written, word) = some (written ++ encode word) := by
  induction hn : size word using Nat.strong_induction_on generalizing written word with
  | _ n ih =>
    subst hn
    rw [loop_eq]
    by_cases hstops : stops word = true
    · rw [writeRound, if_pos hstops, hlast word hstops]
      rfl
    · obtain ⟨hencode, hless⟩ := hmore word hstops
      rw [writeRound, if_neg hstops, hencode]
      show loop (writeRound stops rest) (written ++ [lowGroup word ||| 0x80], rest word) = _
      rw [ih _ hless _ _ rfl, List.append_assoc, List.singleton_append]

/-! ## Groups of a word -/

theorem toNat_lowGroup (word : BitVec 64) : (lowGroup word).toNat = word.toNat % 128 := by
  have hand : (word &&& 0x7F).toNat = word.toNat % 128 := by
    rw [BitVec.toNat_and]
    exact Nat.and_two_pow_sub_one_eq_mod word.toNat 7
  show ((word &&& 0x7F).setWidth 8).toNat = _
  rw [BitVec.toNat_setWidth, hand]
  omega

theorem lowGroup_eq (word : BitVec 64) : lowGroup word = UInt8.ofNat (word.toNat % 128) := by
  rw [← toNat_lowGroup, UInt8.ofNat_toNat]

/-- The top bit is free in a group, so that setting it is adding it. -/
theorem lowGroup_or (word : BitVec 64) :
    lowGroup word ||| 0x80 = UInt8.ofNat (word.toNat % 128 + 128) := by
  have hlt : word.toNat % 128 < 2 ^ 7 := Nat.mod_lt _ (by decide)
  have hor : 128 + word.toNat % 128 = 128 ||| word.toNat % 128 :=
    Nat.two_pow_add_eq_or_of_lt hlt 1
  apply UInt8.toNat_inj.mp
  rw [UInt8.toNat_or, toNat_lowGroup, UInt8.toNat_ofNat', Nat.or_comm]
  show 128 ||| word.toNat % 128 = _
  omega

theorem payload_lowGroup (word : BitVec 64) :
    Leb128.payload (lowGroup word) = word.toNat % 128 := by
  rw [Leb128.payload, toNat_lowGroup, Nat.mod_mod]

theorem toNat_shifted (word : BitVec 64) : (word >>> 7).toNat = word.toNat / 128 := by
  rw [BitVec.toNat_ushiftRight, Nat.shiftRight_eq_div_pow]

theorem toInt_emod (word : BitVec 64) : (word.toInt % 128).toNat = word.toNat % 128 := by
  have hlt := word.isLt
  rw [BitVec.toInt_eq_toNat_cond]
  split <;> omega

theorem toInt_shifted (word : BitVec 64) : (word.sshiftRight 7).toInt = word.toInt / 128 := by
  rw [BitVec.toInt_sshiftRight, Int.shiftRight_eq_div_pow]
  rfl

/-! ## Where the loops stop -/

theorem unsignedStops_iff (word : BitVec 64) : unsignedStops word = true ↔ word.toNat < 128 := by
  rw [unsignedStops, beq_iff_eq, ← BitVec.toNat_inj, toNat_shifted]
  show word.toNat / 128 = 0 ↔ _
  omega

/-- What is left fits into seven bits, one of them for the sign. -/
theorem signedStops_iff (word : BitVec 64) :
    signedStops word = true ↔ Leb128.magnitude word.toInt < 64 := by
  have hzero : word.sshiftRight 7 = 0 ↔ word.toInt / 128 = 0 := by
    rw [← BitVec.toInt_inj, toInt_shifted]
    rfl
  have hminus : word.sshiftRight 7 = -1 ↔ word.toInt / 128 = -1 := by
    rw [← BitVec.toInt_inj, toInt_shifted]
    rfl
  have hsign : lowGroup word &&& 0x40 ≠ 0 ↔ 64 ≤ (word.toInt % 128).toNat := by
    rw [and_sign_ne_zero_iff, payload_lowGroup, toInt_emod]
  have hplain : lowGroup word &&& 0x40 = 0 ↔ ¬64 ≤ (word.toInt % 128).toNat := by
    rw [← hsign, not_not]
  simp only [signedStops, Bool.or_eq_true, Bool.and_eq_true, beq_iff_eq, bne_iff_ne]
  rw [hzero, hminus, hsign, hplain, Leb128.magnitude_lt_iff]
  omega

/-! ## Whole integers -/

/-- The loop for unsigned integers ends, and has written the bytes of the writer. -/
theorem writeUnsigned_eq (written : List UInt8) (value : UInt64) :
    writeUnsigned written value = some (written ++ Leb128.encodeUnsigned value.toNat) := by
  apply loop_writeRound (fun word => Leb128.encodeUnsigned word.toNat) BitVec.toNat
  · intro word hstops
    rw [Leb128.encodeUnsigned_of_lt ((unsignedStops_iff word).mp hstops), lowGroup_eq]
  · intro word hstops
    rw [unsignedStops_iff] at hstops
    rw [Leb128.encodeUnsigned_of_le (Nat.le_of_not_lt hstops), lowGroup_or, toNat_shifted]
    exact ⟨rfl, by omega⟩

/-- The loop for signed integers ends, and has written the bytes of the writer. -/
theorem writeSigned_eq (written : List UInt8) (value : Int64) :
    writeSigned written value = some (written ++ Leb128.encodeSigned value.toInt) := by
  apply loop_writeRound (fun word => Leb128.encodeSigned word.toInt)
    fun word => Leb128.magnitude word.toInt
  · intro word hstops
    rw [Leb128.encodeSigned_of_lt ((signedStops_iff word).mp hstops), toInt_emod, lowGroup_eq]
  · intro word hstops
    rw [signedStops_iff] at hstops
    rw [Leb128.encodeSigned_of_le (Nat.le_of_not_lt hstops), toInt_emod, lowGroup_or,
      toInt_shifted, Leb128.magnitude_ediv]
    exact ⟨rfl, by omega⟩

end Checked

end FlatWasm
