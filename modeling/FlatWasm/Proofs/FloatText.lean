import FlatWasm.FloatFormat.Text
import FlatWasm.Proofs.Numerals
import FlatWasm.Proofs.Rounding

/-!
# Floats written and read back

Every bit pattern of a format is read back from its text, the signs of zeros and the fractions of
NaNs included. A finite number is written as a mantissa and an exponent whose product is the number,
and reading that product rounds nothing.
-/

namespace FlatWasm.FloatFormat

open Numeral

/-! ## The digits of a fraction -/

theorem length_hexDigits (count value : Nat) : (hexDigits count value).length = count := by
  induction count generalizing value with
  | zero => rfl
  | succ count ih => simp [hexDigits, ih]

theorem mem_hexDigits {count value : Nat} {c : Char} (hc : c ∈ hexDigits count value) :
    ∃ d < 16, c = Nat.digitChar d := by
  induction count generalizing value with
  | zero => exact absurd hc List.not_mem_nil
  | succ count ih =>
    rcases List.mem_append.mp hc with hc | hc
    · exact ih hc
    · exact ⟨value % 16, Nat.mod_lt _ (by decide), List.mem_singleton.mp hc⟩

theorem readBehind_hexDigits (front count value : Nat) :
    readBehind 16 front (hexDigits count value) = some (front * 16 ^ count + value % 16 ^ count) := by
  induction count generalizing value with
  | zero => simp [hexDigits, readBehind, Nat.mod_one]
  | succ count ih =>
    rw [hexDigits, readBehind_append, ih, Option.bind_some,
      readBehind_digitChar (by decide) (Nat.mod_lt _ (by decide)), Nat.pow_succ', Nat.mod_mul]
    congr 1
    ring

theorem exists_zeros (digits : List Char) :
    ∃ n, digits = dropTrailingZeros digits ++ List.replicate n '0' := by
  let zeros := digits.reverse.takeWhile (· == '0')
  have hzeros : zeros = List.replicate zeros.length '0' := by
    apply List.eq_replicate_of_mem
    intro c hc
    exact eq_of_beq (List.mem_takeWhile_imp (p := (· == '0')) hc)
  refine ⟨zeros.length, ?_⟩
  have h := congrArg List.reverse
    (List.takeWhile_append_dropWhile (p := (· == '0')) (l := digits.reverse))
  rw [List.reverse_append, List.reverse_reverse] at h
  rw [← List.reverse_replicate, ← hzeros]
  exact h.symm

/-- The digits that the fraction is written with. -/
def fractionDigits (format : FloatFormat) (fraction : Nat) : List Char :=
  dropTrailingZeros (hexDigits ((format.fractionBits + 3) / 4)
    (fraction <<< (4 * ((format.fractionBits + 3) / 4) - format.fractionBits)))

theorem mem_fractionDigits {format : FloatFormat} {fraction : Nat} {c : Char}
    (hc : c ∈ format.fractionDigits fraction) : ∃ d < 16, c = Nat.digitChar d := by
  rw [fractionDigits, dropTrailingZeros, List.mem_reverse] at hc
  exact mem_hexDigits (List.mem_reverse.mp ((List.dropWhile_sublist _).mem hc))

theorem toList_fractionText (format : FloatFormat) (fraction : Nat) :
    (format.fractionText fraction).toList =
      if fraction = 0 then [] else '.' :: format.fractionDigits fraction := by
  unfold fractionText
  split
  · rfl
  · rw [String.toList_append, String.toList_ofList (l := dropTrailingZeros ..)]
    rfl

/-- The digits behind a one are the significand, with its last bits filled up to whole digits. -/
theorem exists_significand (format : FloatFormat) {fraction : Nat}
    (hf : fraction < 2 ^ format.fractionBits) :
    ∃ mantissa, readBehind 16 1 (format.fractionDigits fraction) = some mantissa ∧
      mantissa * 2 ^ format.fractionBits =
        (2 ^ format.fractionBits + fraction) * 16 ^ (format.fractionDigits fraction).length := by
  set count := (format.fractionBits + 3) / 4 with hcount
  set aligned := fraction <<< (4 * count - format.fractionBits) with haligned
  have hpow : 2 ^ format.fractionBits * 2 ^ (4 * count - format.fractionBits) = 16 ^ count := by
    rw [← pow_add, show format.fractionBits + (4 * count - format.fractionBits) = 4 * count by omega,
      pow_mul]
    norm_num
  have hshift : aligned = fraction * 2 ^ (4 * count - format.fractionBits) := Nat.shiftLeft_eq ..
  have hlt : aligned < 16 ^ count := by
    rw [hshift, ← hpow]
    exact Nat.mul_lt_mul_of_pos_right hf (Nat.two_pow_pos _)
  obtain ⟨n, hn⟩ := exists_zeros (hexDigits count aligned)
  have hlen : count = (format.fractionDigits fraction).length + n := by
    have h := congrArg List.length hn
    rwa [length_hexDigits, List.length_append, List.length_replicate] at h
  -- the zeros that are dropped multiply by a power of the base
  have hread := readBehind_hexDigits 1 count aligned
  rw [hn, readBehind_append, Nat.mod_eq_of_lt hlt, one_mul] at hread
  obtain ⟨mantissa, hmantissa, hzeros⟩ := Option.bind_eq_some_iff.mp hread
  rw [readBehind_zeros, Option.some_inj] at hzeros
  refine ⟨mantissa, hmantissa, ?_⟩
  apply Nat.eq_of_mul_eq_mul_right (Nat.pow_pos (n := n) (show 0 < 16 by decide))
  calc mantissa * 2 ^ format.fractionBits * 16 ^ n
      = mantissa * 16 ^ n * 2 ^ format.fractionBits := by ring
    _ = (16 ^ count + fraction * 2 ^ (4 * count - format.fractionBits)) *
          2 ^ format.fractionBits := by rw [hzeros, hshift]
    _ = (2 ^ format.fractionBits + fraction) * (2 ^ format.fractionBits *
          2 ^ (4 * count - format.fractionBits)) := by rw [← hpow]; ring
    _ = (2 ^ format.fractionBits + fraction) * 16 ^ (format.fractionDigits fraction).length *
          16 ^ n := by rw [hpow, hlen, pow_add]; ring

/-! ## Mantissa and exponent -/

theorem mem_fractionText {format : FloatFormat} {fraction : Nat} {c : Char}
    (hc : c ∈ (format.fractionText fraction).toList) : c = '.' ∨ ∃ d < 16, c = Nat.digitChar d := by
  rw [toList_fractionText] at hc
  split at hc
  · exact absurd hc List.not_mem_nil
  · rcases List.mem_cons.mp hc with hc | hc
    · exact .inl hc
    · exact .inr (mem_fractionDigits hc)

/-- What stands behind the point of a mantissa. Without a point that is nothing, and the
significand is a power of two. -/
theorem exists_part (format : FloatFormat) {fraction : Nat}
    (hf : fraction < 2 ^ format.fractionBits) :
    ∃ (part : Option (List Char)) (mantissa : Nat),
      Text.splitFirst (· == '.') ('1' :: (format.fractionText fraction).toList) = (['1'], part) ∧
      (∀ c ∈ part.getD [], ∃ d < 16, c = Nat.digitChar d) ∧
      readBehind 16 1 (part.getD []) = some mantissa ∧
      mantissa * 2 ^ format.fractionBits =
        (2 ^ format.fractionBits + fraction) * 16 ^ (part.getD []).length := by
  rw [toList_fractionText]
  split
  · next hzero =>
    refine ⟨none, 1, rfl, fun c hc => absurd hc List.not_mem_nil, rfl, ?_⟩
    rw [hzero, Option.getD_none, List.length_nil, pow_zero]
    ring
  · obtain ⟨mantissa, hread, hvalue⟩ := exists_significand format hf
    exact ⟨some (format.fractionDigits fraction), mantissa, rfl,
      fun c hc => mem_fractionDigits hc, hread, hvalue⟩

/-- The exponent's text behind its mark. -/
def exponentWord (exponent : Int) : List Char :=
  if exponent < 0 then (toString exponent).toList else '+' :: (toString exponent).toList

theorem toList_exponentText (exponent : Int) :
    (exponentText exponent).toList = 'p' :: exponentWord exponent := by
  unfold exponentText exponentWord
  split
  · rw [String.toList_append]
    rfl
  · rw [String.toList_append]
    rfl

theorem binaryExponent?_exponentWord {exponent : Int} (hl : -2 ^ 63 ≤ exponent)
    (hu : exponent < 2 ^ 63) : binaryExponent? (some (exponentWord exponent)) = some exponent := by
  have hread : signed? 10 64 (toString exponent).toList = some exponent := signed?_toString hl hu
  unfold exponentWord
  split
  · next hneg =>
    rw [toList_toString_int, if_neg (by omega)] at hread ⊢
    exact hread
  · exact hread

theorem isWord_exponentWord (exponent : Int) : Text.IsWord (exponentWord exponent) := by
  have hword := isWord_toString_int exponent
  unfold exponentWord
  split
  · exact hword
  · exact ⟨List.cons_ne_nil _ _, List.forall_mem_cons.mpr ⟨by decide, hword.2⟩⟩

/-- The mark of the exponent is the first letter that is no digit. -/
theorem splitFirst_exponentText (format : FloatFormat) (fraction : Nat) (exponent : Int) :
    Text.splitFirst (fun c => c == 'p' || c == 'P')
      ('1' :: ((format.fractionText fraction).toList ++ (exponentText exponent).toList)) =
        ('1' :: (format.fractionText fraction).toList, some (exponentWord exponent)) := by
  rw [toList_exponentText, ← List.cons_append]
  apply Text.splitFirst_append _ (by decide)
  intro c hc
  rcases List.mem_cons.mp hc with rfl | hc
  · decide
  · rcases mem_fractionText hc with rfl | ⟨d, -, rfl⟩
    · decide
    · rw [beq_false_of_ne (Nat.digitChar_ne 'p' (by decide)),
        beq_false_of_ne (Nat.digitChar_ne 'P' (by decide))]
      rfl

/-- Each digit behind the point takes four off the exponent. -/
theorem mul_two_zpow_of_digits {mantissa significand bits digits : Nat}
    (h : mantissa * 2 ^ bits = significand * 16 ^ digits) (exponent : Int) :
    (mantissa : ℚ) * 2 ^ (exponent - 4 * digits) = significand * 2 ^ (exponent - bits) := by
  have hcast : (mantissa : ℚ) * 2 ^ (bits : Int) = significand * 2 ^ (4 * digits : Int) := by
    have hbase : (2 : ℚ) ^ (4 * digits : Int) = 16 ^ digits := by
      rw [zpow_mul, zpow_natCast]
      norm_num
    rw [hbase, zpow_natCast]
    exact_mod_cast h
  calc (mantissa : ℚ) * 2 ^ (exponent - 4 * digits)
      = mantissa * 2 ^ (bits : Int) * 2 ^ (exponent - 4 * digits - bits) := by
        rw [mul_assoc, ← zpow_add₀ two_ne_zero, add_sub_cancel]
    _ = significand * 2 ^ (exponent - bits) := by
        rw [hcast, mul_assoc, ← zpow_add₀ two_ne_zero]
        congr 2
        ring

/-- The text of a normal number is read as a product that is the number. -/
theorem hexadecimal?_normal (format : FloatFormat) {fraction : Nat} {exponent : Int}
    (hf : fraction < 2 ^ format.fractionBits) (hl : -2 ^ 63 ≤ exponent) (hu : exponent < 2 ^ 63) :
    ∃ (mantissa : Nat) (exponent' : Int),
      format.hexadecimal? ('1' :: ((format.fractionText fraction).toList ++
          (exponentText exponent).toList)) = some (format.ofBinary mantissa exponent') ∧
      (mantissa : ℚ) * 2 ^ exponent' =
        (2 ^ format.fractionBits + fraction : Nat) * 2 ^ (exponent - format.fractionBits) := by
  obtain ⟨part, mantissa, hpoint, hdigits, hread, hvalue⟩ := exists_part format hf
  refine ⟨mantissa, exponent - 4 * (part.getD []).length, ?_, mul_two_zpow_of_digits hvalue exponent⟩
  have hkeep : (part.getD []).filter (· ≠ '_') = part.getD [] := by
    rw [List.filter_eq_self]
    intro c hc
    obtain ⟨d, -, rfl⟩ := hdigits c hc
    exact decide_eq_true (Nat.digitChar_ne '_' (by decide))
  have hone : digits? 16 ('1' :: part.getD []) = some mantissa := by
    rw [digits?_eq_readBehind (List.cons_ne_nil _ _), ← List.singleton_append, readBehind_append]
    exact hread
  have hwhole : ['1'].filter (· ≠ '_') = ['1'] := by decide
  unfold hexadecimal?
  simp only [splitFirst_exponentText, hpoint, hkeep, hwhole, List.singleton_append, hone,
    binaryExponent?_exponentWord hl hu]

/-! ## Texts without a sign -/

/-- A text without a sign, read as the pattern `magnitude`. -/
structure Reads (format : FloatFormat) (text : List Char) (magnitude : Nat) : Prop where
  read : format.magnitude? text = some magnitude
  word : Text.IsWord text
  unsigned : splitSign text = (false, text)

theorem isInner_of_mem_fractionText {format : FloatFormat} {fraction : Nat} {c : Char}
    (hc : c ∈ (format.fractionText fraction).toList) : Text.isInner c = true := by
  rcases mem_fractionText hc with rfl | ⟨d, hd, rfl⟩
  · decide
  · exact isInner_digitChar hd

theorem toList_normalText (format : FloatFormat) (fraction : Nat) (exponent : Int) :
    (format.normalText fraction exponent).toList =
      '0' :: 'x' :: '1' :: ((format.fractionText fraction).toList ++
        (exponentText exponent).toList) := by
  rw [normalText, String.toList_append, String.toList_append, List.append_assoc]
  rfl

theorem isWord_normalText (format : FloatFormat) (fraction : Nat) (exponent : Int) :
    Text.IsWord (format.normalText fraction exponent).toList := by
  have hmark : Text.IsWord ['0', 'x', '1'] := Text.isWord_of_all (by decide)
  rw [toList_normalText, toList_exponentText]
  show Text.IsWord (['0', 'x', '1'] ++
    ((format.fractionText fraction).toList ++ 'p' :: exponentWord exponent))
  apply hmark.append
  rw [List.forall_mem_append, List.forall_mem_cons]
  exact ⟨fun c hc => isInner_of_mem_fractionText hc, by decide, (isWord_exponentWord exponent).2⟩

theorem reads_normalText {format : FloatFormat} {rounded : Rounded} (hfit : rounded.Fits format)
    {magnitude : Nat}
    (hpacked : rounded.excess <<< format.fractionBits + rounded.significand = magnitude)
    {fraction : Nat} {exponent : Int} (hf : fraction < 2 ^ format.fractionBits)
    (hl : -2 ^ 63 ≤ exponent) (hu : exponent < 2 ^ 63)
    (hvalue : ((2 ^ format.fractionBits + fraction : Nat) : ℚ) *
      2 ^ (exponent - format.fractionBits) = rounded.value format) :
    format.Reads (format.normalText fraction exponent).toList magnitude := by
  obtain ⟨mantissa, exponent', hread, heq⟩ := hexadecimal?_normal format hf hl hu
  rw [ofBinary_eq hfit (heq.trans hvalue), hpacked] at hread
  refine ⟨?_, isWord_normalText .., ?_⟩
  · rw [toList_normalText]
    exact hread
  · rw [toList_normalText]
    rfl

/-- Formats whose exponents are read without overflow. -/
def Narrow (format : FloatFormat) : Prop :=
  format.fractionBits + 2 ^ format.exponentBits < 2 ^ 63

theorem maxExponent_lt (format : FloatFormat) : format.maxExponent < 2 ^ format.exponentBits := by
  have hpow : 2 ^ (format.exponentBits - 1) ≤ 2 ^ format.exponentBits :=
    Nat.pow_le_pow_right (by decide) (by omega)
  have hpos : 0 < 2 ^ (format.exponentBits - 1) := Nat.two_pow_pos _
  rw [maxExponent, Nat.one_shiftLeft]
  omega

/-- The exponent field counts one for the leading bit. -/
theorem packed_normal (format : FloatFormat) {field : Nat} (hpos : 0 < field) (fraction : Nat) :
    (field - 1) <<< format.fractionBits + (2 ^ format.fractionBits + fraction) =
      field <<< format.fractionBits + fraction := by
  obtain ⟨excess, rfl⟩ : ∃ excess, field = excess + 1 := ⟨field - 1, by omega⟩
  rw [Nat.add_sub_cancel, Nat.shiftLeft_eq, Nat.shiftLeft_eq]
  ring

theorem fits_normal {format : FloatFormat} {field fraction : Nat}
    (hf : fraction < 2 ^ format.fractionBits) (hpos : 0 < field)
    (hfield : field < 2 ^ format.exponentBits - 1) :
    Rounded.Fits format ⟨field - 1, 2 ^ format.fractionBits + fraction⟩ := by
  refine ⟨by positivity, ?_, .inl (Nat.le_add_right ..), ?_⟩
  · show 2 ^ format.fractionBits + fraction < 2 ^ (format.fractionBits + 1)
    rw [Nat.pow_succ]
    omega
  · show (field - 1) <<< format.fractionBits + (2 ^ format.fractionBits + fraction) <
      format.infinity
    rw [packed_normal format hpos, infinity, Nat.one_shiftLeft, Nat.shiftLeft_eq, Nat.shiftLeft_eq]
    calc field * 2 ^ format.fractionBits + fraction
        < (field + 1) * 2 ^ format.fractionBits := by rw [Nat.add_mul, Nat.one_mul]; omega
      _ ≤ (2 ^ format.exponentBits - 1) * 2 ^ format.fractionBits :=
        Nat.mul_le_mul_right _ (by omega)

theorem reads_normal {format : FloatFormat} (hn : format.Narrow) {field fraction : Nat}
    (hf : fraction < 2 ^ format.fractionBits) (hpos : 0 < field)
    (hfield : field < 2 ^ format.exponentBits - 1) :
    format.Reads (format.normalText fraction (field - format.maxExponent)).toList
      (field <<< format.fractionBits + fraction) := by
  have hmax := format.maxExponent_lt
  unfold Narrow at hn
  apply reads_normalText (fits_normal hf hpos hfield) (packed_normal format hpos fraction) hf
    (by omega) (by omega)
  rw [Rounded.value, minExponent, Nat.cast_sub hpos]
  congr 2
  push_cast
  ring

theorem fits_subnormal {format : FloatFormat} {fraction : Nat}
    (hf : fraction < 2 ^ format.fractionBits) (hpos : 0 < fraction)
    (hbits : 0 < 2 ^ format.exponentBits - 1) : Rounded.Fits format ⟨0, fraction⟩ := by
  refine ⟨hpos, hf.trans (Nat.pow_lt_pow_right (by decide) (by omega)), .inr rfl, ?_⟩
  show 0 <<< format.fractionBits + fraction < format.infinity
  rw [Nat.zero_shiftLeft, Nat.zero_add, infinity, Nat.one_shiftLeft, Nat.shiftLeft_eq]
  calc fraction < 1 * 2 ^ format.fractionBits := by rwa [Nat.one_mul]
    _ ≤ (2 ^ format.exponentBits - 1) * 2 ^ format.fractionBits := Nat.mul_le_mul_right _ hbits

/-- The leading bit of a fraction, moved to the place in front of all fractions. -/
theorem lead_moved {bits fraction : Nat} (hpos : 0 < fraction) (hlt : fraction.log2 < bits) :
    2 ^ bits + (fraction - 1 <<< fraction.log2) <<< (bits - fraction.log2) =
      fraction * 2 ^ (bits - fraction.log2) ∧
    fraction * 2 ^ (bits - fraction.log2) < 2 ^ bits + 2 ^ bits := by
  have hlead : 2 ^ fraction.log2 ≤ fraction := Nat.log2_self_le hpos.ne'
  have hsplit : 2 ^ bits = 2 ^ fraction.log2 * 2 ^ (bits - fraction.log2) := by
    rw [← pow_add, Nat.add_sub_of_le hlt.le]
  constructor
  · rw [Nat.shiftLeft_eq, Nat.one_shiftLeft, hsplit, ← Nat.add_mul, Nat.add_sub_of_le hlead]
  · rw [hsplit, ← Nat.add_mul, ← Nat.two_mul, ← Nat.pow_succ']
    exact Nat.mul_lt_mul_of_pos_right Nat.lt_log2_self (Nat.two_pow_pos _)

/-- A number below the normal ones is written with its leading bit moved to the front. -/
theorem reads_subnormalText {format : FloatFormat} (hn : format.Narrow) {fraction : Nat}
    (hf : fraction < 2 ^ format.fractionBits) (hpos : 0 < fraction)
    (hbits : 0 < 2 ^ format.exponentBits - 1) :
    format.Reads (format.subnormalText fraction).toList fraction := by
  have hmax := format.maxExponent_lt
  have hmin : format.minExponent = 1 - format.maxExponent := rfl
  have hlt : fraction.log2 < format.fractionBits := (Nat.log2_lt hpos.ne').mpr hf
  obtain ⟨hmoved, hbound⟩ := lead_moved hpos hlt
  have hpacked : 0 <<< format.fractionBits + fraction = fraction := by
    rw [Nat.zero_shiftLeft, Nat.zero_add]
  unfold Narrow at hn
  show format.Reads (format.normalText _ _).toList fraction
  apply reads_normalText (fits_subnormal hf hpos hbits) hpacked (by omega) (by omega) (by omega)
  rw [hmoved, Rounded.value, Nat.cast_mul, Nat.cast_pow, mul_assoc, ← zpow_natCast,
    Nat.cast_sub hlt.le, Nat.cast_ofNat, ← zpow_add₀ two_ne_zero]
  congr 2
  push_cast
  ring

theorem reads_nan {format : FloatFormat} {fraction : Nat} (hf : fraction < 2 ^ format.fractionBits)
    (hpos : 0 < fraction) :
    format.Reads ("nan:0x" ++ String.ofList (Nat.toDigits 16 fraction)).toList
      (format.infinity + fraction) := by
  have hread : unsigned? 16 format.fractionBits (Nat.toDigits 16 fraction) = some fraction :=
    unsigned?_toDigits (by decide) (by decide) hf
  have hword : Text.IsWord "nan:0x".toList := Text.isWord_of_all (by decide)
  rw [String.toList_append, String.toList_ofList (l := Nat.toDigits ..)]
  refine ⟨?_, hword.append (isWord_toDigits (by decide) (by decide) _).2, rfl⟩
  show format.payloadNan? (Nat.toDigits 16 fraction) = some (format.infinity + fraction)
  rw [payloadNan?, hread, Option.filter_some, if_pos (decide_eq_true hpos.ne'), Option.map_some]

/-! ## Every bit pattern -/

theorem mod_signBit (format : FloatFormat) (bits : Nat) :
    bits % format.signBit =
      format.exponentField bits <<< format.fractionBits + format.fraction bits := by
  rw [signBit, exponentField, fraction, Nat.one_shiftLeft, Nat.one_shiftLeft, Nat.one_shiftLeft,
    pow_add, Nat.mod_mul, Nat.shiftLeft_eq, Nat.shiftRight_eq_div_pow]
  ring

theorem reads_magnitudeText {format : FloatFormat} (hn : format.Narrow) (bits : Nat) :
    format.Reads (format.magnitudeText bits).toList (bits % format.signBit) := by
  have hfield : format.exponentField bits < 2 ^ format.exponentBits := by
    rw [exponentField, Nat.one_shiftLeft]
    exact Nat.mod_lt _ (Nat.two_pow_pos _)
  have hf : format.fraction bits < 2 ^ format.fractionBits := by
    rw [fraction, Nat.one_shiftLeft]
    exact Nat.mod_lt _ (Nat.two_pow_pos _)
  rw [mod_signBit]
  unfold magnitudeText
  simp only
  split
  · next hinf =>
    have hexp : format.exponentField bits <<< format.fractionBits = format.infinity := by
      rw [hinf, infinity]
    rw [hexp]
    split
    · next hzero =>
      rw [hzero, Nat.add_zero]
      exact ⟨rfl, Text.isWord_of_all (by decide), rfl⟩
    · next hzero =>
      split
      · next hquiet =>
        rw [hquiet]
        exact ⟨rfl, Text.isWord_of_all (by decide), rfl⟩
      · exact reads_nan hf (Nat.pos_of_ne_zero hzero)
  · next hinf =>
    rw [Nat.one_shiftLeft] at hinf
    split
    · next hexp =>
      rw [hexp, Nat.zero_shiftLeft, Nat.zero_add]
      split
      · next hzero =>
        rw [hzero]
        exact ⟨rfl, Text.isWord_of_all (by decide), rfl⟩
      · next hzero => exact reads_subnormalText hn hf (Nat.pos_of_ne_zero hzero) (by omega)
    · next hexp => exact reads_normal hn hf (Nat.pos_of_ne_zero hexp) (by omega)

theorem withSign_isNegative {format : FloatFormat} {bits : Nat} (h : bits < 2 * format.signBit) :
    format.withSign (format.isNegative bits) (bits % format.signBit) = bits := by
  by_cases hneg : format.signBit ≤ bits
  · have hmod : bits % format.signBit = bits - format.signBit := by
      rw [Nat.mod_eq_sub_mod hneg, Nat.mod_eq_of_lt (by omega)]
    rw [withSign, isNegative, if_pos (decide_eq_true hneg), hmod, Nat.add_sub_cancel' hneg]
  · rw [withSign, isNegative, if_neg (by simpa using hneg), Nat.mod_eq_of_lt (by omega)]

theorem toList_text (format : FloatFormat) (bits : Nat) :
    (format.text bits).toList =
      (if format.isNegative bits then ['-'] else []) ++ (format.magnitudeText bits).toList := by
  rw [text, String.toList_append]
  congr 1
  split <;> rfl

/-- The text of a bit pattern is read as that bit pattern. -/
theorem ofText?_text {format : FloatFormat} (hn : format.Narrow) {bits : Nat}
    (h : bits < 2 * format.signBit) : format.ofText? (format.text bits).toList = some bits := by
  obtain ⟨hread, -, hunsigned⟩ := reads_magnitudeText hn bits
  have hsplit : splitSign (format.text bits).toList =
      (format.isNegative bits, (format.magnitudeText bits).toList) := by
    rw [toList_text]
    cases format.isNegative bits with
    | true => rfl
    | false => exact hunsigned
  unfold ofText?
  simp only [hsplit, hread, Option.map_some, withSign_isNegative h]

theorem isWord_text {format : FloatFormat} (hn : format.Narrow) (bits : Nat) :
    Text.IsWord (format.text bits).toList := by
  have hword := (reads_magnitudeText hn bits).word
  rw [toList_text]
  cases format.isNegative bits with
  | true =>
    have hsign : Text.IsWord ['-'] := Text.isWord_of_all (by decide)
    exact hsign.append hword.2
  | false => exact hword

theorem narrow_single : single.Narrow := by unfold Narrow; decide

theorem narrow_double : double.Narrow := by unfold Narrow; decide

end FlatWasm.FloatFormat
