import FlatWasm.FloatFormat.Parse
import Mathlib

/-!
# Rounding leaves the numbers of a format alone

A pair of a significand and an exponent stands for a rational number. Where that number has a place
in the format, rounding it gives the pair back, from whatever ratio it is computed, and packing
the pair is reading the number. Nothing is said of numbers between those of the format.
-/

namespace FlatWasm.FloatFormat

/-! ## Ratios and powers of two -/

theorem scaled_ratio (num den : Nat) (shift : Int) :
    ((scaled num den shift).1 : ℚ) / (scaled num den shift).2 = num / den * 2 ^ shift := by
  have hshift : (2 : ℚ) ^ shift = 2 ^ shift.toNat / 2 ^ (-shift).toNat := by
    rw [← zpow_natCast, ← zpow_natCast, ← zpow_sub₀ two_ne_zero, Int.toNat_sub_toNat_neg]
  rw [scaled, Nat.shiftLeft_eq, Nat.shiftLeft_eq, hshift]
  push_cast
  exact mul_div_mul_comm ..

theorem scaled_den_pos {num den : Nat} {shift : Int} (hd : 0 < den) :
    0 < (scaled num den shift).2 := by
  show 0 < den <<< (-shift).toNat
  rw [Nat.shiftLeft_eq]
  exact Nat.mul_pos hd (Nat.two_pow_pos _)

theorem eq_mul_of_ratio {num den quotient : Nat} (hd : 0 < den)
    (h : (num : ℚ) / den = quotient) : num = quotient * den := by
  have hne : (den : ℚ) ≠ 0 := by exact_mod_cast hd.ne'
  rw [div_eq_iff hne] at h
  exact_mod_cast h

theorem nearestQuotient_eq {num den quotient : Nat} (hd : 0 < den)
    (h : (num : ℚ) / den = quotient) : nearestQuotient num den = quotient := by
  obtain rfl := eq_mul_of_ratio hd h
  simp [nearestQuotient, Nat.mul_div_cancel _ hd, hd.ne]

theorem two_zpow_log2_le {n : Nat} (hn : n ≠ 0) : (2 : ℚ) ^ (n.log2 : Int) ≤ n := by
  rw [zpow_natCast]
  exact_mod_cast Nat.log2_self_le hn

theorem lt_two_zpow_log2 (n : Nat) : (n : ℚ) < 2 ^ ((n.log2 : Int) + 1) := by
  have h : n < 2 ^ (n.log2 + 1) := Nat.lt_log2_self
  have hcast : ((n.log2 : Int) + 1) = ((n.log2 + 1 : Nat) : Int) := by push_cast; rfl
  rw [hcast, zpow_natCast]
  exact_mod_cast h

/-- A number lies between one pair of neighbouring powers of two only. -/
theorem exponent_unique {value : ℚ} {e e' : Int} (hl : 2 ^ e ≤ value) (hu : value < 2 ^ (e + 1))
    (hl' : 2 ^ e' ≤ value) (hu' : value < 2 ^ (e' + 1)) : e = e' := by
  have h : e < e' + 1 := (zpow_lt_zpow_iff_right₀ one_lt_two).mp (hl.trans_lt hu')
  have h' : e' < e + 1 := (zpow_lt_zpow_iff_right₀ one_lt_two).mp (hl'.trans_lt hu)
  omega

theorem two_zpow_le_ratio {num den : Nat} (hn : 0 < num) (hd : 0 < den) :
    (2 : ℚ) ^ ((num.log2 : Int) - den.log2 - 1) ≤ num / den := by
  have hdpos : (0 : ℚ) < den := by exact_mod_cast hd
  rw [le_div_iff₀ hdpos]
  calc (2 : ℚ) ^ ((num.log2 : Int) - den.log2 - 1) * den
      ≤ 2 ^ ((num.log2 : Int) - den.log2 - 1) * 2 ^ ((den.log2 : Int) + 1) := by
        gcongr
        exact (lt_two_zpow_log2 den).le
    _ = 2 ^ (num.log2 : Int) := by
        rw [← zpow_add₀ two_ne_zero]
        congr 1
        omega
    _ ≤ num := two_zpow_log2_le hn.ne'

theorem ratio_lt_two_zpow {num den : Nat} (hd : 0 < den) :
    (num / den : ℚ) < 2 ^ ((num.log2 : Int) - den.log2 + 1) := by
  have hdpos : (0 : ℚ) < den := by exact_mod_cast hd
  rw [div_lt_iff₀ hdpos]
  calc (num : ℚ) < 2 ^ ((num.log2 : Int) + 1) := lt_two_zpow_log2 num
    _ = 2 ^ ((num.log2 : Int) - den.log2 + 1) * 2 ^ (den.log2 : Int) := by
        rw [← zpow_add₀ two_ne_zero]
        congr 1
        omega
    _ ≤ 2 ^ ((num.log2 : Int) - den.log2 + 1) * den := by
        gcongr
        exact two_zpow_log2_le hd.ne'

theorem scaled_lt_iff {num den : Nat} (hd : 0 < den) (e : Int) :
    (scaled num den (-e)).1 < (scaled num den (-e)).2 ↔ (num / den : ℚ) < 2 ^ e := by
  have hdpos : (0 : ℚ) < ((scaled num den (-e)).2 : ℚ) := by exact_mod_cast scaled_den_pos hd
  rw [← @Nat.cast_lt ℚ, ← div_lt_one hdpos, scaled_ratio, zpow_neg, ← div_eq_mul_inv,
    div_lt_one (zpow_pos two_pos _)]

/-- The binary exponent of a positive ratio is that of the power of two at or below it. -/
theorem binaryExponent_spec {num den : Nat} (hn : 0 < num) (hd : 0 < den) :
    (2 : ℚ) ^ binaryExponent num den ≤ num / den ∧
      (num / den : ℚ) < 2 ^ (binaryExponent num den + 1) := by
  -- the estimate from the logarithms is right or one too large, and one comparison tells
  have hcompare := @scaled_lt_iff num den hd ((num.log2 : Int) - den.log2)
  unfold binaryExponent
  dsimp only
  split
  · next h =>
    rw [sub_add_cancel]
    exact ⟨two_zpow_le_ratio hn hd, hcompare.mp h⟩
  · next h => exact ⟨not_lt.mp fun hlt => h (hcompare.mpr hlt), ratio_lt_two_zpow hd⟩

/-! ## Numbers of a format -/

/-- The number that a significand stands for at an exponent. -/
def Rounded.value (format : FloatFormat) (rounded : Rounded) : ℚ :=
  rounded.significand * 2 ^ (format.minExponent + rounded.excess - format.fractionBits)

/-- Positive numbers that the format has: the leading bit is there unless the exponent is the
smallest, and the packed number is below infinity. -/
structure Rounded.Fits (format : FloatFormat) (rounded : Rounded) : Prop where
  pos : 0 < rounded.significand
  lt : rounded.significand < 2 ^ (format.fractionBits + 1)
  lead : 2 ^ format.fractionBits ≤ rounded.significand ∨ rounded.excess = 0
  finite : rounded.excess <<< format.fractionBits + rounded.significand < format.infinity

namespace Rounded

variable (format : FloatFormat) {rounded : Rounded}

theorem le_value {n : Nat} (h : 2 ^ n ≤ rounded.significand) :
    2 ^ (format.minExponent + rounded.excess - format.fractionBits + n) ≤ rounded.value format := by
  have hcast : (2 : ℚ) ^ n ≤ rounded.significand := by exact_mod_cast h
  rw [zpow_add₀ two_ne_zero, zpow_natCast, mul_comm, value]
  gcongr

theorem value_lt {n : Nat} (h : rounded.significand < 2 ^ n) :
    rounded.value format < 2 ^ (format.minExponent + rounded.excess - format.fractionBits + n) := by
  have hcast : (rounded.significand : ℚ) < 2 ^ n := by exact_mod_cast h
  rw [zpow_add₀ two_ne_zero, zpow_natCast, mul_comm (2 ^ _), value]
  gcongr

variable {format}

/-- A number with the leading bit has the exponent that its pair names; the others lie below the
normal numbers. -/
theorem Fits.exponent_cases (hf : rounded.Fits format) {e : Int} (hl : 2 ^ e ≤ rounded.value format)
    (hu : rounded.value format < 2 ^ (e + 1)) :
    (2 ^ format.fractionBits ≤ rounded.significand ∧ e = format.minExponent + rounded.excess) ∨
      (rounded.significand < 2 ^ format.fractionBits ∧ rounded.excess = 0 ∧
        e < format.minExponent) := by
  by_cases hlead : 2 ^ format.fractionBits ≤ rounded.significand
  · have hl' := le_value format hlead
    have hu' := value_lt format hf.lt
    rw [sub_add_cancel] at hl'
    rw [Nat.cast_add, Nat.cast_one, ← add_assoc, sub_add_cancel] at hu'
    exact .inl ⟨hlead, exponent_unique hl hu hl' hu'⟩
  · have hzero := hf.lead.resolve_left hlead
    have hu' := value_lt format (not_le.mp hlead)
    rw [sub_add_cancel, hzero, Nat.cast_zero, add_zero] at hu'
    exact .inr ⟨not_le.mp hlead, hzero,
      (zpow_lt_zpow_iff_right₀ one_lt_two).mp (hl.trans_lt hu')⟩

end Rounded

variable {format : FloatFormat} {rounded : Rounded}

theorem max_binaryExponent (hf : rounded.Fits format) {num den : Nat} (hn : 0 < num) (hd : 0 < den)
    (h : (num / den : ℚ) = rounded.value format) :
    max (binaryExponent num den) format.minExponent = format.minExponent + rounded.excess := by
  obtain ⟨hl, hu⟩ := binaryExponent_spec hn hd
  rw [h] at hl hu
  rcases hf.exponent_cases hl hu with ⟨-, he⟩ | ⟨-, hzero, he⟩ <;> omega

/-- Rounding finds the pair of a number of the format. -/
theorem round_eq (hf : rounded.Fits format) {num den : Nat} (hn : 0 < num) (hd : 0 < den)
    (h : (num / den : ℚ) = rounded.value format) : format.round num den = rounded := by
  have hexp := max_binaryExponent hf hn hd h
  have hratio := scaled_ratio num den (format.fractionBits - (format.minExponent + rounded.excess))
  have hexact : (num / den : ℚ) * 2 ^ (format.fractionBits - (format.minExponent + rounded.excess))
      = rounded.significand := by
    rw [h, Rounded.value, mul_assoc, ← zpow_add₀ two_ne_zero, sub_add_sub_cancel, sub_self,
      zpow_zero, mul_one]
  rw [hexact] at hratio
  unfold round
  simp only [hexp, nearestQuotient_eq (scaled_den_pos hd) hratio, add_sub_cancel_left,
    Int.toNat_natCast]

theorem ofRounded_eq (hf : rounded.Fits format) :
    format.ofRounded rounded = rounded.excess <<< format.fractionBits + rounded.significand :=
  min_eq_left hf.finite.le

/-- The exponent of a number of the format is at most the largest. -/
theorem exponent_le_max (hf : rounded.Fits format) {e : Int} (hl : 2 ^ e ≤ rounded.value format)
    (hu : rounded.value format < 2 ^ (e + 1)) : e ≤ format.maxExponent := by
  have hmin : format.minExponent = 1 - format.maxExponent := rfl
  rcases hf.exponent_cases hl hu with ⟨hlead, he⟩ | ⟨-, -, he⟩
  · -- the exponent field that the pair is packed to is below that of infinity
    have hfield : (rounded.excess + 1) * 2 ^ format.fractionBits <
        (2 ^ format.exponentBits - 1) * 2 ^ format.fractionBits := by
      calc (rounded.excess + 1) * 2 ^ format.fractionBits
          ≤ rounded.excess <<< format.fractionBits + rounded.significand := by
            rw [Nat.shiftLeft_eq, Nat.add_mul, Nat.one_mul]
            exact Nat.add_le_add_left hlead _
        _ < format.infinity := hf.finite
        _ = (2 ^ format.exponentBits - 1) * 2 ^ format.fractionBits := by
            rw [infinity, Nat.shiftLeft_eq, Nat.one_shiftLeft]
    have hexcess := Nat.lt_of_mul_lt_mul_right hfield
    have hmax : format.maxExponent = 2 ^ (format.exponentBits - 1) - 1 := by
      rw [maxExponent, Nat.one_shiftLeft]
    have hpow : 2 ^ format.exponentBits ≤ 2 * 2 ^ (format.exponentBits - 1) := by
      rw [← Nat.pow_succ']
      exact Nat.pow_le_pow_right (by decide) (by omega)
    have hpos : 0 < 2 ^ (format.exponentBits - 1) := Nat.two_pow_pos _
    omega
  · omega

/-- A number of the format is read from any mantissa and exponent that stand for it. -/
theorem ofBinary_eq (hf : rounded.Fits format) {mantissa : Nat} {exponent : Int}
    (h : (mantissa : ℚ) * 2 ^ exponent = rounded.value format) :
    format.ofBinary mantissa exponent =
      rounded.excess <<< format.fractionBits + rounded.significand := by
  have hpos : 0 < rounded.value format :=
    mul_pos (by exact_mod_cast hf.pos) (zpow_pos two_pos _)
  have hm : mantissa ≠ 0 := by
    rintro rfl
    rw [Nat.cast_zero, zero_mul] at h
    exact hpos.ne h
  -- the exponent of the number, as it is computed from the mantissa
  have hl : (2 : ℚ) ^ (mantissa.log2 + exponent) ≤ rounded.value format := by
    rw [← h, zpow_add₀ two_ne_zero]
    gcongr
    exact two_zpow_log2_le hm
  have hu : rounded.value format < 2 ^ (mantissa.log2 + exponent + 1) := by
    rw [← h, add_right_comm, zpow_add₀ two_ne_zero]
    gcongr
    exact lt_two_zpow_log2 mantissa
  have hlow : ¬ (mantissa.log2 + exponent < format.minExponent - format.fractionBits - 1) := by
    have hunit := (Rounded.le_value format (n := 0) hf.pos).trans_lt hu
    have := (zpow_lt_zpow_iff_right₀ one_lt_two).mp hunit
    omega
  have hhigh := exponent_le_max hf hl hu
  have hshape : ¬ (mantissa.log2 + exponent < format.minExponent ∧
      rounded.significand = 1 <<< format.fractionBits) := by
    rw [Nat.one_shiftLeft]
    rcases hf.exponent_cases hl hu with ⟨-, he⟩ | ⟨hlt, -, -⟩ <;> omega
  -- so neither the bounds nor the smallest normal number get in the way of rounding
  have hratio : ((scaled mantissa 1 exponent).1 : ℚ) / (scaled mantissa 1 exponent).2 =
      rounded.value format := by
    rw [scaled_ratio, Nat.cast_one, div_one, h]
  have hnum : 0 < (scaled mantissa 1 exponent).1 := by
    show 0 < mantissa <<< exponent.toNat
    rw [Nat.shiftLeft_eq]
    exact Nat.mul_pos (Nat.pos_of_ne_zero hm) (Nat.two_pow_pos _)
  have hround := round_eq hf hnum (scaled_den_pos Nat.one_pos) hratio
  unfold ofBinary
  simp only [hround, hm, hlow, not_lt.mpr hhigh, hshape, or_self, if_false, ofRounded_eq hf]

end FlatWasm.FloatFormat
