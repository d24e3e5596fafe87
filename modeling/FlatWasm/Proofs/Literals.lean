import FlatWasm.Proofs.Checked
import FlatWasm.Proofs.Formats

/-!
# Signed literals

A literal is a magnitude with or without a minus sign in front. What it denotes is settled by the
magnitude, the sign and the mark of hexadecimal digits, and lies in the range of two's complement.
So a word of that many bits holds it, and each value of such a word has two literals at least: its
decimal text, and the hexadecimal digits of its bits.

In words of 64 bits the same number comes out. The magnitude is negated modulo the size of a word,
a bit pattern has its sign spread by a shift up and down again, and no shift is by 64 bits or more.
-/

namespace FlatWasm

namespace Numeral

/-- The text without the minus sign in front of it, if it has one. -/
def unsignedPart (text : List Char) : List Char :=
  if ['-'].isPrefixOf text then text.tail else text

/-- What a magnitude stands for in `bits` bits, behind a minus sign or not, and behind the mark of
hexadecimal digits or not. -/
def denoted (bits : Nat) (negative marked : Bool) (magnitude : Nat) : Option Int :=
  if negative then
    if magnitude ≤ 2 ^ (bits - 1) then some (-(magnitude : Int)) else none
  else if magnitude < 2 ^ (bits - 1) then some (magnitude : Int)
  else if marked ∧ magnitude < 2 ^ bits then some ((magnitude : Int) - 2 ^ bits)
  else none

theorem isPrefixOf_eq_false {front text : List Char} (h : ∀ rest, text ≠ front ++ rest) :
    front.isPrefixOf text = false := by
  rw [Bool.eq_false_iff, Ne, List.isPrefixOf_iff_prefix]
  intro hprefix
  obtain ⟨rest, rfl⟩ := hprefix
  exact h rest rfl

theorem isSome_hexMark? (text : List Char) :
    (hexMark? text).isSome = ['0', 'x'].isPrefixOf text := by
  unfold hexMark?
  split
  · rfl
  · next hne => rw [Option.isSome_none, isPrefixOf_eq_false hne]

theorem signedLiteral?_eq (bits : Nat) (text : List Char) :
    signedLiteral? bits text = (literal? (unsignedPart text)).bind
      (denoted bits (['-'].isPrefixOf text) (['0', 'x'].isPrefixOf text)) := by
  unfold signedLiteral?
  simp only [Nat.one_shiftLeft]
  split
  · rfl
  · next hne =>
    rw [unsignedPart, isPrefixOf_eq_false hne, isSome_hexMark?, if_neg Bool.false_ne_true]
    congr 1
    funext magnitude
    simp [denoted]

theorem literal?_lt {text : List Char} {n : Nat} (h : literal? text = some n) : n < 2 ^ 64 := by
  rw [literal?] at h
  split at h <;> exact unsigned?_lt h

variable {bits magnitude : Nat} {negative marked : Bool}

/-- Whatever is denoted lies in the range of two's complement. -/
theorem denoted_bounds {i : Int} (hb : 1 ≤ bits)
    (h : denoted bits negative marked magnitude = some i) :
    -2 ^ (bits - 1) ≤ i ∧ i < 2 ^ (bits - 1) := by
  have hdouble : (2 : Int) * 2 ^ (bits - 1) = 2 ^ bits := mul_pow_sub_one (by omega) 2
  have hpos : (0 : Int) < 2 ^ (bits - 1) := by positivity
  have hcast : ((2 ^ (bits - 1) : Nat) : Int) = 2 ^ (bits - 1) := by norm_cast
  have hcast' : ((2 ^ bits : Nat) : Int) = 2 ^ bits := by norm_cast
  rw [denoted] at h
  split_ifs at h <;> cases h <;> omega

end Numeral

/-! ## Words of 64 bits -/

namespace Checked

/-- A shift that fills the word up with its sign bit. -/
def shiftRightSigned {width : Nat} (word : BitVec width) (amount : Nat) : Option (BitVec width) :=
  if amount < width then some (word.sshiftRight amount) else none

/-- Whether a value is below the bound of its width. A word cannot hold the bound of the widest
literals, and they need none. -/
def fitsWidth (bits : Nat) (value : BitVec 64) : Option Bool :=
  if bits = 64 then some true else (shiftLeft 1 bits).map fun bound => decide (value < bound)

/-- What a magnitude stands for, as a word. -/
def signedWord (bits : Nat) (negative marked : Bool) (value : BitVec 64) :
    Option (Option (BitVec 64)) := do
  let half ← shiftLeft (1 : BitVec 64) (← subtract bits 1)
  if negative then return if value ≤ half then some (-value) else none
  else if value < half then return some value
  else if !marked then return none
  else if ← fitsWidth bits value then
    let spare ← subtract 64 bits
    let raised ← shiftLeft value spare
    return some (← shiftRightSigned raised spare)
  else return none

/-- A signed literal as a word. A text that is refused has the result `none`, which is not the same
as an operation without a result. -/
def signedLiteral (bits : Nat) (text : List Char) : Option (Option (BitVec 64)) :=
  (Numeral.literal? (Numeral.unsignedPart text)).elim (some none) fun magnitude =>
    signedWord bits (['-'].isPrefixOf text) (['0', 'x'].isPrefixOf text) (BitVec.ofNat 64 magnitude)

theorem shiftLeft_one {amount : Nat} (h : amount < 64) :
    shiftLeft (1 : BitVec 64) amount = some (BitVec.twoPow 64 amount) := by
  rw [shiftLeft, if_pos h, BitVec.twoPow_eq]
  rfl

variable {bits n : Nat}

theorem ofNat_le_twoPow_iff {amount : Nat} (h : amount < 64) (hn : n < 2 ^ 64) :
    BitVec.ofNat 64 n ≤ BitVec.twoPow 64 amount ↔ n ≤ 2 ^ amount := by
  rw [BitVec.le_def, BitVec.toNat_twoPow_of_lt h, BitVec.toNat_ofNat, Nat.mod_eq_of_lt hn]

theorem ofNat_lt_twoPow_iff {amount : Nat} (h : amount < 64) (hn : n < 2 ^ 64) :
    BitVec.ofNat 64 n < BitVec.twoPow 64 amount ↔ n < 2 ^ amount := by
  rw [BitVec.lt_def, BitVec.toNat_twoPow_of_lt h, BitVec.toNat_ofNat, Nat.mod_eq_of_lt hn]

theorem fitsWidth_eq (hb : bits ≤ 64) (hn : n < 2 ^ 64) :
    fitsWidth bits (BitVec.ofNat 64 n) = some (decide (n < 2 ^ bits)) := by
  unfold fitsWidth
  split_ifs with hwide
  · rw [hwide, decide_eq_true hn]
  · have hlt : bits < 64 := by omega
    rw [shiftLeft_one hlt, Option.map_some, decide_eq_decide.mpr (ofNat_lt_twoPow_iff hlt hn)]

theorem toInt_ofNat_of_lt (h : n < 2 ^ 63) : (BitVec.ofNat 64 n).toInt = n := by
  rw [← BitVec.ofInt_natCast, BitVec.toInt_ofInt]
  apply Int.bmod_eq_of_le <;> omega

/-- Negation in a word is exact also for the magnitude of the least number, which stays as it is. -/
theorem toInt_neg_ofNat (h : n ≤ 2 ^ 63) : (-BitVec.ofNat 64 n).toInt = -(n : Int) := by
  rw [← BitVec.ofInt_natCast, ← BitVec.ofInt_neg, BitVec.toInt_ofInt]
  apply Int.bmod_eq_of_le <;> omega

/-- Shifted up, a pattern with its top bit set is a negative word. -/
theorem toInt_raised (hb : 1 ≤ bits) (hb' : bits ≤ 64) (hl : 2 ^ (bits - 1) ≤ n)
    (hu : n < 2 ^ bits) :
    (BitVec.ofNat 64 n <<< (64 - bits)).toInt = (n - 2 ^ bits) * 2 ^ (64 - bits) := by
  have hdouble : (2 : Int) * 2 ^ (bits - 1) = 2 ^ bits := mul_pow_sub_one (by omega) 2
  have hlow : -2 ^ (bits - 1) ≤ (n : Int) - 2 ^ bits := by
    have hcast : (2 : Int) ^ (bits - 1) ≤ n := by exact_mod_cast hl
    omega
  have hhigh : (n : Int) - 2 ^ bits < 0 := by
    have hcast : (n : Int) < 2 ^ bits := by exact_mod_cast hu
    omega
  have hleast : -2 ^ 63 ≤ ((n : Int) - 2 ^ bits) * 2 ^ (64 - bits) :=
    calc (-2 ^ 63 : Int) = -2 ^ (bits - 1) * 2 ^ (64 - bits) := by
          rw [neg_mul, ← pow_add, show bits - 1 + (64 - bits) = 63 by omega]
      _ ≤ (n - 2 ^ bits) * 2 ^ (64 - bits) := mul_le_mul_of_nonneg_right hlow (by positivity)
  have hneg : ((n : Int) - 2 ^ bits) * 2 ^ (64 - bits) < 0 :=
    mul_neg_of_neg_of_pos hhigh (by positivity)
  -- what the shift loses is one bit, and with it once the size of a word
  have hwrap : (n : Int) * 2 ^ (64 - bits) =
      (n - 2 ^ bits) * 2 ^ (64 - bits) + ((2 ^ 64 : Nat) : Int) * 1 := by
    have hsize : (2 : Int) ^ bits * 2 ^ (64 - bits) = ((2 ^ 64 : Nat) : Int) := by
      rw [← pow_add, Nat.add_sub_cancel' hb']
      norm_cast
    rw [← hsize]
    ring
  rw [← BitVec.ofInt_natCast, shiftLeft_ofInt, BitVec.toInt_ofInt, hwrap, Int.add_mul_bmod_self_left]
  apply Int.bmod_eq_of_le <;> omega

/-- Shifted down again, it is itself less the size of the pattern. -/
theorem toInt_spread (hb : 1 ≤ bits) (hb' : bits ≤ 64) (hl : 2 ^ (bits - 1) ≤ n)
    (hu : n < 2 ^ bits) :
    ((BitVec.ofNat 64 n <<< (64 - bits)).sshiftRight (64 - bits)).toInt = n - 2 ^ bits := by
  rw [BitVec.toInt_sshiftRight, Int.shiftRight_eq_div_pow, toInt_raised hb hb' hl hu]
  push_cast
  exact Int.mul_ediv_cancel _ (by positivity)

theorem map_signedWord (hb : 1 ≤ bits) (hb' : bits ≤ 64) (hn : n < 2 ^ 64)
    (negative marked : Bool) :
    (signedWord bits negative marked (BitVec.ofNat 64 n)).map (Option.map BitVec.toInt) =
      some (Numeral.denoted bits negative marked n) := by
  have hpow : 2 ^ (bits - 1) ≤ 2 ^ 63 := Nat.pow_le_pow_right (by decide) (by omega)
  have htop : bits - 1 < 64 := by omega
  have hspare : 64 - bits < 64 := by omega
  -- every partial operation has its result before the cases are told apart
  unfold signedWord Numeral.denoted
  simp only [subtract_eq hb, subtract_eq hb', shiftLeft_one htop, Option.bind_eq_bind,
    Option.bind_some, ofNat_le_twoPow_iff htop hn, ofNat_lt_twoPow_iff htop hn, fitsWidth_eq hb' hn]
  cases negative with
  | true =>
    by_cases hle : n ≤ 2 ^ (bits - 1)
    · simp [hle, toInt_neg_ofNat (Nat.le_trans hle hpow)]
    · simp [hle]
  | false =>
    by_cases hlow : n < 2 ^ (bits - 1)
    · simp [hlow, toInt_ofNat_of_lt (Nat.lt_of_lt_of_le hlow hpow)]
    cases marked with
    | false => simp [hlow]
    | true =>
      by_cases hfits : n < 2 ^ bits
      · have hspread := toInt_spread hb hb' (Nat.not_lt.mp hlow) hfits
        simp [hlow, hfits, shiftLeft, shiftRightSigned, hspare, hspread]
      · simp [hlow, hfits]

/-- No operation is without a result, and the word is the number that the literal denotes. -/
theorem map_signedLiteral (hb : 1 ≤ bits) (hb' : bits ≤ 64) (text : List Char) :
    (signedLiteral bits text).map (Option.map BitVec.toInt) =
      some (Numeral.signedLiteral? bits text) := by
  rw [signedLiteral, Numeral.signedLiteral?_eq]
  cases hm : Numeral.literal? (Numeral.unsignedPart text) with
  | none => rfl
  | some magnitude =>
    exact map_signedWord hb hb' (Numeral.literal?_lt hm) _ _

end Checked

/-! ## Texts of a value -/

namespace Numeral

/-- Hexadecimal digits of either case, which zeros may precede. -/
def Hexadecimal (digits : List Char) (n : Nat) : Prop :=
  ∃ zeros, digits.map Char.toLower = List.replicate zeros '0' ++ Nat.toDigits 16 n

variable {digits : List Char} {bits n : Nat}

theorem readBehind_toLower (value : Nat) (digits : List Char) :
    readBehind 16 value (digits.map Char.toLower) = readBehind 16 value digits := by
  have hdigit (c : Char) : digit? 16 c.toLower = digit? 16 c := by
    rw [digit?, digit?, Hex.digit?_toLower]
  rw [readBehind, readBehind, List.foldlM_map]
  simp only [hdigit]

theorem Hexadecimal.digits? (h : Hexadecimal digits n) : digits? 16 digits = some n := by
  obtain ⟨zeros, hzeros⟩ := h
  have hne : digits ≠ [] := by
    intro hnil
    rw [hnil, List.map_nil] at hzeros
    exact Nat.toDigits_ne_nil (List.append_eq_nil_iff.mp hzeros.symm).2
  rw [digits?_eq_readBehind hne, ← readBehind_toLower, hzeros, readBehind_append, readBehind_zeros,
    Option.bind_some, Nat.zero_mul, readBehind_toDigits (by decide) (by decide)]

theorem Hexadecimal.plus_notMem (h : Hexadecimal digits n) : '+' ∉ digits := by
  obtain ⟨zeros, hzeros⟩ := h
  intro hplus
  have hlower := List.mem_map_of_mem (f := Char.toLower) hplus
  rw [hzeros, List.mem_append] at hlower
  rcases hlower with hzero | hdigit
  · exact absurd (List.eq_of_mem_replicate hzero) (by decide)
  · exact notMem_toDigits (by decide) (fun d => Nat.digitChar_ne '+' (by decide)) hdigit

theorem Hexadecimal.literal? (h : Hexadecimal digits n) (hn : n < 2 ^ 64) :
    literal? ('0' :: 'x' :: digits) = some n :=
  unsigned?_of_digits? h.plus_notMem h.digits? hn

/-- The bits of a word, in hexadecimal digits, are read as the number that the word holds. -/
theorem signedLiteral?_pattern (hb : 1 ≤ bits) (hb' : bits ≤ 64) (word : BitVec bits)
    (h : Hexadecimal digits word.toNat) :
    signedLiteral? bits ('0' :: 'x' :: digits) = some word.toInt := by
  have hword := word.isLt
  have hread := h.literal? (Nat.lt_of_lt_of_le hword (Nat.pow_le_pow_right (by decide) hb'))
  have hdouble : 2 * 2 ^ (bits - 1) = 2 ^ bits := mul_pow_sub_one (by omega) 2
  rw [signedLiteral?_eq]
  show (literal? ('0' :: 'x' :: digits)).bind (denoted bits false true) = _
  rw [hread, Option.bind_some, denoted, if_neg Bool.false_ne_true, BitVec.toInt_eq_toNat_cond]
  by_cases hlow : word.toNat < 2 ^ (bits - 1)
  · have hlow' : 2 * word.toNat < 2 ^ bits := by omega
    rw [if_pos hlow, if_pos hlow']
  · have hhigh : ¬ 2 * word.toNat < 2 ^ bits := by omega
    rw [if_neg hlow, if_pos ⟨rfl, hword⟩, if_neg hhigh]
    norm_cast

end Numeral

/-! ## Exactness -/

namespace Numeral

variable {bits : Nat} {text : List Char}

theorem signedLiteral?_bounds {i : Int} (hb : 1 ≤ bits) (h : signedLiteral? bits text = some i) :
    -2 ^ (bits - 1) ≤ i ∧ i < 2 ^ (bits - 1) := by
  rw [signedLiteral?_eq] at h
  obtain ⟨magnitude, -, hdenoted⟩ := Option.bind_eq_some_iff.mp h
  exact denoted_bounds hb hdenoted

/-- A constant made from a literal holds the number of the literal, where the type of the constant
holds all numbers of its width. -/
theorem signedLiteral?_eq_some_iff {α : Type} {ofInt : Int → α} {toInt : α → Int}
    {make : α → Constant} (hb : 1 ≤ bits) (hmake : Function.Injective make)
    (hback : ∀ i, -2 ^ (bits - 1) ≤ i → i < 2 ^ (bits - 1) → toInt (ofInt i) = i) {i : Int} :
    signedLiteral? bits text = some i ↔
      ∃ value, (signedLiteral? bits text).map (fun n => make (ofInt n)) = some (make value) ∧
        toInt value = i := by
  constructor
  · intro h
    obtain ⟨hl, hu⟩ := signedLiteral?_bounds hb h
    exact ⟨ofInt i, by rw [h, Option.map_some], hback i hl hu⟩
  · intro h
    obtain ⟨value, hmade, rfl⟩ := h
    obtain ⟨n, hn, hvalue⟩ := Option.map_eq_some_iff.mp hmade
    obtain ⟨hl, hu⟩ := signedLiteral?_bounds hb hn
    rw [hn, ← hmake hvalue, hback n hl hu]

/-- All that is said of one literal. Its value is what the magnitude denotes, if the text behind the
sign is one; the value is in range; and computed in words it is the same. -/
structure ReadsSigned (bits : Nat) (text : List Char) : Prop where
  value : signedLiteral? bits text = (literal? (unsignedPart text)).bind
    (denoted bits (['-'].isPrefixOf text) (['0', 'x'].isPrefixOf text))
  range : ∀ i, signedLiteral? bits text = some i → -2 ^ (bits - 1) ≤ i ∧ i < 2 ^ (bits - 1)
  words : (Checked.signedLiteral bits text).map (Option.map BitVec.toInt) =
    some (signedLiteral? bits text)

end Numeral

open Numeral in
/-- Signed literals of every width denote what their magnitude, sign and mark say, and nothing out
of range. A constant holds the very number of its literal. Each number of 32 or 64 bits is the value
of its decimal text, and of the hexadecimal digits of its bits. -/
theorem signed_literals_exact (floats : FloatCodec) :
    (∀ bits, 1 ≤ bits → bits ≤ 64 → ∀ text, ReadsSigned bits text) ∧
    (∀ text i, signedLiteral? 32 text = some i ↔
      ∃ value : Int32, Assembly.constant? floats .i32 text = some (.i32 value) ∧ value.toInt = i) ∧
    (∀ text i, signedLiteral? 64 text = some i ↔
      ∃ value : Int64, Assembly.constant? floats .i64 text = some (.i64 value) ∧ value.toInt = i) ∧
    (∀ value : Int32, signedLiteral? 32 (toString value.toInt).toList = some value.toInt ∧
      ∀ digits, Hexadecimal digits value.toUInt32.toNat →
        signedLiteral? 32 ('0' :: 'x' :: digits) = some value.toInt) ∧
    ∀ value : Int64, signedLiteral? 64 (toString value.toInt).toList = some value.toInt ∧
      ∀ digits, Hexadecimal digits value.toUInt64.toNat →
        signedLiteral? 64 ('0' :: 'x' :: digits) = some value.toInt := by
  refine ⟨?_, ?_, ?_, ?_, ?_⟩
  · intro bits hb hb' text
    exact ⟨signedLiteral?_eq bits text, fun i => signedLiteral?_bounds hb,
      Checked.map_signedLiteral hb hb' text⟩
  · intro text i
    exact signedLiteral?_eq_some_iff (by decide) (fun _ _ => Constant.i32.inj)
      fun i => Int32.toInt_ofInt_of_le
  · intro text i
    exact signedLiteral?_eq_some_iff (by decide) (fun _ _ => Constant.i64.inj)
      fun i => Int64.toInt_ofInt_of_le
  · intro value
    refine ⟨signedLiteral?_toString (by decide) value.le_toInt value.toInt_lt, ?_⟩
    intro digits h
    exact signedLiteral?_pattern (by decide) (by decide) value.toBitVec h
  · intro value
    refine ⟨signedLiteral?_toString (by decide) value.le_toInt value.toInt_lt, ?_⟩
    intro digits h
    exact signedLiteral?_pattern (by decide) (by decide) value.toBitVec h

open Numeral in
/-- The least number of 64 bits, whose word is its own negation, and the bits of -1, padded and in
letters of both cases. -/
theorem signed_literals_exact_extremes :
    ReadsSigned 64 "-9223372036854775808".toList ∧
      Checked.signedLiteral 64 "-9223372036854775808".toList = some (some 0x8000000000000000) ∧
      Hexadecimal "00FfFfFfFf".toList 4294967295 ∧
      signedLiteral? 32 "0x00FfFfFfFf".toList = some (-1) := by
  obtain ⟨hreads, -, -, hvalues, -⟩ := signed_literals_exact .hexadecimal
  have hdigits : Hexadecimal "00FfFfFfFf".toList 4294967295 := ⟨2, by decide⟩
  exact ⟨hreads 64 (by decide) (by decide) _, by decide +kernel, hdigits,
    (hvalues (-1)).2 _ hdigits⟩

end FlatWasm
