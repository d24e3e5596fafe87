import FlatWasm.Text.Numeral
import FlatWasm.Text.Words
import Mathlib.Tactic.IntervalCases

/-!
# Numbers written and read back

The digits of a number are read back as the number, in every base up to sixteen. Reading is taken
apart at any place between two digits: what was read before is the number that the other digits are
read behind.
-/

namespace FlatWasm

namespace Text

/-- Characters that neither divide words nor start a comment. -/
def isInner (c : Char) : Bool := !isBlank c && c != ';'

/-- A stretch of text that is one word wherever it stands between blanks. -/
def IsWord (text : List Char) : Prop := text ≠ [] ∧ ∀ c ∈ text, isInner c = true

theorem isWord_of_all {text : List Char} (h : (!text.isEmpty && text.all isInner) = true) :
    IsWord text := by
  rw [Bool.and_eq_true, List.all_eq_true] at h
  exact ⟨by simpa using h.1, h.2⟩

theorem IsWord.append {front back : List Char} (hf : IsWord front)
    (hb : ∀ c ∈ back, isInner c = true) : IsWord (front ++ back) := by
  refine ⟨by simp [hf.1], ?_⟩
  rw [List.forall_mem_append]
  exact ⟨hf.2, hb⟩

theorem splitFirst_append {p : Char → Bool} {front back : List Char} {c : Char}
    (hf : ∀ x ∈ front, p x = false) (hc : p c = true) :
    splitFirst p (front ++ c :: back) = (front, some back) := by
  have hkeep : ∀ x ∈ front, (!p x) = true := fun x hx => by rw [hf x hx]; rfl
  rw [splitFirst, List.takeWhile_append_of_pos hkeep, List.dropWhile_append_of_pos hkeep,
    List.takeWhile_cons_of_neg (by simp [hc]), List.dropWhile_cons_of_neg (by simp [hc]),
    List.append_nil, List.tail?_cons]

end Text

/-! ## Digits -/

theorem isInner_digitChar {d : Nat} (hd : d < 16) : Text.isInner (Nat.digitChar d) = true := by
  interval_cases d <;> decide

theorem mem_toDigits {base n : Nat} {c : Char} (hb : 1 < base) (hc : c ∈ Nat.toDigits base n) :
    ∃ d < base, c = Nat.digitChar d := by
  induction n using Nat.strong_induction_on with
  | _ n ih =>
    rw [Nat.toDigits_eq_if hb] at hc
    split at hc
    · next hn => exact ⟨n, hn, List.mem_singleton.mp hc⟩
    · next hn =>
      rcases List.mem_append.mp hc with hc | hc
      · exact ih (n / base) (Nat.div_lt_self (by omega) hb) hc
      · exact ⟨n % base, Nat.mod_lt _ (by omega), List.mem_singleton.mp hc⟩

theorem isWord_toDigits {base : Nat} (hb : 1 < base) (hb' : base ≤ 16) (n : Nat) :
    Text.IsWord (Nat.toDigits base n) := by
  refine ⟨Nat.toDigits_ne_nil, ?_⟩
  intro c hc
  obtain ⟨d, hd, rfl⟩ := mem_toDigits hb hc
  exact isInner_digitChar (by omega)

theorem notMem_toDigits {base n : Nat} (hb : 1 < base) {c : Char}
    (hc : ∀ d, Nat.digitChar d ≠ c) : c ∉ Nat.toDigits base n := by
  intro hm
  obtain ⟨d, -, rfl⟩ := mem_toDigits hb hm
  exact hc d rfl

namespace Numeral

theorem digit?_digitChar {base d : Nat} (hb : base ≤ 16) (hd : d < base) :
    digit? base (Nat.digitChar d) = some d := by
  have hhex : Hex.digit? (Nat.digitChar d) = some d := by
    have hd' : d < 16 := by omega
    interval_cases d <;> decide
  rw [digit?, hhex, Option.filter_some, if_pos (decide_eq_true hd)]

/-- The number that digits stand for when they follow those of `value`. -/
def readBehind (base value : Nat) (digits : List Char) : Option Nat :=
  digits.foldlM (fun value d => (digit? base d).map (base * value + ·)) value

theorem digits?_eq_readBehind {base : Nat} {digits : List Char} (h : digits ≠ []) :
    digits? base digits = readBehind base 0 digits := by
  cases digits with
  | nil => exact absurd rfl h
  | cons c rest => rfl

theorem readBehind_append (base value : Nat) (front back : List Char) :
    readBehind base value (front ++ back) =
      (readBehind base value front).bind fun value => readBehind base value back :=
  List.foldlM_append

theorem readBehind_digitChar {base d : Nat} (hb : base ≤ 16) (hd : d < base) (value : Nat) :
    readBehind base value [Nat.digitChar d] = some (base * value + d) := by
  simp [readBehind, digit?_digitChar hb hd]

theorem readBehind_toDigits {base : Nat} (hb : 1 < base) (hb' : base ≤ 16) (n : Nat) :
    readBehind base 0 (Nat.toDigits base n) = some n := by
  induction n using Nat.strong_induction_on with
  | _ n ih =>
    rw [Nat.toDigits_eq_if hb]
    split
    · next hn => rw [readBehind_digitChar hb' hn, Nat.mul_zero, Nat.zero_add]
    · next hn =>
      rw [readBehind_append, ih (n / base) (Nat.div_lt_self (by omega) hb), Option.bind_some,
        readBehind_digitChar hb' (Nat.mod_lt _ (by omega)), Nat.div_add_mod]

theorem readBehind_zeros (front n : Nat) :
    readBehind 16 front (List.replicate n '0') = some (front * 16 ^ n) := by
  induction n generalizing front with
  | zero => simp [readBehind]
  | succ n ih =>
    have hzero : readBehind 16 front ['0'] = some (16 * front + 0) :=
      readBehind_digitChar (d := 0) (by decide) (by decide) front
    rw [List.replicate_succ, ← List.singleton_append, readBehind_append, hzero, Option.bind_some, ih,
      Nat.add_zero, Nat.mul_comm 16 front, Nat.mul_assoc, ← Nat.pow_succ']

theorem digits?_toDigits {base : Nat} (hb : 1 < base) (hb' : base ≤ 16) (n : Nat) :
    digits? base (Nat.toDigits base n) = some n := by
  rw [digits?_eq_readBehind Nat.toDigits_ne_nil, readBehind_toDigits hb hb']

/-! ## Signs and marks -/

theorem unsigned?_of_digits? {base bits n : Nat} {digits : List Char} (hplus : '+' ∉ digits)
    (hd : digits? base digits = some n) (hn : n < 2 ^ bits) :
    unsigned? base bits digits = some n := by
  have hfits : decide (n < 1 <<< bits) = true := by rwa [decide_eq_true_eq, Nat.one_shiftLeft]
  unfold unsigned?
  split
  · simp at hplus
  · simp only [hd, Option.filter_some, hfits, if_true]

theorem unsigned?_lt {base bits n : Nat} {text : List Char}
    (h : unsigned? base bits text = some n) : n < 2 ^ bits := by
  have hfits := (Option.filter_eq_some_iff.mp h).2
  rwa [decide_eq_true_eq, Nat.one_shiftLeft] at hfits

theorem unsigned?_toDigits {base bits n : Nat} (hb : 1 < base) (hb' : base ≤ 16)
    (hn : n < 2 ^ bits) : unsigned? base bits (Nat.toDigits base n) = some n := by
  have hplus : '+' ∉ Nat.toDigits base n :=
    notMem_toDigits hb fun d => Nat.digitChar_ne '+' (by decide)
  exact unsigned?_of_digits? hplus (digits?_toDigits hb hb' n) hn

theorem hexMark?_eq_none {text : List Char} (h : 'x' ∉ text) : hexMark? text = none := by
  unfold hexMark?
  split
  · simp at h
  · rfl

theorem literal?_toDigits {n : Nat} (hn : n < 2 ^ 64) : literal? (Nat.toDigits 10 n) = some n := by
  have hx : 'x' ∉ Nat.toDigits 10 n :=
    notMem_toDigits (by decide) fun d => Nat.digitChar_ne 'x' (by decide)
  rw [literal?, hexMark?_eq_none hx]
  exact unsigned?_toDigits (by decide) (by decide) hn

end Numeral

theorem toList_toString_nat (n : Nat) : (toString n).toList = Nat.toDigits 10 n := by
  rw [Nat.toString_eq_ofList_toDigits, String.toList_ofList]

theorem toList_toString_int (i : Int) :
    (toString i).toList =
      if 0 ≤ i then Nat.toDigits 10 i.toNat else '-' :: Nat.toDigits 10 (-i).toNat := by
  rw [Int.toString_eq_repr, Int.repr_eq_if]
  split
  · rw [Nat.repr_eq_ofList_toDigits, String.toList_ofList]
  · rw [Nat.repr_eq_ofList_toDigits, String.toList_append, String.toList_ofList (l := Nat.toDigits ..)]
    rfl

theorem isWord_toString_int (i : Int) : Text.IsWord (toString i).toList := by
  have hdigits := @isWord_toDigits 10 (by decide) (by decide)
  rw [toList_toString_int]
  split
  · exact hdigits _
  · refine ⟨List.cons_ne_nil _ _, List.forall_mem_cons.mpr ⟨by decide, (hdigits _).2⟩⟩

namespace Numeral

theorem signedLiteral?_of_notMem {bits : Nat} {text : List Char} {n : Nat} (h : '-' ∉ text)
    (hl : literal? text = some n) (hn : n < 2 ^ (bits - 1)) :
    signedLiteral? bits text = some (n : Int) := by
  unfold signedLiteral?
  split
  · simp at h
  · rw [hl, Option.bind_some, if_pos (by rwa [Nat.one_shiftLeft])]

theorem signedLiteral?_minus {bits : Nat} {text : List Char} {n : Nat}
    (hl : literal? text = some n) (hn : n ≤ 2 ^ (bits - 1)) :
    signedLiteral? bits ('-' :: text) = some (-(n : Int)) := by
  rw [signedLiteral?, hl, Option.bind_some, if_pos (by rwa [Nat.one_shiftLeft])]

theorem signed?_toString {bits : Nat} {i : Int} (hl : -2 ^ (bits - 1) ≤ i)
    (hu : i < 2 ^ (bits - 1)) : signed? 10 bits (toString i).toList = some i := by
  have hcast : ((1 <<< (bits - 1) : Nat) : Int) = 2 ^ (bits - 1) := by
    rw [Nat.one_shiftLeft]
    norm_cast
  have hdigits := @digits?_toDigits 10 (by decide) (by decide)
  have hrange : (decide (-((1 <<< (bits - 1) : Nat) : Int) ≤ i) &&
      decide (i < ((1 <<< (bits - 1) : Nat) : Int))) = true := by
    rw [hcast, Bool.and_eq_true, decide_eq_true_eq, decide_eq_true_eq]
    exact ⟨hl, hu⟩
  rw [toList_toString_int]
  split
  · next h0 =>
    have hminus : '-' ∉ Nat.toDigits 10 i.toNat :=
      notMem_toDigits (by decide) fun d => Nat.digitChar_ne '-' (by decide)
    have hplus : '+' ∉ Nat.toDigits 10 i.toNat :=
      notMem_toDigits (by decide) fun d => Nat.digitChar_ne '+' (by decide)
    unfold signed?
    split
    · next heq => simp [heq] at hminus
    · next heq => simp [heq] at hplus
    · simp only [hdigits, Option.map_some, Int.ofNat_eq_natCast, Int.toNat_of_nonneg h0,
        Option.filter_some, hrange, if_true]
  · next h0 =>
    unfold signed?
    simp only [hdigits, Option.bind_eq_bind, Option.bind_some, Option.pure_def, Option.map_some,
      Int.toNat_of_nonneg (show 0 ≤ -i by omega), Int.neg_neg, Option.filter_some, hrange, if_true]

/-- The text of a number in the range of two's complement is read as that number. -/
theorem signedLiteral?_toString {bits : Nat} (hb : bits ≤ 64) {i : Int}
    (hl : -2 ^ (bits - 1) ≤ i) (hu : i < 2 ^ (bits - 1)) :
    signedLiteral? bits (toString i).toList = some i := by
  have hpow : 2 ^ (bits - 1) < 2 ^ 64 := by
    calc 2 ^ (bits - 1) ≤ 2 ^ 63 := Nat.pow_le_pow_right (by decide) (by omega)
      _ < 2 ^ 64 := by decide
  have hcast : ((2 ^ (bits - 1) : Nat) : Int) = 2 ^ (bits - 1) := by norm_cast
  have hminus : ∀ n, '-' ∉ Nat.toDigits 10 n :=
    fun n => notMem_toDigits (by decide) fun d => Nat.digitChar_ne '-' (by decide)
  rw [toList_toString_int]
  split
  · next h0 =>
    rw [signedLiteral?_of_notMem (hminus _) (literal?_toDigits (by omega)) (by omega),
      Int.toNat_of_nonneg h0]
  · next h0 =>
    rw [signedLiteral?_minus (literal?_toDigits (by omega)) (by omega),
      Int.toNat_of_nonneg (by omega), Int.neg_neg]

end Numeral

end FlatWasm
