import FlatWasm.FloatFormat

/-!
# Rounding to a format

A positive ratio is rounded to the nearest number of a format, ties to the even significand. All
arithmetic is exact, on natural numbers.
-/

namespace FlatWasm.FloatFormat

/-- The natural number nearest to a quotient; a tie goes to the even one. -/
def nearestQuotient (num den : Nat) : Nat :=
  let quotient := num / den
  let twice := 2 * (num % den)
  if den < twice || (twice == den && quotient % 2 == 1) then quotient + 1 else quotient

/-- `num / den * 2 ^ shift` as a numerator and a denominator. -/
def scaled (num den : Nat) (shift : Int) : Nat × Nat :=
  (num <<< shift.toNat, den <<< (-shift).toNat)

/-- The largest `e` with `2 ^ e ≤ num / den`. -/
def binaryExponent (num den : Nat) : Int :=
  let estimate : Int := (num.log2 : Int) - den.log2
  let (n, d) := scaled num den (-estimate)
  if n < d then estimate - 1 else estimate

/-- A number rounded to a format: its significand counts units of the last place at an exponent
that is `excess` above the smallest. A significand of one bit more than the format has stands for
a carry into the exponent. -/
structure Rounded where
  excess : Nat
  significand : Nat
deriving DecidableEq

def round (format : FloatFormat) (num den : Nat) : Rounded :=
  let exponent := max (binaryExponent num den) format.minExponent
  let (n, d) := scaled num den (format.fractionBits - exponent)
  ⟨(exponent - format.minExponent).toNat, nearestQuotient n d⟩

/-- The leading bit of a significand counts one in the exponent field, so the sum of the two fields
is right for normal and subnormal numbers and for a carry. Overflow gives infinity. -/
def ofRounded (format : FloatFormat) (rounded : Rounded) : Nat :=
  min (rounded.excess <<< format.fractionBits + rounded.significand) format.infinity

end FlatWasm.FloatFormat
