import FlatWasm.FloatFormat.Rounding
import FlatWasm.Text.Numeral
import FlatWasm.Text.Words

/-!
# Reading floats

Floats are read from hexadecimal notation, from decimal notation, or by name. Both notations are
exact and rounded once. Numbers too large for the format become infinity, numbers too small zero.
-/

namespace FlatWasm.FloatFormat

/-- A leading sign, if there is one, and what follows it. -/
def splitSign : List Char → Bool × List Char
  | '-' :: rest => (true, rest)
  | '+' :: rest => (false, rest)
  | text => (false, text)

/-- The names of infinity and of the default NaN, in any case. -/
def named? (format : FloatFormat) (text : List Char) : Option Nat :=
  let name := text.map Char.toLower
  if name = "inf".toList ∨ name = "infinity".toList then some format.infinity
  else if name = "nan".toList then some format.nan
  else none

/-- A NaN given by its fraction, which must not be zero. -/
def payloadNan? (format : FloatFormat) (digits : List Char) : Option Nat :=
  ((Numeral.unsigned? 16 format.fractionBits digits).filter (· ≠ 0)).map (format.infinity + ·)

/-- `mantissa * 2 ^ exponent`. A number below the normal ones that rounds up to the smallest of them
comes out with the top bit of its fraction set as well, half as large again. -/
def ofBinary (format : FloatFormat) (mantissa : Nat) (exponent : Int) : Nat :=
  let top := mantissa.log2 + exponent
  if mantissa = 0 ∨ top < format.minExponent - format.fractionBits - 1 then 0
  else if format.maxExponent < top then format.infinity
  else
    let (num, den) := scaled mantissa 1 exponent
    let rounded := format.round num den
    if top < format.minExponent ∧ rounded.significand = 1 <<< format.fractionBits then
      1 <<< format.fractionBits + format.quietBit
    else format.ofRounded rounded

/-- A binary exponent; a plus sign may stand before its own sign. -/
def binaryExponent? : Option (List Char) → Option Int
  | none => some 0
  | some ('+' :: rest) => Numeral.signed? 10 64 rest
  | some text => Numeral.signed? 10 64 text

/-- Hexadecimal digits with a point, in which underscores may stand, and a binary exponent. -/
def hexadecimal? (format : FloatFormat) (text : List Char) : Option Nat :=
  let (mantissa, exponent) := Text.splitFirst (fun c => c == 'p' || c == 'P') text
  let (whole, part) := Text.splitFirst (· == '.') mantissa
  let whole := whole.filter (· ≠ '_')
  let part := (part.getD []).filter (· ≠ '_')
  match Numeral.digits? 16 (whole ++ part), binaryExponent? exponent with
  | some digits, some exponent => some (format.ofBinary digits (exponent - 4 * part.length))
  | _, _ => none

/-- `mantissa * 10 ^ exponent`, where the mantissa is below `10 ^ digits`. Ten is above the third
power of two, which settles extreme exponents without computing the number. -/
def ofDecimal (format : FloatFormat) (digits mantissa : Nat) (exponent : Int) : Nat :=
  let top := digits + exponent
  if mantissa = 0 ∨ (top ≤ 0 ∧ 3 * top < format.minExponent - format.fractionBits - 1) then 0
  else if format.maxExponent < 3 * exponent then format.infinity
  else
    format.ofRounded
      (format.round (mantissa * Nat.pow 10 exponent.toNat) (Nat.pow 10 (-exponent).toNat))

/-- A decimal exponent, with its mark `e`, if there is one. -/
def decimalExponent? : List Char → Option Int
  | [] => some 0
  | c :: rest =>
    if c = 'e' ∨ c = 'E' then
      let (negative, digits) := splitSign rest
      (Numeral.digits? 10 digits).map fun n => if negative then -(n : Int) else n
    else none

/-- Decimal digits with a point and an exponent. -/
def decimal? (format : FloatFormat) (text : List Char) : Option Nat :=
  let whole := text.takeWhile Char.isDigit
  let (part, rest) := match text.dropWhile Char.isDigit with
    | '.' :: tail => (tail.takeWhile Char.isDigit, tail.dropWhile Char.isDigit)
    | tail => ([], tail)
  match Numeral.digits? 10 (whole ++ part), decimalExponent? rest with
  | some mantissa, some exponent =>
    some (format.ofDecimal (whole ++ part).length mantissa (exponent - part.length))
  | _, _ => none

/-- The bit pattern of a float without its sign. -/
def magnitude? (format : FloatFormat) (text : List Char) : Option Nat :=
  match text with
  | 'n' :: 'a' :: 'n' :: ':' :: '0' :: 'x' :: digits => format.payloadNan? digits
  | 'n' :: 'a' :: 'n' :: ':' :: '0' :: 'X' :: digits => format.payloadNan? digits
  | '0' :: 'x' :: rest => format.hexadecimal? rest
  | '0' :: 'X' :: rest => format.hexadecimal? rest
  | _ => (format.named? text).orElse fun _ => format.decimal? text

/-- The bit pattern of the float that a text stands for. -/
def ofText? (format : FloatFormat) (text : List Char) : Option Nat :=
  let (negative, magnitude) := splitSign text
  (format.magnitude? magnitude).map (format.withSign negative)

end FlatWasm.FloatFormat
