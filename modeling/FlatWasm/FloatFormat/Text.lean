import FlatWasm.FloatFormat
import FlatWasm.Text.Hex

/-!
# Floats in hexadecimal notation

A finite number is written `0x1.…p±e` with the fraction's digits up to the last that is not zero;
subnormal numbers are normalised first. A NaN shows its fraction unless it is the default one.
-/

namespace FlatWasm.FloatFormat

/-- The last `count` digits of a number in base sixteen. -/
def hexDigits : Nat → Nat → List Char
  | 0, _ => []
  | count + 1, value => hexDigits count (value / 16) ++ [Nat.digitChar (value % 16)]

def dropTrailingZeros (digits : List Char) : List Char :=
  (digits.reverse.dropWhile (· == '0')).reverse

/-- The fraction, aligned to whole digits on its left, behind a point. -/
def fractionText (format : FloatFormat) (fraction : Nat) : String :=
  if fraction = 0 then ""
  else
    let count := (format.fractionBits + 3) / 4
    let aligned := fraction <<< (4 * count - format.fractionBits)
    "." ++ String.ofList (dropTrailingZeros (hexDigits count aligned))

def exponentText (exponent : Int) : String :=
  if exponent < 0 then "p" ++ toString exponent else "p+" ++ toString exponent

/-- `1.fraction * 2 ^ exponent`. -/
def normalText (format : FloatFormat) (fraction : Nat) (exponent : Int) : String :=
  "0x1" ++ format.fractionText fraction ++ exponentText exponent

def subnormalText (format : FloatFormat) (fraction : Nat) : String :=
  let lead := fraction.log2
  format.normalText ((fraction - 1 <<< lead) <<< (format.fractionBits - lead))
    (format.minExponent + lead - format.fractionBits)

def magnitudeText (format : FloatFormat) (bits : Nat) : String :=
  let field := format.exponentField bits
  let fraction := format.fraction bits
  if field = 1 <<< format.exponentBits - 1 then
    if fraction = 0 then "inf"
    else if fraction = format.quietBit then "nan"
    else "nan:0x" ++ String.ofList (Nat.toDigits 16 fraction)
  else if field = 0 then
    if fraction = 0 then "0x0p+0" else format.subnormalText fraction
  else format.normalText fraction ((field : Int) - format.maxExponent)

def text (format : FloatFormat) (bits : Nat) : String :=
  (if format.isNegative bits then "-" else "") ++ format.magnitudeText bits

end FlatWasm.FloatFormat
