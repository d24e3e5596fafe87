/-!
# Binary floating-point formats

The bit pattern of a float is a sign, a biased exponent and a fraction. Patterns are natural
numbers here, so that one definition serves every width; `single` and `double` are the two formats
of the instruction set.
-/

namespace FlatWasm

structure FloatFormat where
  fractionBits : Nat
  exponentBits : Nat
deriving DecidableEq

namespace FloatFormat

def single : FloatFormat := ⟨23, 8⟩

def double : FloatFormat := ⟨52, 11⟩

/-- The exponent of the largest finite numbers; also what the exponent field is biased by. -/
def maxExponent (format : FloatFormat) : Nat := 1 <<< (format.exponentBits - 1) - 1

/-- The exponent of the smallest normal numbers, and of all subnormal ones. -/
def minExponent (format : FloatFormat) : Int := 1 - format.maxExponent

def signBit (format : FloatFormat) : Nat := 1 <<< (format.fractionBits + format.exponentBits)

def infinity (format : FloatFormat) : Nat :=
  (1 <<< format.exponentBits - 1) <<< format.fractionBits

/-- The top bit of the fraction, which alone makes the default NaN. -/
def quietBit (format : FloatFormat) : Nat := 1 <<< (format.fractionBits - 1)

def nan (format : FloatFormat) : Nat := format.infinity + format.quietBit

def isNegative (format : FloatFormat) (bits : Nat) : Bool := format.signBit ≤ bits

def exponentField (format : FloatFormat) (bits : Nat) : Nat :=
  (bits >>> format.fractionBits) % (1 <<< format.exponentBits)

def fraction (format : FloatFormat) (bits : Nat) : Nat := bits % (1 <<< format.fractionBits)

def withSign (format : FloatFormat) (negative : Bool) (magnitude : Nat) : Nat :=
  if negative then format.signBit + magnitude else magnitude

end FloatFormat

end FlatWasm
