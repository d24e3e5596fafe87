import FlatWasm.Text.Hex

/-!
# Integers in text

Digits of either case in a base up to sixteen. A plain numeral may carry one sign; a literal of the
assembly language may also be hexadecimal, marked by `0x`.
-/

namespace FlatWasm.Numeral

def digit? (base : Nat) (c : Char) : Option Nat := (Hex.digit? c).filter (· < base)

/-- The number that the digits, of which there is at least one, stand for. -/
def digits? (base : Nat) : List Char → Option Nat
  | [] => none
  | c :: rest =>
    (c :: rest).foldlM (fun value d => (digit? base d).map (base * value + ·)) 0

/-- Digits that may follow a plus sign, for a number below `2 ^ bits`. -/
def unsigned? (base bits : Nat) (text : List Char) : Option Nat :=
  let digits := match text with
    | '+' :: rest => rest
    | _ => text
  (digits? base digits).filter (· < 1 <<< bits)

/-- Digits that may follow a sign, for a number of `bits` bits in two's complement. -/
def signed? (base bits : Nat) (text : List Char) : Option Int :=
  let value := match text with
    | '-' :: rest => (digits? base rest).map fun n => -(n : Int)
    | '+' :: rest => (digits? base rest).map Int.ofNat
    | _ => (digits? base text).map Int.ofNat
  let half : Int := ((1 <<< (bits - 1) : Nat) : Int)
  value.filter fun n => -half ≤ n && n < half

def hexMark? : List Char → Option (List Char)
  | '0' :: 'x' :: rest => some rest
  | _ => none

/-- A number of 64 bits, in hexadecimal after `0x` and otherwise in decimal. -/
def literal? (text : List Char) : Option Nat :=
  match hexMark? text with
  | some digits => unsigned? 16 64 digits
  | none => unsigned? 10 64 text

/-- A signed number of `bits` bits. A hexadecimal literal without a minus sign may also give the bit
pattern of a negative number. -/
def signedLiteral? (bits : Nat) (text : List Char) : Option Int :=
  match text with
  | '-' :: rest => (literal? rest).bind fun n =>
    if n ≤ 1 <<< (bits - 1) then some (-(n : Int)) else none
  | _ => (literal? text).bind fun n =>
    if n < 1 <<< (bits - 1) then some (n : Int)
    else if (hexMark? text).isSome && n < 1 <<< bits then some ((n : Int) - (1 <<< bits : Nat))
    else none

end FlatWasm.Numeral
