import FlatWasm.Text.Quoted

/-!
# Bytes as hexadecimal text

Two digits for a byte, most significant first. Writing uses lower case; reading takes either case
and reports the first character that is not a digit.
-/

namespace FlatWasm.Hex

def byte (value : UInt8) : String :=
  String.ofList [Nat.digitChar (value.toNat / 16), Nat.digitChar (value.toNat % 16)]

def encode (bytes : List UInt8) : String :=
  String.ofList (bytes.flatMap fun value =>
    [Nat.digitChar (value.toNat / 16), Nat.digitChar (value.toNat % 16)])

def digit? (c : Char) : Option Nat :=
  if '0' ≤ c ∧ c ≤ '9' then some (c.toNat - '0'.toNat)
  else if 'a' ≤ c ∧ c ≤ 'f' then some (c.toNat - 'a'.toNat + 10)
  else if 'A' ≤ c ∧ c ≤ 'F' then some (c.toNat - 'A'.toNat + 10)
  else none

inductive Error where
  | oddLength
  | invalidCharacter (character : Char) (position : Nat)
deriving DecidableEq

def Error.message : Error → String
  | .oddLength => "Odd number of digits"
  | .invalidCharacter character position =>
      "Invalid character " ++ Text.quoted character ++ " at position " ++ toString position

/-- Reads digit pairs, the first of which stands at `position`, behind the bytes `done`, which are
held last first. -/
def decodePairs (position : Nat) (done : List UInt8) : List Char → Except Error (List UInt8)
  | high :: low :: rest =>
    match digit? high, digit? low with
    | none, _ => .error (.invalidCharacter high position)
    | some _, none => .error (.invalidCharacter low (position + 1))
    | some h, some l => decodePairs (position + 2) (UInt8.ofNat (16 * h + l) :: done) rest
  | _ => .ok done.reverse

/-- The number of characters is looked at before any of them. -/
def decode (digits : List Char) : Except Error (List UInt8) :=
  if digits.length % 2 = 1 then .error .oddLength else decodePairs 0 [] digits

end FlatWasm.Hex
