import FlatWasm.Cursor

/-!
# LEB128 integers

An integer is cut into groups of seven bits, least significant first, one group to a byte; the top
bit of a byte says that another follows. A reader is told the width of the integer in bits: it
takes padded encodings, but no more groups than the width has room for, and no group with bits
outside the width. Writers use as few groups as the value needs.
-/

namespace FlatWasm.Leb128

/-- The widest integer that can be read. -/
def maxWidth : Nat := 64

/-- The seven bits of the value that a byte carries. -/
def payload (byte : UInt8) : Nat := byte.toNat % 128

def continues (byte : UInt8) : Bool := 128 ≤ byte.toNat

/-- Reads the groups of an unsigned integer that has `room` bits left. -/
def unsignedGroups (room offset : Nat) : List UInt8 → Except Malformed Nat × Cursor
  | [] => (.error .unexpectedEnd, ⟨offset, []⟩)
  | byte :: rest =>
    if 1 <<< room ≤ payload byte then (.error .integerTooLarge, ⟨offset + 1, rest⟩)
    else if !continues byte then (.ok (payload byte), ⟨offset + 1, rest⟩)
    else if room ≤ 7 then (.error .integerTooLong, ⟨offset + 1, rest⟩)
    else
      match unsignedGroups (room - 7) (offset + 1) rest with
      | (.ok high, cursor) => (.ok (payload byte + 128 * high), cursor)
      | (.error cause, cursor) => (.error cause, cursor)

/-- The bits of a group beyond the `room` that is left must repeat the sign bit. -/
def signFits (room group : Nat) : Bool :=
  group < 1 <<< (room - 1) || 128 ≤ group + 1 <<< (room - 1)

/-- The number that seven bits are in two's complement. -/
def signedGroup (group : Nat) : Int := if group < 64 then group else group - 128

/-- Reads the groups of a signed integer that has `room` bits left. -/
def signedGroups (room offset : Nat) : List UInt8 → Except Malformed Int × Cursor
  | [] => (.error .unexpectedEnd, ⟨offset, []⟩)
  | byte :: rest =>
    if !signFits room (payload byte) then (.error .integerTooLarge, ⟨offset + 1, rest⟩)
    else if !continues byte then (.ok (signedGroup (payload byte)), ⟨offset + 1, rest⟩)
    else if room ≤ 7 then (.error .integerTooLong, ⟨offset + 1, rest⟩)
    else
      match signedGroups (room - 7) (offset + 1) rest with
      | (.ok high, cursor) => (.ok (payload byte + 128 * high), cursor)
      | (.error cause, cursor) => (.error cause, cursor)

def widthSupported (width : Nat) : Bool := 0 < width && width ≤ maxWidth

def readUnsigned (width : Nat) : Read Nat := fun cursor =>
  if widthSupported width then unsignedGroups width cursor.offset cursor.rest
  else (.error (.unsupportedWidth width), cursor)

def readSigned (width : Nat) : Read Int := fun cursor =>
  if widthSupported width then signedGroups width cursor.offset cursor.rest
  else (.error (.unsupportedWidth width), cursor)

def readUInt32 : Read UInt32 := do return UInt32.ofNat (← readUnsigned 32)

def readUInt64 : Read UInt64 := do return UInt64.ofNat (← readUnsigned 64)

def readInt32 : Read Int32 := do return Int32.ofInt (← readSigned 32)

def readInt64 : Read Int64 := do return Int64.ofInt (← readSigned 64)

/-- Writes `more` groups that another follows, and then the last. -/
def unsignedBytes : Nat → Nat → List UInt8
  | 0, value => [UInt8.ofNat (value % 128)]
  | more + 1, value => UInt8.ofNat (value % 128 + 128) :: unsignedBytes more (value / 128)

/-- The bits of the value up to its highest, in groups of seven. -/
def encodeUnsigned (value : Nat) : List UInt8 := unsignedBytes (value.log2 / 7) value

/-- Writes `more` groups that another follows, and then the last; `/` rounds down. -/
def signedBytes : Nat → Int → List UInt8
  | 0, value => [UInt8.ofNat (value % 128).toNat]
  | more + 1, value => UInt8.ofNat ((value % 128).toNat + 128) :: signedBytes more (value / 128)

/-- What remains of a value once its sign is taken off: `v`, or the complement of a negative `v`. -/
def magnitude : Int → Nat
  | .ofNat value => value
  | .negSucc complement => complement

/-- The bits of the magnitude and one for the sign, in groups of seven. -/
def encodeSigned (value : Int) : List UInt8 :=
  signedBytes (((magnitude value).log2 + 1) / 7) value

end FlatWasm.Leb128
