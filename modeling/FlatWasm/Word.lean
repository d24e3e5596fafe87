import FlatWasm.Cursor

/-!
# Fixed-width words

The bit patterns of floats are stored as four or eight bytes, least significant first.
-/

namespace FlatWasm.Word

def littleEndian : Nat → Nat → List UInt8
  | 0, _ => []
  | count + 1, value => UInt8.ofNat value :: littleEndian count (value / 256)

def ofLittleEndian : List UInt8 → Nat
  | [] => 0
  | byte :: rest => byte.toNat + 256 * ofLittleEndian rest

def encode32 (bits : UInt32) : List UInt8 := littleEndian 4 bits.toNat

def encode64 (bits : UInt64) : List UInt8 := littleEndian 8 bits.toNat

def read32 : Read UInt32 := do return UInt32.ofNat (ofLittleEndian (← Read.bytes 4))

def read64 : Read UInt64 := do return UInt64.ofNat (ofLittleEndian (← Read.bytes 8))

end FlatWasm.Word
