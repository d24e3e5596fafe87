import FlatWasm.FloatCodec
import FlatWasm.FloatFormat.Parse
import FlatWasm.FloatFormat.Text

/-!
# The codec of hexadecimal floats

Floats are written in hexadecimal, so that no bit is lost, and read in every notation.
-/

namespace FlatWasm

def FloatCodec.hexadecimal : FloatCodec where
  text32 bits := FloatFormat.single.text bits.toNat
  text64 bits := FloatFormat.double.text bits.toNat
  ofText32? word := (FloatFormat.single.ofText? word).map UInt32.ofNat
  ofText64? word := (FloatFormat.double.ofText? word).map UInt64.ofNat

end FlatWasm
