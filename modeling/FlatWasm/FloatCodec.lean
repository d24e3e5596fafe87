/-!
# Floats in texts

How a float looks in a text is left open here: whatever prints or assembles instructions is given a
codec. `FloatCodec.hexadecimal` is the one that the command uses.
-/

namespace FlatWasm

/-- How the bit patterns of floats are written and read. Reading may know more forms than writing
uses. -/
structure FloatCodec where
  text32 : UInt32 → String
  text64 : UInt64 → String
  ofText32? : List Char → Option UInt32
  ofText64? : List Char → Option UInt64

end FlatWasm
