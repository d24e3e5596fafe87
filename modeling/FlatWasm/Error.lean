import FlatWasm.Block
import FlatWasm.Text.Hex

/-!
# Decoding errors

Everything that can be wrong with the bytes of a function body, and the message for each.
-/

namespace FlatWasm

/-- Instructions that are followed by a byte reserved for later versions of the format. -/
inductive ReservedUse where
  | callIndirect
  | currentMemory
  | growMemory
deriving DecidableEq

def ReservedUse.name : ReservedUse → String
  | .callIndirect => "call_indirect"
  | .currentMemory => "current_memory"
  | .growMemory => "grow_memory"

/-- Bytes that do not have the form of what is read from them. -/
inductive Malformed where
  | unexpectedEnd
  | integerTooLarge
  | integerTooLong
  | unsupportedWidth (width : Nat)
  | vectorTooLong (length : Nat)
  | vectorPastEnd (length : Nat)
  | invalidBlockType (code : Int)
  | reservedByte (use : ReservedUse) (byte : UInt8)
  | nestedTooDeep (limit : Nat)
  | elseOutsideIf (kind : BlockKind) (label : Label)
  | secondElse (label : Label)
  | bodyTooLarge (limit : Nat)
  | blocksLeftOpen (count : Nat)
  | trailingBytes (count : Nat)
deriving DecidableEq

namespace Malformed

def message : Malformed → String
  | .unexpectedEnd => "unexpected end of input"
  | .integerTooLarge => "integer too large"
  | .integerTooLong => "integer representation too long"
  | .unsupportedWidth width => "unsupported LEB128 width " ++ toString width
  | .vectorTooLong length =>
      "vector length " ++ toString length ++ " exceeds implementation limit"
  | .vectorPastEnd length => "vector length " ++ toString length ++ " exceeds remaining input"
  | .invalidBlockType code => "invalid block type " ++ toString code
  | .reservedByte use byte =>
      use.name ++ ": reserved byte must be zero, got 0x" ++ Hex.byte byte
  | .nestedTooDeep limit => "blocks nested deeper than " ++ toString limit
  | .elseOutsideIf kind label => "else inside " ++ kind.name ++ " " ++ label.text
  | .secondElse label => "second else for " ++ label.text
  | .bodyTooLarge limit => "function body exceeds " ++ toString limit ++ " bytes"
  | .blocksLeftOpen count =>
      "function body ended with " ++ toString count ++ " block(s) still open"
  | .trailingBytes count => toString count ++ " trailing byte(s) after end of function"

end Malformed

inductive DecodeError where
  | malformed (cause : Malformed)
  | illegalOpcode (opcode : UInt8)
  | unresolvedTarget (depth : UInt32) (openBlocks : Nat)
deriving DecidableEq

def DecodeError.message : DecodeError → String
  | .malformed cause => "malformed encoding: " ++ cause.message
  | .illegalOpcode opcode => "illegal opcode 0x" ++ Hex.byte opcode
  | .unresolvedTarget depth openBlocks =>
      "unresolved branch target: depth " ++ toString depth.toNat ++ " with "
        ++ toString openBlocks ++ " open block(s)"

end FlatWasm
