/-!
# Characters in quotes

A message that names a character shows it between apostrophes, in a form that can be read on one
line whatever the character is. Messages speak of single bytes, so the character numbers of concern
are those below 256.
-/

namespace FlatWasm.Text

/-- Whether a character numbered below 256 shows as a mark of its own or is the plain space. The
others are the control characters, the no-break space and the soft hyphen. -/
def isPrintable (c : Char) : Bool :=
  let n := c.toNat
  !(n < 0x20 || (0x7F ≤ n && n ≤ 0xA0) || n == 0xAD)

/-- A character as it stands between apostrophes. The apostrophe and the backslash are marked by a
backslash, a few control characters have a letter or digit of their own, and any other character
that does not show is given by its number in hexadecimal. -/
def escaped (c : Char) : List Char :=
  match c with
  | '\x00' => ['\\', '0']
  | '\t' => ['\\', 't']
  | '\n' => ['\\', 'n']
  | '\r' => ['\\', 'r']
  | '\'' => ['\\', '\'']
  | '\\' => ['\\', '\\']
  | _ =>
    if isPrintable c then [c]
    else "\\u\x7b".toList ++ Nat.toDigits 16 c.toNat ++ "\x7d".toList

def quoted (c : Char) : String := "'" ++ String.ofList (escaped c) ++ "'"

end FlatWasm.Text
