/-!
# Words and lines

A text is a list of characters. Its lines are divided by line feeds, its words by the characters
that have the Unicode property `White_Space`.
-/

namespace FlatWasm.Text

/-- The characters with the Unicode property `White_Space`. -/
def isBlank (c : Char) : Bool :=
  let n := c.toNat
  (0x09 ≤ n && n ≤ 0x0D) || n == 0x20 || n == 0x85 || n == 0xA0 || n == 0x1680
    || (0x2000 ≤ n && n ≤ 0x200A) || n == 0x2028 || n == 0x2029 || n == 0x202F || n == 0x205F
    || n == 0x3000

def words (text : List Char) : List (List Char) :=
  (text.splitOnP isBlank).filter fun word => !word.isEmpty

def lines (text : List Char) : List (List Char) := text.splitOn '\n'

/-- The part of a line before its comment, which starts with two semicolons. -/
def uncommented : List Char → List Char
  | [] => []
  | ';' :: ';' :: _ => []
  | c :: rest => c :: uncommented rest

/-- The text before the first character that satisfies `p`, and the text after that character. -/
def splitFirst (p : Char → Bool) (text : List Char) : List Char × Option (List Char) :=
  (text.takeWhile (!p ·), (text.dropWhile (!p ·)).tail?)

end FlatWasm.Text
