/-!
Lines and blanks of texts. A text is cut at every line separator, and blanks are
trimmed at both ends of a piece.

Correspondence:
  `str.splitlines` ↔ `lines`
  `str.split(sep)` ↔ `pieces`
  `str.split()`    ↔ `words`
  `str.strip`      ↔ `trim`
  `str.isspace`    ↔ `isSpace`
-/

namespace FactorPlan

namespace Text

/-- Whether a character is white space. -/
def isSpace (c : Char) : Bool :=
  let n := c.toNat
  (9 ≤ n && n ≤ 13) || (0x1C ≤ n && n ≤ 0x20) || n == 0x85 || n == 0xA0 || n == 0x1680 ||
  (0x2000 ≤ n && n ≤ 0x200A) || n == 0x2028 || n == 0x2029 || n == 0x202F || n == 0x205F || n == 0x3000

/-- Whether a character ends a line. -/
def isLineEnd (c : Char) : Bool :=
  let n := c.toNat
  (10 ≤ n && n ≤ 13) || (0x1C ≤ n && n ≤ 0x1E) || n == 0x85 || n == 0x2028 || n == 0x2029

/-- The characters without white space at either end. -/
def trim (cs : List Char) : List Char :=
  ((cs.dropWhile isSpace).reverse.dropWhile isSpace).reverse

/-- The lines of a text without their ends; `current` is the line being read, in
reverse. A carriage return with a line feed is one end, and a text that ends with
a line end has no further line. -/
def linesFrom : List Char → List Char → List (List Char)
  | current, [] => if current.isEmpty then [] else [current.reverse]
  | current, '\r' :: '\n' :: rest => current.reverse :: linesFrom [] rest
  | current, c :: rest =>
    if isLineEnd c then current.reverse :: linesFrom [] rest else linesFrom (c :: current) rest

/-- The lines of a text. -/
def lines (cs : List Char) : List (List Char) := linesFrom [] cs

/-- The pieces of a text between the given character; `current` is the piece being
read, in reverse. -/
def piecesFrom (d : Char) : List Char → List Char → List (List Char)
  | current, [] => [current.reverse]
  | current, c :: rest =>
    if c = d then current.reverse :: piecesFrom d [] rest else piecesFrom d (c :: current) rest

/-- The pieces of a text between the given character. -/
def pieces (d : Char) (cs : List Char) : List (List Char) := piecesFrom d [] cs

/-- The words of a text, divided by white space; `current` is the word being read,
in reverse. -/
def wordsFrom : List Char → List Char → List (List Char)
  | current, [] => if current.isEmpty then [] else [current.reverse]
  | current, c :: rest =>
    if isSpace c then
      (if current.isEmpty then wordsFrom [] rest else current.reverse :: wordsFrom [] rest)
    else wordsFrom (c :: current) rest

/-- The words of a text, divided by white space. -/
def words (cs : List Char) : List (List Char) := wordsFrom [] cs

end Text

end FactorPlan
