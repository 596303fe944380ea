import Boardwright.Text.Split

/-!
# White space and lines

Two classes of characters: the blanks that are stripped from the ends of a text,
and the marks that end a line when a message is indented. The second is a part of
the first, and a carriage return followed by a line feed ends one line, not two.
-/

namespace Boardwright.Text

/-- The characters that count as white space. -/
def isBlank (c : Char) : Bool :=
  let n := c.toNat
  (9 ≤ n && n ≤ 13) || (28 ≤ n && n ≤ 32) || n == 0x85 || n == 0xA0 || n == 0x1680 ||
    (0x2000 ≤ n && n ≤ 0x200A) || n == 0x2028 || n == 0x2029 || n == 0x202F ||
    n == 0x205F || n == 0x3000

def isLineEnd (c : Char) : Bool :=
  let n := c.toNat
  (10 ≤ n && n ≤ 13) || (28 ≤ n && n ≤ 30) || n == 0x85 || n == 0x2028 || n == 0x2029

/-- A string without white space at either end. -/
def trim (s : String) : String := String.ofList (strip isBlank s.toList)

/-- The lines of a text, each with the mark that ends it. The line being read is
collected in reverse. -/
def linesFrom : List Char → List Char → List (List Char)
  | [], [] => []
  | line, [] => [line.reverse]
  | line, '\r' :: '\n' :: cs => ('\n' :: '\r' :: line).reverse :: linesFrom [] cs
  | line, c :: cs =>
    if isLineEnd c then (c :: line).reverse :: linesFrom [] cs else linesFrom (c :: line) cs

def lines (s : List Char) : List (List Char) := linesFrom [] s

def bareLines (s : String) : List String :=
  (lines s.toList).map fun l => String.ofList (l.reverse.dropWhile isLineEnd).reverse

/-- A text in which every line that ends in a carriage return, alone or before a line
feed, ends in a line feed. -/
def lineFeeds : List Char → List Char
  | [] => []
  | '\r' :: '\n' :: cs => '\n' :: lineFeeds cs
  | '\r' :: cs => '\n' :: lineFeeds cs
  | c :: cs => c :: lineFeeds cs

/-- A text with `margin` before each line that is not all white space. -/
def indent (margin s : String) : String :=
  String.ofList ((lines s.toList).flatMap fun l => if l.all isBlank then l else margin.toList ++ l)

end Boardwright.Text
