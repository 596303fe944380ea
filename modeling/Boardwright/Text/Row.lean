/-!
# Rows of code points

The tables of characters are written as rows of code points, in digits to the base 36
and with blanks between them. A row begins so far after the end of the row before it as the
first number says. By itself this is one code point; after `-` stands how many others
follow it, and after `:` how many follow when every second one is left out.
-/

namespace Boardwright.Text

/-- The code points from `first` to `last`, each `step` after the one before. -/
structure Row where
  first : Nat
  last : Nat
  step : Nat
  deriving Repr, DecidableEq

namespace Row

def has (r : Row) (n : Nat) : Bool :=
  r.first ≤ n && n ≤ r.last && (n - r.first) % r.step == 0

/-- The number that digits to the base 36 write. -/
def codePoint (s : List Char) : Nat :=
  s.foldl (fun n c => 36 * n + (if c.isDigit then c.toNat - 48 else c.toNat - 87)) 0

def ofText (last : Nat) (s : List Char) : Row :=
  match s.splitOn '-', s.splitOn ':' with
  | [a, b], _ => ⟨last + codePoint a, last + codePoint a + codePoint b, 1⟩
  | _, [a, b] => ⟨last + codePoint a, last + codePoint a + 2 * codePoint b, 2⟩
  | _, _ => ⟨last + codePoint s, last + codePoint s, 1⟩

def ofTexts (last : Nat) : List (List Char) → List Row
  | [] => []
  | s :: ss => ofText last s :: ofTexts (ofText last s).last ss

def texts (table : List Char) : List (List Char) :=
  (table.splitOnP fun c => c == ' ' || c == '\n').filter (!·.isEmpty)

end Row

def rows (table : String) : List Row := Row.ofTexts 0 (Row.texts table.toList)

end Boardwright.Text
