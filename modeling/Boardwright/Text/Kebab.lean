import Boardwright.Text.Case
import Boardwright.Text.Split

/-!
# Names with hyphens

`kebab` writes a name in small letters with hyphens between its words. Words are
divided by spaces, hyphens and underscores, and by the step from a small letter to a
capital one; a name that is all in capitals has no such steps. The letter after a
dividing mark begins a word and is not looked at again. Other punctuation is dropped.
-/

namespace Boardwright.Text

def isDivider (c : Char) : Bool := c == ' ' || c == '-' || c == '_'

def isPunctuation (c : Char) : Bool :=
  let n := c.toNat
  (33 ≤ n && n ≤ 47) || (58 ≤ n && n ≤ 64) || (91 ≤ n && n ≤ 96) || (123 ≤ n && n ≤ 126)

/-- Each run of dividing marks written as one space. -/
def oneDivider : List Char → List Char
  | [] => []
  | c :: cs =>
    if isDivider c then
      match oneDivider cs with
      | ' ' :: rest => ' ' :: rest
      | rest => ' ' :: rest
    else c :: oneDivider cs

def hyphenWords (last : Char) : List Char → List Char
  | [] => []
  | [c] =>
    if isDivider c then ['-']
    else if isSmallLetter last && isCapital c then '-' :: small c
    else small c
  | c :: d :: cs =>
    if isDivider c then '-' :: small d ++ hyphenWords c cs
    else if isSmallLetter last && isCapital c then '-' :: small c ++ hyphenWords c (d :: cs)
    else small c ++ hyphenWords c (d :: cs)

/-- A name in small letters with hyphens between its words. -/
def kebab (s : String) : String :=
  let bare := (strip isDivider s.toList).filter fun c => !isPunctuation c || isDivider c
  let words := oneDivider bare
  String.ofList (hyphenWords ' ' (if isAllCapital words then words.flatMap small else words))

end Boardwright.Text
