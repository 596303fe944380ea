/-!
# Cutting text into pieces

Texts are cut as lists of characters, so that every statement about a cut is a
statement about lists. `cut` divides at the first occurrence of a mark, `cutLast`
at the last one; `splitOn` divides at every occurrence, from the left and without
overlap. Cutting at a single character is `List.splitOn`.
-/

namespace Boardwright.Text

/-- What stands before and after the first occurrence of `mark`. -/
def cut (mark : List Char) : List Char → Option (List Char × List Char)
  | [] => if mark.isEmpty then some ([], []) else none
  | c :: cs =>
    if mark.isPrefixOf (c :: cs) then some ([], (c :: cs).drop mark.length)
    else (cut mark cs).map fun (before, after) => (c :: before, after)

def cutLast (mark s : List Char) : Option (List Char × List Char) :=
  (cut mark.reverse s.reverse).map fun (after, before) => (before.reverse, after.reverse)

def occurs (mark s : List Char) : Bool := (cut mark s).isSome

/-- The pieces of `s` between the occurrences of `mark`. A piece is collected in
reverse in `piece`; `skip` counts the characters of an occurrence still to be
passed over. -/
def splitFrom (mark : List Char) : Nat → List Char → List Char → List (List Char)
  | _, piece, [] => [piece.reverse]
  | skip + 1, piece, _ :: cs => splitFrom mark skip piece cs
  | 0, piece, c :: cs =>
    if !mark.isEmpty && mark.isPrefixOf (c :: cs) then
      piece.reverse :: splitFrom mark (mark.length - 1) [] cs
    else splitFrom mark 0 (c :: piece) cs

/-- The pieces of `s` between the occurrences of `mark`, at least one. -/
def splitOn (mark s : List Char) : List (List Char) := splitFrom mark 0 [] s

def split (mark s : String) : List String :=
  (splitOn mark.toList s.toList).map String.ofList

def contains (mark s : String) : Bool := occurs mark.toList s.toList

/-- Every occurrence of `mark` in `s` written as `text` instead. -/
def replace (mark text s : String) : String := text.intercalate (split mark s)

def join (mark : String) (pieces : List String) : String := mark.intercalate pieces

def startsWith (start s : String) : Bool := start.toList.isPrefixOf s.toList

def endsWith (ending s : String) : Bool := ending.toList.isSuffixOf s.toList

def dropChars (n : Nat) (s : String) : String := String.ofList (s.toList.drop n)

def takeChars (n : Nat) (s : String) : String := String.ofList (s.toList.take n)

/-- `s` without the characters of a class at either end. -/
def strip (p : Char → Bool) (s : List Char) : List Char :=
  ((s.dropWhile p).reverse.dropWhile p).reverse

end Boardwright.Text
