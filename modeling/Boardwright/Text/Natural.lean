import Boardwright.Text.Digit

/-!
# Natural order

Texts are compared run by run: runs of digits as numbers and what is between them as
text. A text begins with what is no digit, be it empty.
-/

namespace Boardwright.Text.Natural

/-- A run of a text. -/
inductive Run
  | word (s : List Char)
  | number (n : Nat)
  deriving Repr, DecidableEq

/-- The number that a run of digits writes. -/
def numberOf (cs : List Char) : Nat := cs.foldl (fun n c => n * 10 + (digit? c).getD 0) 0

/-- The runs of a text, the digits or other characters at its start having been read up
to the run that is given. -/
def runsFrom (inNumber : Bool) (run : List Char) : List Char → List Run
  | [] =>
    if inNumber then [.number (numberOf run)] else if run.isEmpty then [] else [.word run]
  | c :: cs =>
    if isDigit c then
      if inNumber then runsFrom true (run ++ [c]) cs else .word run :: runsFrom true [c] cs
    else if inNumber then .number (numberOf run) :: runsFrom false [c] cs
    else runsFrom false (run ++ [c]) cs

def runs (s : String) : List Run := runsFrom false [] s.toList

def Run.order : Run → Run → Ordering
  | .word a, .word b => compare (String.ofList a) (String.ofList b)
  | .number a, .number b => compare a b
  | .word _, .number _ => .lt
  | .number _, .word _ => .gt

def orderRuns : List Run → List Run → Ordering
  | [], [] => .eq
  | [], _ => .lt
  | _, [] => .gt
  | a :: as, b :: bs => (a.order b).then (orderRuns as bs)

def order (a b : String) : Ordering := orderRuns (runs a) (runs b)

end Boardwright.Text.Natural
