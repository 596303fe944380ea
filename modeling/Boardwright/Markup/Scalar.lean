import Boardwright.Document
import Boardwright.Text.Digit

/-!
# Scalars of configuration texts

A word without quotes stands for nothing, a truth value, a number or itself. A text is
written without quotes if it begins with a letter, has only letters, digits and a few
marks, and stands for itself; else it is written in double quotes.
-/

namespace Boardwright.Markup

def nullWords : List String := ["", "~", "null", "Null", "NULL"]

def truthWords : List (String × Bool) :=
  [("yes", true), ("Yes", true), ("YES", true), ("no", false), ("No", false), ("NO", false),
   ("true", true), ("True", true), ("TRUE", true), ("false", false), ("False", false),
   ("FALSE", false), ("on", true), ("On", true), ("ON", true), ("off", false), ("Off", false),
   ("OFF", false)]

def isBasicDigit (c : Char) : Bool := '0' ≤ c && c ≤ '9'

/-- The whole number that digits write: no zero stands before others. -/
def whole? : List Char → Option Nat
  | ['0'] => some 0
  | c :: cs =>
    if c != '0' && (c :: cs).all isBasicDigit then some (Text.number (c :: cs)) else none
  | [] => none

def exponent? : List Char → Option Int
  | [] => some 0
  | e :: sign :: ds =>
    if (e == 'e' || e == 'E') && !ds.isEmpty && ds.all isBasicDigit then
      match sign with
      | '+' => some (Text.number ds)
      | '-' => some (-(Text.number ds : Int))
      | _ => none
    else none
  | _ => none

/-- The number with a point that a word writes. -/
def real? (s : List Char) : Option Float :=
  match Text.cut ['.'] s with
  | some (front, after) =>
    let fraction := after.takeWhile isBasicDigit
    if !(front ++ fraction).isEmpty && front.all isBasicDigit then
      (exponent? (after.dropWhile isBasicDigit)).map fun e =>
        Number.ofDecimal (Text.number (front ++ fraction)) (e - fraction.length)
    else none
  | none => none

def number? (s : List Char) : Option Document :=
  let (negative, digits) := match s with
    | '-' :: cs => (true, cs)
    | '+' :: cs => (false, cs)
    | cs => (false, cs)
  match whole? digits with
  | some n => some (.int (if negative then -n else n))
  | none => (real? digits).map fun x => .real (if negative then -x else x)

def ofWord (s : String) : Document :=
  if nullWords.contains s then .null
  else match truthWords.lookup s with
    | some b => .bool b
    | none => (number? s.toList).getD (.text s)

/-- The characters of texts that are written without quotes. -/
def isWordChar (c : Char) : Bool :=
  c.isAlphanum || ['_', '-', '.', '/', '^', '~', '+', '=', '<', '>', '@', '*', '!'].contains c

/-- Whether a text is written without quotes. -/
def isWord (s : String) : Bool :=
  (s.toList.head?.any Char.isAlpha) && s.toList.all isWordChar &&
    match ofWord s with
    | .text _ => true
    | _ => false

/-- The last digits of a number in base sixteen. -/
def hexDigits : Nat → Nat → List Char
  | 0, _ => []
  | k + 1, n => hexDigits k (n / 16) ++ [Nat.digitChar (n % 16)]

def escape (c : Char) : List Char :=
  if c == '"' || c == '\\' then ['\\', c]
  else if c == '\n' then ['\\', 'n']
  else if c == '\t' then ['\\', 't']
  else if c == '\r' then ['\\', 'r']
  else if c.toNat < 32 || (127 ≤ c.toNat && c.toNat < 160) || c.toNat = 0x2028 || c.toNat = 0x2029 then
    '\\' :: 'u' :: hexDigits 4 c.toNat
  else [c]

def quote (s : String) : String := String.ofList ('"' :: s.toList.flatMap escape ++ ['"'])

def scalar : Document → String
  | .null => "null"
  | .bool b => if b then "true" else "false"
  | .int n => toString n
  | .real x => Number.text x
  | .text s => if isWord s then s else quote s
  | .list _ => "[]"
  | .map _ => "\x7b\x7d"

end Boardwright.Markup
