import Boardwright.Syntax.Token
import Boardwright.Text.NameChar

/-!
# Lexemes

A text is cut into lexemes: at each place the rule that takes the most characters
wins, and of several that take as many the one listed first. Each rule is a function
that says how many characters it takes, zero if it does not apply. The last rule takes
any one character, so every text can be cut, and no lexeme is empty.

Spaces at the very beginning of a text belong to the rule for the ends of lines, as
if a line had ended before them; elsewhere they are passed over.
-/

namespace Boardwright.Syntax

/-- What becomes of a lexeme. -/
inductive Lexeme.Rule
  | token (kind : Kind)
  | lineEnd
  | skipped
  deriving Repr, DecidableEq, Inhabited

/-- A piece of text that one rule took, with the two characters that follow it. -/
structure Lexeme where
  rule : Lexeme.Rule
  text : List Char
  ahead : List Char
  deriving Repr, DecidableEq

namespace Lexeme

/-- The number of characters at the start of a text that are of a class. -/
def run (p : Char → Bool) (s : List Char) : Nat := (s.takeWhile p).length

def isSpace (c : Char) : Bool := c == ' ' || c == '\t'

def isBreak (c : Char) : Bool := c == '\n' || c == '\r' || c == '\x0c'

/-- The length of a mark that ends a line. -/
def breakLength : List Char → Nat
  | '\r' :: '\n' :: _ => 2
  | c :: _ => if isBreak c then 1 else 0
  | [] => 0

/-! ### Strings -/

/-- The number of characters up to the mark `q` that closes a string of one line.
After a backslash any character of the class `escaped` stands for itself, and so does
the end of a line if `joins` says so. -/
def closeShort (q : Char) (plain escaped : Char → Bool) (joins : Bool) : List Char → Option Nat
  | [] => none
  | '\\' :: '\r' :: '\n' :: cs =>
    if joins then (closeShort q plain escaped joins cs).map (· + 3) else none
  | '\\' :: e :: cs =>
    if escaped e then (closeShort q plain escaped joins cs).map (· + 2) else none
  | c :: cs =>
    if c == q then some 1
    else if plain c then (closeShort q plain escaped joins cs).map (· + 1)
    else none

/-- The number of characters up to the three marks `q` that close a long string. -/
def closeLong (q : Char) (plain escaped : Char → Bool) : List Char → Option Nat
  | [] => none
  | '\\' :: e :: cs => if escaped e then (closeLong q plain escaped cs).map (· + 2) else none
  | c :: cs =>
    if c == q && [q, q].isPrefixOf cs then some 3
    else if plain c then (closeLong q plain escaped cs).map (· + 1)
    else none

/-- The characters of a string of one line, apart from its marks. -/
def isShortChar (q c : Char) : Bool := c != '\\' && !isBreak c && c != q

/-- The characters of a string of one line of bytes, apart from its marks. -/
def isShortByte (q c : Char) : Bool :=
  c.toNat < 128 && c != '\\' && c != '\n' && c != '\r' && c != q

/-- The length of a string without anything before its marks: the longer of what it
is as a long string and as a string of one line. -/
def quotedLength (bytes : Bool) : List Char → Nat
  | q :: cs =>
    if q != '\'' && q != '"' then 0
    else
      let any := fun c : Char => !bytes || c.toNat < 128
      let short := if bytes then closeShort q (isShortByte q) any false cs
        else closeShort q (isShortChar q) any true cs
      let long := if [q, q].isPrefixOf cs then
          (closeLong q (fun c => any c && c != '\\') any (cs.drop 2)).map (· + 2) else none
      match long, short with
      | some n, _ => n + 1
      | none, some n => n + 1
      | none, none => 0
  | [] => 0

/-- The length of a string after `n` characters before its marks. -/
def quotedAfter (bytes : Bool) (n : Nat) (s : List Char) : Nat :=
  match quotedLength bytes (s.drop n) with
  | 0 => 0
  | m => m + n

/-- The length of a string, with the letters that may stand before its marks. -/
def stringLength (s : List Char) : Nat :=
  let letter := fun (i : Nat) => (s.getD i ' ').toLower
  let a := letter 0
  let b := letter 1
  let plain := quotedLength false s
  let one := if a == 'r' || a == 'u' || a == 'f' then quotedAfter false 1 s else 0
  let two := if (a == 'f' && b == 'r') || (a == 'r' && b == 'f') then quotedAfter false 2 s else 0
  let byte := if a == 'b' then quotedAfter true 1 s else 0
  let bytes := if (a == 'b' && b == 'r') || (a == 'r' && b == 'b') then quotedAfter true 2 s else 0
  [one, two, byte, bytes].foldl max plain

/-! ### Numbers -/

def exponentLength : List Char → Nat
  | e :: cs =>
    if e != 'e' && e != 'E' then 0
    else
      let sign := match cs with
        | c :: _ => if c == '+' || c == '-' then 1 else 0
        | [] => 0
      match run Char.isDigit (cs.drop sign) with
      | 0 => 0
      | n => n + sign + 1
  | [] => 0

/-- The length of a number in another base: a zero, the letter of the base, and
digits of it. -/
def basedLength (letter : Char) (isDigit : Char → Bool) : List Char → Nat
  | '0' :: c :: cs =>
    if c.toLower != letter then 0
    else match run isDigit cs with
      | 0 => 0
      | n => n + 2
  | _ => 0

/-- The length of a number with the mark of an imaginary one after `n` characters,
or `otherwise`. -/
def imaginary (s : List Char) (n otherwise : Nat) : Nat :=
  match s.drop n with
  | c :: _ => if c == 'j' || c == 'J' then n + 1 else otherwise
  | [] => otherwise

/-- The length of a number: a whole number, which starts with a zero only if it has
no other digit; a number in another base; or digits with a point and digits after it,
with an exponent, or with the mark of an imaginary number. -/
def numberLength (s : List Char) : Nat :=
  let n := run Char.isDigit s
  if n = 0 then 0
  else
    let whole := if s.head? == some '0' then run (· == '0') s else n
    let pointed := match s.drop n with
      | '.' :: cs =>
        match run Char.isDigit cs with
        | 0 => 0
        | m => n + 1 + m
      | _ => 0
    let scaled := match exponentLength (s.drop n) with
      | 0 => 0
      | m => n + m
    let pointedScaled := if pointed = 0 then 0
      else match exponentLength (s.drop pointed) with
        | 0 => 0
        | m => pointed + m
    let based := [basedLength 'o' (fun c => '0' ≤ c && c ≤ '7') s,
      basedLength 'x' (fun c => c.isDigit || ('a' ≤ c.toLower && c.toLower ≤ 'f')) s,
      basedLength 'b' (fun c => c == '0' || c == '1') s].foldl max 0
    let reals := [n, pointed, scaled, pointedScaled].map fun m =>
      if m = 0 then 0 else imaginary s m 0
    ([whole, pointed, scaled, pointedScaled, based] ++ reals).foldl max 0

/-! ### The other rules -/

def literalLength (text : String) (s : List Char) : Nat :=
  if text.toList.isPrefixOf s then text.length else 0

/-- The length of an equation, which goes on to the end of its line. -/
def equationLength (s : List Char) : Nat :=
  match literalLength "eqn:" s with
  | 0 => 0
  | n => n + run (fun c => !isBreak c) (s.drop n)

def lineEndLength (first : Bool) (s : List Char) : Nat :=
  match breakLength s with
  | 0 => if first then run isSpace s else 0
  | n => n + run isSpace (s.drop n)

def nameLength : List Char → Nat
  | c :: cs => if Text.isNameStart c then run Text.isNamePart cs + 1 else 0
  | [] => 0

/-- The length of what is passed over: spaces, a comment, or the end of a line after a
backslash. -/
def skippedLength : List Char → Nat
  | '#' :: cs => run (fun c => !isBreak c) cs + 1
  | '\\' :: cs =>
    let n := run isSpace cs
    match breakLength (cs.drop n) with
    | 0 => 0
    | m => m + n + 1
  | s => run isSpace s

/-- The rules with what each takes of a text; `first` says whether the text is at its
very beginning. -/
def candidates (first : Bool) (s : List Char) : List (Rule × Nat) :=
  [(.token .string, stringLength s), (.token .number, numberLength s)] ++
    keywords.map (fun (text, kind) => (.token kind, literalLength text s)) ++
    [(.token .equation, equationLength s), (.lineEnd, lineEndLength first s),
     (.token .name, nameLength s)] ++
    marks.map (fun (text, kind) => (.token kind, literalLength text s)) ++
    [(.skipped, skippedLength s), (.token .unknown, 1)]

/-- The first of the longest. -/
def best (found : Rule × Nat) : List (Rule × Nat) → Rule × Nat
  | [] => found
  | c :: cs => best (if found.2 < c.2 then c else found) cs

/-- The rule that takes the next piece of a text, and its length. -/
def next (first : Bool) (s : List Char) : Rule × Nat := best (.token .unknown, 0) (candidates first s)

def allFrom (first : Bool) : Nat → List Char → List Lexeme
  | _, [] => []
  | skip + 1, _ :: cs => allFrom false skip cs
  | 0, c :: cs =>
    let (rule, n) := next first (c :: cs)
    ⟨rule, (c :: cs).take n, ((c :: cs).drop n).take 2⟩ :: allFrom false (n - 1) cs

def all (s : List Char) : List Lexeme := allFrom true 0 s

end Lexeme

end Boardwright.Syntax
