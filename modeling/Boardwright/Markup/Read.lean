import Boardwright.Failure
import Boardwright.Markup.Scalar
import Boardwright.Text.Blank

/-!
# Reading configuration texts

A configuration text is data in indented lines: maps with an entry on each line, lists
whose items begin with a hyphen, and lists and maps in brackets that may go over
several lines. A scalar is a word or a text in quotes, and it may have a tag.

What cannot be read has one of three faults. A character that begins nothing, such as
a tab, is a fault of the scanner, and so are quotes that are not closed and a colon
where no entry can begin. Brackets that are not closed and lines that stand in the
wrong column are faults of the parser. A tag that is not known is a fault that is only
seen after all has been read.
-/

namespace Boardwright.Markup

/-- Where one is in a text: the characters to come, the column of the first of them,
and whether a tag has been met that is not known. -/
structure Cursor where
  rest : List Char
  column : Nat := 0
  foreign : Bool := false

abbrev Reading := Except Fault.Markup (Document × Cursor)

namespace Cursor

/-- The place after `n` characters of a line. -/
def forward (c : Cursor) (n : Nat) : Cursor :=
  { c with rest := c.rest.drop n, column := c.column + n }

/-- What is left after spaces, line ends and comments, the column there, and whether a
line has ended. -/
def skipFrom : Bool → List Char → Nat → Bool → List Char × Nat × Bool
  | _, [], column, ended => ([], column, ended)
  | true, '\n' :: cs, _, _ => skipFrom false cs 0 true
  | true, _ :: cs, column, ended => skipFrom true cs (column + 1) ended
  | false, ' ' :: cs, column, ended => skipFrom false cs (column + 1) ended
  | false, '\n' :: cs, _, _ => skipFrom false cs 0 true
  | false, '#' :: cs, column, ended => skipFrom true cs (column + 1) ended
  | false, c :: cs, column, ended => (c :: cs, column, ended)

/-- The place after spaces, line ends and comments, and whether a line has ended. -/
def skip (c : Cursor) : Cursor × Bool :=
  let (rest, column, ended) := skipFrom false c.rest c.column false
  ({ c with rest, column }, ended)

def skipSpaces (c : Cursor) : Cursor := c.forward (c.rest.takeWhile (· == ' ')).length

end Cursor

def endsWord : List Char → Bool
  | [] => true
  | c :: _ => c == ' ' || c == '\n' || c == '\t'

def isBracketMark (c : Char) : Bool := [',', '[', ']', '\x7b', '\x7d'].contains c

def isColon (inBrackets : Bool) : List Char → Bool
  | ':' :: cs => endsWord cs || (inBrackets && cs.head?.any isBracketMark)
  | _ => false

def word (inBrackets : Bool) : Bool → List Char → List Char
  | _, [] => []
  | blank, c :: cs =>
    if c == '\n' || c == '\t' || (inBrackets && isBracketMark c) ||
        isColon inBrackets (c :: cs) || (blank && c == '#') then []
    else c :: word inBrackets (c == ' ') cs

def bareWord (cs : List Char) : String :=
  String.ofList (cs.reverse.dropWhile (· == ' ')).reverse

/-- The value of a digit in base sixteen. -/
def hexValue (c : Char) : Nat :=
  if isBasicDigit c then c.toNat - 48
  else if 'a' ≤ c && c ≤ 'f' then c.toNat - 87
  else if 'A' ≤ c && c ≤ 'F' then c.toNat - 55
  else 0

/-- The characters that stand for others after a backslash. -/
def escapes : List (Char × Char) :=
  [('0', '\x00'), ('a', '\x07'), ('b', '\x08'), ('t', '\t'), ('n', '\n'), ('v', '\x0b'),
   ('f', '\x0c'), ('r', '\r'), ('e', '\x1b'), (' ', ' '), ('"', '"'), ('/', '/'), ('\\', '\\'),
   ('N', '\u0085'), ('_', '\u00a0'), ('L', '\u2028'), ('P', '\u2029')]

/-- The text up to the closing double quote, how many characters it takes, and `none`
if it is not closed. Each step takes at least one character, so the length of the text
is enough of `fuel`. -/
def doubleQuoted : Nat → List Char → Option (List Char × Nat)
  | 0, _ => none
  | _, [] => none
  | fuel + 1, c :: cs =>
    if c == '"' then some ([], 1)
    else if c == '\\' then
      match cs with
      | [] => none
      | e :: rest =>
        let width := if e == 'x' then 2 else if e == 'u' then 4 else if e == 'U' then 8 else 0
        let code := (rest.take width).foldl (fun n d => n * 16 + hexValue d) 0
        let char := if width = 0 then (escapes.lookup e).getD e else Char.ofNat code
        (doubleQuoted fuel (rest.drop width)).map fun (s, n) => (char :: s, n + width + 2)
    else (doubleQuoted fuel cs).map fun (s, n) => ((if c == '\n' then ' ' else c) :: s, n + 1)

/-- The text up to the closing single quote, and how many characters it takes. A quote
that stands twice is a part of the text. -/
def singleQuoted : List Char → Option (List Char × Nat)
  | [] => none
  | '\'' :: '\'' :: cs => (singleQuoted cs).map fun (s, n) => ('\'' :: s, n + 2)
  | c :: cs =>
    if c == '\'' then some ([], 1)
    else (singleQuoted cs).map fun (s, n) => ((if c == '\n' then ' ' else c) :: s, n + 1)

/-- The tags of the common sorts of data. -/
def knownTags : List String :=
  ["!!null", "!!bool", "!!int", "!!float", "!!str", "!!seq", "!!map"]

def readScalar (inBrackets : Bool) (c : Cursor) : Reading :=
  match c.rest with
  | [] => .ok (.null, c)
  | '"' :: cs =>
    match doubleQuoted (cs.length + 1) cs with
    | some (s, n) => .ok (.text (String.ofList s), c.forward (n + 1))
    | none => .error .scanner
  | '\'' :: cs =>
    match singleQuoted cs with
    | some (s, n) => .ok (.text (String.ofList s), c.forward (n + 1))
    | none => .error .scanner
  | d :: _ =>
    if ['\t', '@', '%', '\x60'].contains d then .error .scanner
    else if ['&', '*', '|', '>', ',', ']', '\x7d', '?'].contains d then .error .parser
    else
      let w := word inBrackets false c.rest
      let c' := c.forward w.length
      if c'.rest.head? == some '\t' then .error .scanner
      else .ok (ofWord (bareWord w), c')

def readTag (c : Cursor) : Cursor :=
  match c.rest with
  | '!' :: _ =>
    let tag := c.rest.takeWhile fun d => d != ' ' && d != '\n' && !isBracketMark d
    let c' := (c.forward tag.length).skipSpaces
    { c' with foreign := c.foreign || !knownTags.contains (String.ofList tag) }
  | _ => c

mutual

/-- Data in brackets, or a scalar among them. -/
def readFlow : Nat → Cursor → Reading
  | 0, _ => .error .parser
  | fuel + 1, c =>
    let c := readTag c
    match c.rest with
    | '[' :: _ => readItems fuel [] (c.forward 1)
    | '\x7b' :: _ => readPairs fuel [] (c.forward 1)
    | _ => readScalar true c

def readItems : Nat → List Document → Cursor → Reading
  | 0, _, _ => .error .parser
  | fuel + 1, items, c =>
    let (c, _) := c.skip
    match c.rest with
    | [] => .error .parser
    | ']' :: _ => .ok (.list items.reverse, c.forward 1)
    | _ => do
      let (item, c) ← readFlow fuel c
      let (c, _) := c.skip
      let (item, c) ← if isColon true c.rest then do
          let (value, c) ← readValue fuel (c.forward 1)
          pure (Document.map [(item, value)], c)
        else pure (item, c)
      let (c, _) := c.skip
      match c.rest with
      | ',' :: _ => readItems fuel (item :: items) (c.forward 1)
      | ']' :: _ => .ok (.list (item :: items).reverse, c.forward 1)
      | '\t' :: _ => .error .scanner
      | _ => .error .parser

def readValue : Nat → Cursor → Reading
  | 0, _ => .error .parser
  | fuel + 1, c =>
    let (c, _) := c.skip
    match c.rest with
    | [] => .error .parser
    | ',' :: _ | '\x7d' :: _ | ']' :: _ => .ok (.null, c)
    | _ => readFlow fuel c

/-- The entries of a map up to its closing bracket. -/
def readPairs : Nat → List (Document × Document) → Cursor → Reading
  | 0, _, _ => .error .parser
  | fuel + 1, pairs, c =>
    let (c, _) := c.skip
    match c.rest with
    | [] => .error .parser
    | '\x7d' :: _ => .ok (.map pairs.reverse, c.forward 1)
    | _ => do
      let (key, c) ← readFlow fuel c
      let (c, _) := c.skip
      let (value, c) ← match c.rest with
        | ':' :: _ => readValue fuel (c.forward 1)
        | _ => pure (Document.null, c)
      let (c, _) := c.skip
      match c.rest with
      | ',' :: _ => readPairs fuel ((key, value) :: pairs) (c.forward 1)
      | '\x7d' :: _ => .ok (.map ((key, value) :: pairs).reverse, c.forward 1)
      | '\t' :: _ => .error .scanner
      | _ => .error .parser

end

/-- The rest of a word that goes on in the lines below, which stand at column `floor`
or to the right of it. -/
def continued (floor : Nat) : Nat → String → Cursor → Except Fault.Markup (String × Cursor)
  | 0, _, _ => .error .parser
  | fuel + 1, sofar, c =>
    let (next, ended) := c.skip
    if !ended || next.rest.isEmpty || next.column < floor then .ok (sofar, c)
    else
      let w := word false false next.rest
      let c' := next.forward w.length
      if w.isEmpty || isColon false c'.rest || c'.rest.head? == some '\t' then .error .scanner
      else continued floor fuel (sofar ++ " " ++ bareWord w) c'

/-- Whether a scalar may go on in the lines below: it is no text in quotes. -/
def isWordStart : List Char → Bool
  | '"' :: _ => false
  | '\'' :: _ => false
  | _ => true

mutual

/-- The data that stand at column `floor` or to the right of it. With `inLine` they
stand on the line of a key, where no map begins. -/
def readNode : Nat → Nat → Bool → Cursor → Reading
  | 0, _, _, _ => .error .parser
  | fuel + 1, floor, inLine, start => do
    let (here, ended) := start.skip
    let inLine := inLine && !ended
    if here.rest.isEmpty || (ended && here.column < floor) then return (.null, start)
    else
      let c := readTag here
      match c.rest with
      | '[' :: _ | '\x7b' :: _ => readFlow fuel c
      | '-' :: more =>
        if endsWord more && !inLine then readList fuel here.column [] c
        else readText fuel floor inLine here.column c
      | [] | '\n' :: _ => readNode fuel floor inLine c
      | _ => readText fuel floor inLine here.column c

/-- A scalar, or the map whose first key it is. -/
def readText : Nat → Nat → Bool → Nat → Cursor → Reading
  | 0, _, _, _, _ => .error .parser
  | fuel + 1, floor, inLine, column, c => do
    let (value, after) ← readScalar false c
    let next := after.skipSpaces
    if next.rest.head? == some '\t' then throw .scanner
    else if isColon false next.rest then
      if inLine then throw .scanner
      else readMap fuel column [] value (next.forward 1)
    else if isWordStart c.rest then
      let (whole, last) ← continued floor fuel (bareWord (word false false c.rest)) after
      return (ofWord whole, last)
    else return (value, after)

def readMap : Nat → Nat → List (Document × Document) → Document → Cursor → Reading
  | 0, _, _, _, _ => .error .parser
  | fuel + 1, column, entries, key, c => do
    let (next, ended) := c.skip
    let isList := ended && next.column == column &&
      match next.rest with
      | '-' :: more => endsWord more
      | _ => false
    let (value, c) ← if isList then readList fuel column [] next
      else readNode fuel (column + 1) true c
    let entries := (key, value) :: entries
    let (next, ended) := c.skip
    if next.rest.isEmpty || (ended && next.column < column) then
      return (.map entries.reverse, c)
    else if !ended || next.column != column then throw .parser
    else
      let (key, after) ← readScalar false (readTag next)
      let after := after.skipSpaces
      if isColon false after.rest then readMap fuel column entries key (after.forward 1)
      else throw .scanner

def readList : Nat → Nat → List Document → Cursor → Reading
  | 0, _, _, _ => .error .parser
  | fuel + 1, column, items, c => do
    let (item, c) ← readNode fuel (column + 1) false (c.forward 1)
    let (next, ended) := c.skip
    let goesOn := next.column == column && match next.rest with
      | '-' :: more => endsWord more
      | _ => false
    if next.rest.isEmpty || (ended && next.column ≤ column && !goesOn) then
      return (.list (item :: items).reverse, c)
    else if !ended || !goesOn then throw .parser
    else readList fuel column (item :: items) next

end

/-- The data of a configuration text. -/
def read (s : String) : Except Fault.Markup Document := do
  let cs := Text.lineFeeds s.toList
  let (d, c) ← readNode (4 * cs.length + 8) 0 false ⟨cs, 0, false⟩
  if !(c.skip).1.rest.isEmpty then throw .parser
  else if c.foreign then throw .constructor
  else return d

end Boardwright.Markup
