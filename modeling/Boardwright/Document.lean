import Boardwright.Number.Text
import Boardwright.Table
import Boardwright.Text.Split

/-!
# Plain data

The data that configuration files hold: nothing, truth values, numbers, texts, lists
and maps. Two scalars are the same key if they are the same number or the same text,
a truth value counting as zero or one. `Document.inline` writes data on one line, as
it stands inside messages.
-/

namespace Boardwright

/-- Plain data. -/
inductive Document
  | null
  | bool (b : Bool)
  | int (n : Int)
  | real (x : Float)
  | text (s : String)
  | list (items : List Document)
  | map (entries : List (Document × Document))
  deriving Inhabited

namespace Document

def number? : Document → Option (Sum Int Float)
  | .bool b => some (.inl (if b then 1 else 0))
  | .int n => some (.inl n)
  | .real x => some (match Number.whole? x with
      | some n => .inl n
      | none => .inr x)
  | _ => none

def sameKey (a b : Document) : Bool :=
  match a, b with
  | .null, .null => true
  | .text s, .text t => s == t
  | a, b =>
    match a.number?, b.number? with
    | some (.inl m), some (.inl n) => m == n
    | some (.inr x), some (.inr y) => x == y
    | _, _ => false

instance : BEq Document := ⟨sameKey⟩

def isKey : Document → Bool
  | .list _ => false
  | .map _ => false
  | _ => true

/-- The mark that a text is quoted with: a double one only if the text holds a single
one and no double one. -/
def quoteMark (s : List Char) : Char :=
  if s.contains '\'' && !s.contains '"' then '"' else '\''

def quoteChar (mark c : Char) : List Char :=
  if c == mark || c == '\\' then ['\\', c]
  else if c == '\n' then ['\\', 'n']
  else if c == '\r' then ['\\', 'r']
  else if c == '\t' then ['\\', 't']
  else if c.toNat < 32 || c.toNat = 127 then
    ['\\', 'x', Nat.digitChar (c.toNat / 16), Nat.digitChar (c.toNat % 16)]
  else [c]

def quoted (s : String) : String :=
  let mark := quoteMark s.toList
  String.ofList (mark :: s.toList.flatMap (quoteChar mark) ++ [mark])

mutual

/-- Data on one line. -/
def inline : Document → String
  | .null => "None"
  | .bool b => if b then "True" else "False"
  | .int n => toString n
  | .real x => Number.text x
  | .text s => quoted s
  | .list items => "[" ++ Text.join ", " (inlineAll items) ++ "]"
  | .map entries => "\x7b" ++ Text.join ", " (inlineEntries entries) ++ "\x7d"

def inlineAll : List Document → List String
  | [] => []
  | d :: ds => inline d :: inlineAll ds

def inlineEntries : List (Document × Document) → List String
  | [] => []
  | (k, v) :: es => (inline k ++ ": " ++ inline v) :: inlineEntries es

end

def show_ : Document → String
  | .text s => s
  | d => d.inline

def inlineTexts (ss : List String) : String := inline (.list (ss.map .text))

end Document

end Boardwright
