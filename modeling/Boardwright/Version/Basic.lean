import Boardwright.Text.Digit
import Boardwright.Text.Split

/-!
# Versions

A version has three numbers and may have a prerelease and a build. `Version.read`
takes the strict form; `Version.parse` also takes a `v` before it and a form in which
a dot, and not a hyphen, stands before the prerelease.

Versions are compared by their numbers, then by their prereleases: part by part,
numbers before words, and when one runs out by the length of the whole text. A
version without a prerelease comes after those that have one, and the build does not
count.
-/

namespace Boardwright

/-- A version number with its prerelease and build, if it has them. -/
structure Version where
  major : Nat
  minor : Nat
  patch : Nat
  prerelease : Option String := none
  build : Option String := none
  deriving Repr, DecidableEq

namespace Version

/-- A text that is no version. -/
structure Malformed where
  text : String
  deriving Repr, DecidableEq

def Malformed.message (m : Malformed) : String := m.text ++ " is not valid SemVer string"

def text (v : Version) : String :=
  v.major.repr ++ "." ++ v.minor.repr ++ "." ++ v.patch.repr ++
    (match v.prerelease with
      | some p => "-" ++ p
      | none => "") ++
    match v.build with
    | some b => "+" ++ b
    | none => ""

def isNumber : List Char → Bool
  | ['0'] => true
  | c :: cs => '1' ≤ c && c ≤ '9' && cs.all Text.isDigit
  | [] => false

/-- The letters, digits and hyphens of identifiers. -/
def isIdentChar (c : Char) : Bool := c.isAlphanum || c == '-'

/-- Whether a text may stand between the dots of a prerelease: a number, or a word
with at least one letter or hyphen. -/
def isPrereleasePart (s : List Char) : Bool :=
  isNumber s ||
    match s.dropWhile Text.isDigit with
    | c :: cs => (c.isAlpha || c == '-') && cs.all isIdentChar
    | [] => false

/-- Whether a text may stand between the dots of a build. -/
def isBuildPart (s : List Char) : Bool := !s.isEmpty && s.all isIdentChar

/-- A text cut at the first character of a kind, if there is one. -/
def cutAt (c : Char) (s : List Char) : List Char × Option (List Char) :=
  match Text.cut [c] s with
  | some (before, after) => (before, some after)
  | none => (s, none)

/-- The parts of an optional section, if they all have the right form. -/
def parts? (ok : List Char → Bool) : Option (List Char) → Option (Option String)
  | none => some none
  | some s => if (s.splitOn '.').all ok then some (some (String.ofList s)) else none

/-- A text read as a version in the strict form. One line feed at its end is passed
over. -/
def readChars (s : List Char) : Option Version := do
  let s := match s.reverse with
    | '\n' :: r => r.reverse
    | _ => s
  let (front, build) := cutAt '+' s
  let (numbers, prerelease) := cutAt '-' front
  match numbers.splitOn '.' with
  | [a, b, c] =>
    if isNumber a && isNumber b && isNumber c then
      let prerelease ← parts? isPrereleasePart prerelease
      let build ← parts? isBuildPart build
      pure ⟨Text.number a, Text.number b, Text.number c, prerelease, build⟩
    else none
  | _ => none

def read (s : String) : Except Malformed Version :=
  match readChars s.toList with
  | some v => .ok v
  | none => .error ⟨s⟩

/-- A text with a hyphen after its third part, whether or not more follows. -/
def hyphenated (s : String) : String :=
  let ps := Text.split "." s
  Text.join "." (ps.take 3) ++ "-" ++ Text.join "." (ps.drop 3)

/-- A text read as a version: with or without a `v` before it, in the strict form or
with a dot before the prerelease. -/
def parse (s : String) : Except Malformed Version :=
  let s := if Text.startsWith "v" s then Text.dropChars 1 s else s
  match read s with
  | .ok v => .ok v
  | .error _ => read (hyphenated s)

def clean (v : Version) : Version := ⟨v.major, v.minor, v.patch, none, none⟩

def unbuilt (v : Version) : Version := { v with build := none }

def bumpMajor (v : Version) : Version := ⟨v.major + 1, 0, 0, none, none⟩

def bumpMinor (v : Version) : Version := ⟨v.major, v.minor + 1, 0, none, none⟩

def bumpPatch (v : Version) : Version := ⟨v.major, v.minor, v.patch + 1, none, none⟩

def compareChars : List Char → List Char → Ordering
  | [], [] => .eq
  | [], _ :: _ => .lt
  | _ :: _, [] => .gt
  | a :: as, b :: bs => (compare a.toNat b.toNat).then (compareChars as bs)

/-- Whether a part of a prerelease counts as a number. -/
def isNumeral (s : List Char) : Bool := !s.isEmpty && s.all Text.isDigit

/-- Two parts of prereleases: numbers before words. -/
def comparePart (a b : List Char) : Ordering :=
  match isNumeral a, isNumeral b with
  | true, true => compare (Text.number a) (Text.number b)
  | true, false => .lt
  | false, true => .gt
  | false, false => compareChars a b

/-- The first difference of two lists of parts, as far as both go. -/
def compareParts : List (List Char) → List (List Char) → Ordering
  | a :: as, b :: bs => (comparePart a b).then (compareParts as bs)
  | _, _ => .eq

/-- Two prereleases, a missing one being the empty text. -/
def comparePrerelease (a b : String) : Ordering :=
  (compareParts (a.toList.splitOn '.') (b.toList.splitOn '.')).then
    (compare a.length b.length)

def order (v w : Version) : Ordering :=
  ((compare v.major w.major).then (compare v.minor w.minor)).then (compare v.patch w.patch)
    |>.then <|
    match comparePrerelease (v.prerelease.getD "") (w.prerelease.getD "") with
    | .eq => .eq
    | o =>
      if (v.prerelease.getD "").isEmpty then .gt
      else if (w.prerelease.getD "").isEmpty then .lt
      else o

def lt (v w : Version) : Bool := v.order w == .lt

def le (v w : Version) : Bool := v.order w != .gt

def same (v w : Version) : Bool := v.order w == .eq

end Version

end Boardwright
