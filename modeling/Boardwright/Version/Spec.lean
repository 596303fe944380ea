import Boardwright.Text.Blank
import Boardwright.Version.Basic

/-!
# Version specifiers

A specifier is one or more alternatives with `||` between them; an alternative is
one or more comparators with a space between them, all of which have to hold; a
comparator is `*` or an operator before a version. Alternatives and comparators are
tried from the left, and what has not been reached when the answer is known is not
read. A version is stripped of its prerelease and build before it is compared; the
versions in the specifier are not.
-/

namespace Boardwright

namespace Version

/-- The marks of specifiers, in the order in which they are looked for. -/
def operators : List String := ["*", "||", "^", "~", "!", "==", ">=", "<=", ">", "<"]

/-- How a comparator compares. -/
inductive Operator
  | caret
  | tilde
  | differs
  | equal
  | atLeast
  | atMost
  | above
  | below
  deriving Repr, DecidableEq

/-- Why a specifier cannot be answered. -/
inductive SpecFault
  | empty
  | version (m : Malformed)
  | invalid (spec : String)
  deriving Repr, DecidableEq

def SpecFault.message : SpecFault → String
  | .empty => ""
  | .version m => m.message
  | .invalid s => "Invalid version spec: " ++ s

/-- Whether a version stands to that of a comparator as its operator says. -/
def Operator.holds (op : Operator) (v x : Version) : Bool :=
  match op with
  | .caret => x.le v && v.lt x.bumpMajor
  | .tilde => x.le v && v.lt x.bumpMinor
  | .differs => !v.same x
  | .equal => v.same x
  | .atLeast => x.le v
  | .atMost => v.le x
  | .above => x.lt v
  | .below => v.lt x

/-- A comparator taken apart into its operator and the text of its version. -/
def operator? : List Char → Option (Operator × List Char)
  | '=' :: '=' :: s => some (.equal, s)
  | '>' :: '=' :: s => some (.atLeast, s)
  | '<' :: '=' :: s => some (.atMost, s)
  | '^' :: s => some (.caret, s)
  | '~' :: s => some (.tilde, s)
  | '!' :: s => some (.differs, s)
  | '>' :: s => some (.above, s)
  | '<' :: s => some (.below, s)
  | _ => none

def comparator (s : String) : Except SpecFault (Operator × Version) :=
  if s.isEmpty then .error .empty
  else match operator? s.toList with
    | some (op, rest) =>
      match parse (String.ofList rest) with
      | .ok x => .ok (op, x)
      | .error m => .error (.version m)
    | none =>
      match parse s with
      | .ok x => .ok (.caret, x)
      | .error _ => .error (.invalid s)

def matchesComparator (v : Version) (s : String) : Except SpecFault Bool :=
  let s := Text.trim s
  if s = "*" then .ok true
  else (comparator s).map fun (op, x) => op.holds v x

def matchesAll (v : Version) : List String → Except SpecFault Bool
  | [] => .ok true
  | s :: ss => do
    if ← matchesComparator v s then matchesAll v ss else pure false

def matchesAlternative (v : Version) (s : String) : Except SpecFault Bool :=
  let s := Text.trim s
  if s = "*" then .ok true
  else if Text.contains " " s then matchesAll v (Text.split " " s)
  else matchesComparator v s

def matchesAny (v : Version) : List String → Except SpecFault Bool
  | [] => .ok false
  | s :: ss => do
    if ← matchesAlternative v s then pure true else matchesAny v ss

def satisfies (v : Version) (spec : String) : Except SpecFault Bool :=
  let s := Text.trim spec
  if s = "*" then .ok true
  else if Text.contains "||" s then matchesAny v.clean (Text.split "||" s)
  else matchesAlternative v.clean s

/-- The version that a compiler stands for when it is asked whether it can build a
project: before a release it stands for the release to come. -/
def standsFor (compiler : Version) : Version :=
  if (compiler.prerelease.getD "").isEmpty then compiler
  else if compiler.major = 0 then compiler.clean.bumpPatch
  else compiler.clean.bumpMinor

/-- Whether a compiler can build what another version of it was used for. Until the
first major release a minor release may break things. -/
def supports (compiler builtWith : Version) : Except SpecFault Bool :=
  let c := compiler.standsFor
  c.satisfies ((if c.major = 0 then "~" else "^") ++ builtWith.text)

end Version

end Boardwright
