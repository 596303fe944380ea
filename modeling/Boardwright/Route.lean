import Boardwright.Text.Split

/-!
# Routes

A route leads to a file or a directory, from the root or from the directory one is
in. It is the list of its parts; empty parts and single dots are dropped when it is
read, and double dots are kept until the route is resolved.
-/

namespace Boardwright

/-- A way to a file or a directory. -/
structure Route where
  rooted : Bool
  parts : List String
  deriving Repr, DecidableEq, Inhabited

namespace Route

def ofText (s : String) : Route :=
  ⟨Text.startsWith "/" s, (Text.split "/" s).filter fun p => p != "" && p != "."⟩

def text (r : Route) : String :=
  if r.rooted then "/" ++ Text.join "/" r.parts
  else if r.parts.isEmpty then "." else Text.join "/" r.parts

def join (r s : Route) : Route := if s.rooted then s else ⟨r.rooted, r.parts ++ s.parts⟩

/-- The route that a text writes, taken from where `r` leads. -/
def joinText (r : Route) (s : String) : Route := r.join (ofText s)

def parent (r : Route) : Route := ⟨r.rooted, r.parts.dropLast⟩

def name (r : Route) : String := r.parts.getLast?.getD ""

/-- The last part of a route cut before its last dot, unless the dot is its first or
its last character. -/
def nameCut (r : Route) : String × String :=
  match Text.cutLast ['.'] r.name.toList with
  | some (before, after) =>
    if before.isEmpty || after.isEmpty then (r.name, "")
    else (String.ofList before, "." ++ String.ofList after)
  | none => (r.name, "")

/-- The last part of a route without its ending. -/
def stem (r : Route) : String := r.nameCut.1

/-- The ending of the last part of a route, with its dot. -/
def ending (r : Route) : String := r.nameCut.2

def withName (r : Route) (s : String) : Route := ⟨r.rooted, r.parts.dropLast ++ [s]⟩

def withEnding (r : Route) (s : String) : Route := r.withName (r.stem ++ s)

/-- The parts of a directory after a list of further parts has been followed, each
double dot taking back the part before it. -/
def follow : List String → List String → List String
  | at_, [] => at_
  | at_, p :: ps => if p == ".." then follow at_.dropLast ps else follow (at_ ++ [p]) ps

/-- The parts of a route from the root, if one is in the directory `cwd`. -/
def resolve (cwd : List String) (r : Route) : List String :=
  if r.rooted then follow [] r.parts else follow cwd r.parts

def ofParts (parts : List String) : Route := ⟨true, parts⟩

/-- The rest of a route after another one that it begins with. -/
def relativeTo? (r base : Route) : Option Route :=
  if r.rooted == base.rooted && base.parts.isPrefixOf r.parts then
    some ⟨false, r.parts.drop base.parts.length⟩
  else none

def partsLe : List String → List String → Bool
  | [], _ => true
  | _ :: _, [] => false
  | p :: ps, q :: qs => if p == q then partsLe ps qs else decide (p ≤ q)

/-- A route and those that lead to the directories above it. -/
def ascending (r : Route) : List Route :=
  (List.range (r.parts.length + 1)).reverse.map fun n => ⟨r.rooted, r.parts.take n⟩

end Route

end Boardwright
