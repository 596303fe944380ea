import Boardwright.Package.Spec

/-!
# Choosing a release

The tags of a repository name its releases. Of those that satisfy a specifier the
newest is chosen. Tags of which only the builds differ name one release, by the last of
them. A specifier with an at sign names what is to be checked out, whether it is a
release or not.
-/

namespace Boardwright

/-- A release: a version and the tag that names it. -/
structure Release where
  version : Version
  tag : String
  deriving Repr, DecidableEq

namespace Release

/-- What is to be checked out. -/
inductive Choice
  | named (ref : String)
  | release (r : Release)
  | nothing
  deriving Repr, DecidableEq

/-- Why no release can be chosen. -/
inductive ChoiceFault
  | tag (m : Version.Malformed)
  | spec (f : Version.SpecFault)
  | noneMatches
  deriving Repr, DecidableEq

/-- The releases with one more. One of the same version keeps its place and takes the new
tag. -/
def add (r : Release) : List Release → List Release
  | [] => [r]
  | s :: ss =>
    if s.version.unbuilt = r.version.unbuilt then { s with tag := r.tag } :: ss
    else s :: add r ss

def ofTags : List String → List Release → Except ChoiceFault (List Release)
  | [], found => .ok found
  | tag :: tags, found =>
    match Version.parse tag with
    | .ok version => ofTags tags (add ⟨version, tag⟩ found)
    | .error m => .error (.tag m)

section

-- the tag is a variable, on which reading only gets stuck
attribute [local irreducible] Version.parse

theorem ofTags_cons (tag : String) (tags : List String) (found : List Release) :
    ofTags (tag :: tags) found = match Version.parse tag with
      | .ok version => ofTags tags (add ⟨version, tag⟩ found)
      | .error m => .error (.tag m) := rfl

end

def satisfying (spec : String) : List Release → Except ChoiceFault (List Release)
  | [] => .ok []
  | r :: rs =>
    match r.version.satisfies spec with
    | .error f => .error (.spec f)
    | .ok holds => (satisfying spec rs).map fun more => if holds then r :: more else more

def newest? : List Release → Option Release
  | [] => none
  | r :: rs => some (rs.foldl (fun best s => if best.version.lt s.version then s else best) r)

def refOf (spec : String) : String :=
  String.ofList (Text.strip (· == '@') (Text.strip Text.isBlank spec.toList))

/-- What is to be checked out of a repository with the given tags. -/
def choose (tags : List String) (spec : String) : Except ChoiceFault Choice := do
  let releases ← ofTags tags []
  if Text.contains "@" spec then return .named (refOf spec)
  else if releases.isEmpty then return .nothing
  else
    match newest? (← satisfying spec releases) with
    | some r => return .release r
    | none => throw .noneMatches

end Release

end Boardwright
