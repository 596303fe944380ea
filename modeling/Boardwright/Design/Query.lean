import Boardwright.Ancestry
import Boardwright.Design.Instance

/-!
# Questions about a design

The children of an instance are found by following its path from the tree that it
stands in, which is made if it is not there; so are all instances below one, each
after those below it. What an instance is and what it links is read off the instance
itself.
-/

namespace Boardwright

namespace Instance

/-- The attribute of a name: the one that was set from outside, or else that of the
first level that assigns it. -/
def get? (i : Instance) (name : String) : Option Value :=
  (i.override.get? name).or (i.levels.findSome? fun l => l.data.get? name)

/-- All attributes. -/
def data (i : Instance) : Table String Value :=
  Table.ofList (i.levels.reverse.flatMap (fun l => l.data.entries) ++ i.override.entries)

def isA (i : Instance) (b : Builtin) : Bool := i.levels.any fun l => l.address == b.address

def isAny (i : Instance) (bs : List Builtin) : Bool := bs.any i.isA

end Instance

namespace Library

def instanceAt (a : Address) : Work Library Instance := do
  match (← get).instances.get? a with
  | some i => return i
  | none => throw (.fault .missingKey)

def follow (a : Address) : List String → Work Library Address
  | [] => return a
  | n :: ns => do
    if (← instanceAt a).children.contains n then follow (a.addInstance n) ns
    else throw (.fault .missingKey)

def children (a : Address) : Work Library (List Address) := do
  tree a.entry
  let here ← match a.instanceSection with
    | none | some "" => pure a.entry
    | some path => follow a.entry (Text.split "." path)
  return (← instanceAt here).children.map here.addInstance

def dataOf (a : Address) : Work Library Instance := do
  tree a.entry
  instanceAt a

def descendantsOfAll (found : Address → Work Library (List Address)) :
    List Address → Work Library (List Address)
  | [] => return []
  | a :: as => do
    let first ← found a
    return first ++ (← descendantsOfAll found as)

/-- The instances below one and itself, each after those below it, if no more than
`depth` stand one in the other. -/
def descendantsWithin : Nat → Address → Work Library (List Address)
  | 0, _ => throw (.fault .endlessRecursion)
  | depth + 1, a => do
    let below ← descendantsOfAll (descendantsWithin depth) (← children a)
    return below ++ [a]

/-- The instances below one and itself, each after those below it. No chain of
children is longer than the number of instances, unless it goes round. -/
def descendants (a : Address) : Work Library (List Address) := do
  tree a.entry
  descendantsWithin ((← get).instances.size + 1) a

def isAny (bs : List Builtin) (a : Address) : Work Library Bool := do
  return (← instanceAt a).isAny bs

def linksOf (a : Address) : Work Library (List (Address × Address)) := do
  return (← instanceAt a).links.map fun l => (l.source, l.target)

end Library

end Boardwright
