import Boardwright.Design.Query
import Boardwright.Ring

/-!
# Nets

A net is a group of pins and signals that are connected. Each pin and each signal below
a root is in one net. A link of two pins or signals joins their nets; a link of two
interfaces joins each child of the first with the child of that name of the second.
-/

namespace Boardwright

namespace Net

/-- The rings of pins and signals while nets are found. -/
abbrev Rings := Soup Address Address

def failed : Soup.Fault → Failure
  | .broken => .fault .assertion
  | _ => .fault .missingKey

def stepped (r : Except Soup.Fault Rings) : Work Library Rings :=
  match r with
  | .ok s => pure s
  | .error f => throw (failed f)

/-- The rings after the children of an interface have been joined with those of
another. -/
def joinChildren (target : Address) : Rings → List Address → Work Library Rings
  | s, [] => return s
  | s, a :: as => do
    if ← Library.isAny [.pin, .signal] a then
      joinChildren target (← stepped (s.join a (target.addInstance a.name))) as
    else throw (.fault (.unsupported ""))

def joinLink (s : Rings) (source target : Address) : Work Library Rings := do
  if ← Library.isAny [.interface] source then
    if ← Library.isAny [.interface] target then
      joinChildren target s (← Library.children source)
    else throw (.fault (.unsupported ""))
  else stepped (s.join source target)

def joinLinks : Rings → List (Address × Address) → Work Library Rings
  | s, [] => return s
  | s, (source, target) :: more => do joinLinks (← joinLink s source target) more

def ringsOf : Rings → List Address → Work Library Rings
  | s, [] => return s
  | s, a :: as => do
    let s ← if ← Library.isAny [.pin, .signal] a then stepped (s.add a a) else pure s
    ringsOf (← joinLinks s (← Library.linksOf a)) as

def below (root : Address) : Work Library (List (List Address)) := do
  return (← ringsOf {} (← Library.descendants root)).groups

end Net

end Boardwright
