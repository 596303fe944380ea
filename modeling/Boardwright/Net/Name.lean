import Boardwright.Net.Basic

/-!
# Names of nets

The signals of a net vote for its name, each with its own name: a signal that stands
below an interface has more weight than others, and one without a parent the most. The
first name with the greatest weight is taken; a net without signals is called `net`.
Nets of one name are told apart by a number, the first of them having none.
-/

namespace Boardwright

namespace Net

def weight (a : Address) : Work Library Nat := do
  if a.parent.isNone then return 10
  else if ← a.parents.anyM (Library.isAny [.interface]) then return 5
  else return 2

def votes : Table String Nat → List Address → Work Library (Table String Nat)
  | t, [] => return t
  | t, a :: as => do
    if ← Library.isAny [.signal] a then
      votes (t.set a.name ((t.get? a.name).getD 0 + (← weight a))) as
    else votes t as

/-- The first name with the greatest number of votes. -/
def winner? (t : Table String Nat) : Option String :=
  match t.entries with
  | [] => none
  | e :: es => some (es.foldl (fun best e => if best.2 < e.2 then e else best) e).1

def baseName (net : List Address) : Work Library String := do
  return (winner? (← votes ∅ net)).getD "net"

/-- A name with a number; zero is not written. -/
def numbered (base : String) (n : Nat) : String :=
  if n = 0 then base else base ++ "-" ++ toString n

/-- Names told apart by numbers: each is given the number of equal names before it. -/
def tellApart : List String → List String → List String
  | _, [] => []
  | seen, n :: ns => numbered n (seen.count n) :: tellApart (n :: seen) ns

def named (nets : List (List Address)) : Work Library (Table String (List Address)) := do
  let bases ← nets.mapM baseName
  return Table.ofList ((tellApart [] bases).zip nets)

def byName (entry : Address) : Work Library (Table String (List Address)) := do
  if entry.isInstance then throw (.fault (.value "Only entry are supported for now"))
  else named (← below entry)

def nameOf (a : Address) : Work Library String := do
  match (← byName a.entry).entries.reverse.find? fun (_, net) => net.contains a with
  | some (name, _) => return name
  | none => throw (.fault .missingKey)

end Net

end Boardwright
