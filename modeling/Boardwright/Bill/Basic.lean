import Boardwright.Netlist.Basic
import Boardwright.Text.Csv
import Boardwright.Text.Natural

/-!
# Bills of materials

A bill has a row for each part that is named, with the designators of all components
that stand for it, and a row for each component for which no part is named. It is shown
as a table and written as separated values.

The designator map shows the components by designator and by name.
-/

namespace Boardwright

namespace Bill

def columns : List String := ["Comment", "Designator", "Footprint", "LCSC"]

def notEntry : Failure := .fault (.value "Cannot generate a BoM for an instance address.")

/-- The part that a component stands for, if one can be named. -/
def partOf (a : Address) : Work Session (Option String) := do
  let part ← Session.warned [.missingData, .noMatchingPart] none do
    return some (← Session.design (Component.part a))
  part.mapM Netlist.keyText

/-- The comment on a component: the value of its part, or else the value that is asked
for. -/
def commentOf (a : Address) : Work Session String := do
  let value ← Session.warned [.missingData, .noMatchingPart] none do
    return some (← Session.design (Component.value a))
  match value with
  | some v => return v
  | none => Session.warned [.missingData] "None" (Session.design (Component.wishedValue a))

/-- The footprint of a component, or a mark that there is none. -/
def footprintOf (a : Address) : Work Session Value :=
  Session.warned [.missingData] (.text "?") (Session.design (Component.footprint a))

/-- The row of a component; a footprint that is a quantity cannot be shown in it. -/
def row (comment : String) (designators : List String) (footprint : Value) (part : String) :
    Work Session (List String) :=
  match footprint with
  | .text f => return [comment, Text.join "," designators, f, part]
  | .quantity _ => throw (.fault .notRenderable)

/-- The rows of the components that stand for one part, or for none. -/
def rowsOf (ds : Table Address String) (part : Option String) (as : List Address) :
    Work Session (List (List String)) := do
  match part with
  | none | some "" => as.mapM fun a => do
    let comment ← commentOf a
    let d ← Netlist.designated ds (some a)
    row comment [d] (← footprintOf a) "?"
  | some p =>
    let names ← as.mapM fun a => Netlist.designated ds (some a)
    let first := as.headD ⟨""⟩
    let comment ← commentOf first
    return [← row comment names (← footprintOf first) p]

def rows (entry : Address) : Work Session (List (List String)) := do
  let groups ← gatherBy partOf (← Session.design (Component.below entry))
  let ds ← Session.design (Component.designators entry.entry)
  return (← groups.mapM fun (part, as) => rowsOf ds part as).flatten

/-- The bill of an entry as separated values; it is also shown as a table. -/
def text (entry : Address) : Work Session String := do
  if entry.isInstance then throw notEntry
  else
    let rs ← rows entry
    Session.present ⟨columns, rs⟩
    return Text.Csv.text (columns :: rs)

/-- Pairs with the later one of two with one key kept in the place of the first. -/
def byKey {κ ν : Type} [BEq κ] (pairs : List (κ × ν)) : List (κ × ν) := (Table.ofList pairs).entries

/-- The order of designators with names: natural, and by name where it leaves them
equal. -/
def byDesignator (a b : String × Option String) : Bool :=
  ((Text.Natural.order a.1 b.1).then (match a.2, b.2 with
    | none, none => .eq
    | none, some _ => .lt
    | some _, none => .gt
    | some x, some y => Text.Natural.order x y)) != .gt

/-- The order of names with designators. -/
def byComponent (a b : Option String × String) : Bool :=
  ((compare (a.1.getD "") (b.1.getD "")).then (compare a.2 b.2)) != .gt

/-- The two tables of components: by designator and by name. A component that is the
entry itself has no name and cannot be put in order with others. -/
def designatorMap (entry : Address) : Work Session (List Grid) := do
  if entry.isInstance then throw notEntry
  else
    let components ← Session.design (Component.below entry)
    let ds ← Session.design (Component.designators entry.entry)
    let pairs ← components.mapM fun a => do
      return (← Netlist.designated ds (some a), a.instanceSection)
    let byD := (byKey pairs).mergeSort byDesignator
    let named := byKey (pairs.map fun (d, n) => (n, d))
    if 1 < named.length && named.any (fun e => e.1.isNone) then throw (.fault .wrongType)
    else
      let byN := named.mergeSort byComponent
      let grids := [⟨["Designator ↓", "Name"], byD.map fun (d, n) => [d, n.getD ""]⟩,
        ⟨["Name ↓", "Designator"], byN.map fun (n, d) => [n.getD "", d]⟩]
      grids.forM Session.present
      return grids

end Bill

end Boardwright
