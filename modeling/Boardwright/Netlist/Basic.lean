import Boardwright.Component.Attribute
import Boardwright.Component.Designator
import Boardwright.Digest.Blake
import Boardwright.Net.Name
import Boardwright.Session

/-!
# Netlists

A netlist lists the components of a design, the library parts that they are drawn
with, and the nets with the pins on them. Components of one footprint share a library
part, which is made after the first of them.
-/

namespace Boardwright

/-- A part that components of one footprint are drawn with. -/
structure LibraryPart where
  part : String
  description : String
  pins : List String
  deriving Repr, DecidableEq

/-- A component in a netlist. -/
structure Placement where
  designator : String
  value : String
  footprint : String
  library : LibraryPart
  path : String
  stamp : String
  deriving Repr, DecidableEq

/-- A pin on a net. -/
structure Terminal where
  designator : String
  pin : String
  deriving Repr, DecidableEq

/-- A net with the pins on it. -/
structure Wire where
  code : Nat
  name : String
  terminals : List Terminal
  deriving Repr, DecidableEq

/-- The components, library parts and nets of a design. -/
structure Netlist where
  placements : List Placement := []
  libraryParts : List LibraryPart := []
  wires : List Wire := []
  deriving Repr, DecidableEq

def gatherBy {σ κ ν : Type} [BEq κ] (key : ν → Work σ κ) (items : List ν) :
    Work σ (List (κ × List ν)) := do
  let pairs ← items.mapM fun x => do return (← key x, x)
  return ((Table.groupBy (·.1) pairs).map fun ps => ps.map (·.2)).entries

namespace Netlist

def tolerated : List Report.Kind := [.missingData, .noMatchingPart]

def keyText : Value → Work Session String
  | .text s => return s
  | .quantity _ => throw (.fault .wrongType)

def libraryPart (a : Address) : Work Session LibraryPart := do
  let pins ← (← Session.design (Library.children a)).filterM fun p =>
    Session.design (Library.isAny [.pin] p)
  let levels := (← Session.design (Library.instanceAt a)).levels
  let part ← Session.warned tolerated none do return some (← Session.design (Component.part a))
  return ⟨(part.map Value.show_).getD "None",
    (levels.head?.map fun l => l.address.relative).getD "", pins.map Address.name⟩

def designated (ds : Table Address String) (a : Option Address) : Work Session String :=
  match a.bind ds.get? with
  | some d => return d
  | none => throw (.fault .missingKey)

/-- The entry of a component. -/
def placement (ds : Table Address String) (l : LibraryPart) (footprint : String) (a : Address) :
    Work Session Placement := do
  let d ← designated ds (some a)
  let v ← Session.warned tolerated "?" (Session.design (Component.value a))
  return ⟨d, v, footprint, l, a.text, Digest.identifier a.text⟩

def grouped (ds : Table Address String) (footprint : String) (as : List Address) :
    Work Session (LibraryPart × List Placement) := do
  let l ← libraryPart (as.headD ⟨""⟩)
  return (l, ← as.mapM (placement ds l footprint))

def wire (ds : Table Address String) (code : Nat) (name : String) (net : List Address) :
    Work Session Wire := do
  let pins ← net.filterM fun a => Session.design (Library.isAny [.pin] a)
  return ⟨code, name, ← pins.mapM fun a => do return ⟨← designated ds a.parent, a.name⟩⟩

/-- The netlist of a root. Every component has to have a footprint. -/
def below (root : Address) : Work Session Netlist := do
  let components ← Session.design (Component.below root)
  let _ ← Work.each (fun a => Session.design (Component.footprint a)) components
  let groups ← gatherBy (fun a => do keyText (← Session.design (Component.footprint a))) components
  let ds ← Session.design (Component.designators root.entry)
  let parts ← groups.mapM fun (footprint, as) => grouped ds footprint as
  let nets ← Session.design (Net.byName root)
  let wires ← nets.entries.zipIdx.mapM fun ((name, net), i) => wire ds (i + 1) name net
  return ⟨parts.flatMap (·.2), parts.map (·.1), wires⟩

end Netlist

end Boardwright
