import Boardwright.Bill.Basic
import Boardwright.Build.Manufacture
import Boardwright.Build.Run
import Boardwright.Netlist.Render

/-!
# The targets of a build

A netlist, a bill of materials, a map of designators and copies of all footprints are
made by default; what the makers of boards ask for is made when it is named. The file of
a netlist or a bill is there as soon as its making has begun, so an empty one is left if
it fails.
-/

namespace Boardwright

namespace Build

/-- The footprints of a directory are copied into another one. Those that are already
there are passed over. -/
def copyFootprints (target : Route) (dir : List String) : Work Workshop Unit := do
  let fs ← Workshop.files
  let found := (fs.entriesOf dir).filter fun e => Text.endsWith ".kicad_mod" (e.getLastD "")
  found.forM fun e => do
    let copy := target.joinText (e.getLastD "")
    if ((← Workshop.files).resolve copy).parts == e then
      if (← get).session.verbose then
        Workshop.note .debug
          ("Footprint " ++ copy.text ++ " already exists in the target directory")
    else Workshop.store copy (← Workshop.load (.ofParts e))

def gatherFootprints (b : Build) : Work Workshop Unit := do
  Workshop.makeDirs b.footprintDirectory
  let fs ← Workshop.files
  (fs.directoriesBelow (fs.resolve b.root).parts).forM (copyFootprints b.footprintDirectory)

def writeNetlist (b : Build) : Work Workshop Unit := do
  Workshop.store b.netlistFile ""
  let netlist ← Workshop.inSession (Netlist.below b.entry)
  Workshop.store b.netlistFile netlist.text

def writeBill (b : Build) : Work Workshop Unit := do
  Workshop.store b.billFile ""
  let bill ← Workshop.inSession (Bill.text b.entry)
  Workshop.store b.billFile bill

def showDesignators (b : Build) : Work Workshop Unit := do
  let _ ← Workshop.inSession (Bill.designatorMap b.entry)

def roster : Roster Build Workshop Unit :=
  let entries : List (String × Bool × (Build → Work Workshop Unit)) :=
    [("copy-footprints", true, gatherFootprints), ("netlist", true, writeNetlist),
     ("bom", true, writeBill), ("designator-map", true, showDesignators),
     ("mfg-data", false, manufacture)]
  entries.foldl (fun r (name, isDefault, target) =>
    r.register Workshop.handled name none isDefault target) {}

end Build

end Boardwright
