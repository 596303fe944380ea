import Boardwright.Build.Roster
import Boardwright.Workshop

/-!
# Running builds

A build looks for the files of its design in the sources and in the modules of its
project, makes the directory that it writes to and then its targets, one after another.
Work goes on after a target that failed with a report, and what failed is raised
together at the end; it is the same with several builds.
-/

namespace Boardwright

namespace Build

/-- The routes on which the files of a design are looked for. -/
def searched (b : Build) : List Route := [b.source, b.modules]

def makeTarget (roster : Roster Build Workshop Unit) (b : Build) (name : String) :
    Work Workshop Unit := do
  Workshop.note .info ("Building " ++ name)
  roster.make name b

def run (roster : Roster Build Workshop Unit) (b : Build) : Work Workshop Unit := do
  modify fun shop => { shop with session.library.searched := b.searched }
  Workshop.note .info ("Writing outputs to " ++ b.output.text)
  Workshop.makeDirs b.output
  let _ ← Work.each (makeTarget roster b) (roster.requested b.targets)

def runAll (roster : Roster Build Workshop Unit) (bs : List Build) : Work Workshop Unit := do
  let _ ← Work.each (fun b => do
    Workshop.note .info ("Building " ++ b.name)
    run roster b) bs

end Build

end Boardwright
