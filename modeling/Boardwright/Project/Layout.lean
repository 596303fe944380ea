import Boardwright.Address
import Boardwright.Project.Config

/-!
# The places of a project and of a build

A `Project` holds the directories of a project and a `Build` those of one of its
builds, with the block that it starts from, its targets and the layout of its board.
The layout of a build is the file with the name of the build, or the only one in the
directory of that name; what an editor saves on its own does not count.

All that a build writes is named after the build: each sort of output has an ending of
its own.
-/

namespace Boardwright

/-- The directories of a project. -/
structure Project where
  layout : Route
  root : Route
  source : Route
  modules : Route
  deriving Repr, DecidableEq

def Project.ofConfig (c : Config) : Project :=
  { layout := c.location.joinText c.layout
    root := c.location
    source := c.location.joinText c.source
    modules := Config.modulesDirectory c.location }

/-- One build of a project. -/
structure Build where
  name : String
  entry : Address
  targets : List String
  layout : Route
  root : Route
  source : Route
  modules : Route
  output : Route
  deriving Repr, DecidableEq

namespace Build

def layoutEnding : String := ".kicad_pcb"

/-- Whether a file was not saved by an editor on its own. -/
def isUserLayout (r : Route) : Bool :=
  !Text.startsWith "_autosave-" r.name && !Text.endsWith "-save.kicad_pcb" r.name

def unknownMessage (c : Config) (name : String) : String :=
  "Build " ++ name ++ " not found for project " ++ c.location.text ++ "\nAvailable builds: " ++
    Document.inlineTexts c.builds.keys

def findLayout (fs : Files) (base : Route) : Except Failure Route :=
  let file := base.withEnding layoutEnding
  if fs.exists? file then .ok file
  else if fs.isDir base then
    let found := ((fs.entriesOf (fs.resolve base).parts).map fun e =>
      base.joinText (e.getLastD "")).filter fun r =>
        Text.endsWith layoutEnding r.name && isUserLayout r
    match found with
    | [r] => .ok r
    | rs => .error (.general ("Layout directories must contain exactly 1 layout, but " ++
        rs.length.repr ++ " found in " ++ base.text))
  else .error (.general "Layout file not found")

def ofConfig (fs : Files) (c : Config) (name : String) : Except Failure Build :=
  match c.builds.get? name with
  | none => .error (.general (unknownMessage c name))
  | some plan => do
    let layout ← findLayout fs ((c.location.joinText c.layout).joinText name)
    return {
      name, layout, root := c.location, targets := plan.targets
      entry := ⟨(c.location.joinText plan.entry).text⟩
      source := c.location.joinText c.source
      modules := Config.modulesDirectory c.location
      output := c.location.joinText "build" }

def base (b : Build) : Route := b.output.joinText b.name

def netlistFile (b : Build) : Route := b.base.withEnding ".net"

def billFile (b : Build) : Route := b.base.withEnding ".csv"

def boardFile (b : Build) : Route := b.base.withEnding layoutEnding

/-- Where the places of the parts are written. -/
def positionsFile (b : Build) : Route := b.base.withEnding ".pos.csv"

def gerberDirectory (b : Build) (revision : String) : Route :=
  b.base.withName (b.base.name ++ "-gerbers-" ++ revision)

def gerberArchive (b : Build) (revision : String) : Route :=
  (b.gerberDirectory revision).withEnding ".zip"

def footprintDirectory (b : Build) : Route :=
  (b.output.joinText "footprints").joinText "footprints.pretty"

end Build

end Boardwright
