import Boardwright.Workshop

/-!
# What is sent to the makers of boards

The layout of a build is copied with the revision of the project written into it, and
from the copy a tool exports the drawings of the layers, the holes and the places of
the parts. The drawings are put into an archive; the table of places gets the columns
that the makers ask for.

A tool that is run has ten seconds. It is looked at every half second; one that is not
done by then is stopped.
-/

namespace Boardwright

namespace Build

/-- What a board is called that has changes that are not committed, and how many
characters of a commit name one that has none. -/
def revisionOf (r : Repository) : String := if r.dirty then "dirty" else Text.takeChars 7 r.head

def revisionMark : String := "\x7b\x7bGITHASH\x7d\x7d"

def stamped (revision layout : String) : String :=
  Text.replace revisionMark revision (String.ofList (Text.lineFeeds layout.toList))

/-- The program that exports from a layout; on some platforms it has to be found first,
and on others there is none. -/
def exporter? (platform : String) : Except Fault (Option String) :=
  if Text.startsWith "darwin" platform then .error .index
  else if Text.startsWith "linux" platform then .ok (some "kicad-cli")
  else .ok none

/-- How often a tool is looked at before it is stopped. -/
def patienceWithTools : Nat := 19

def noteOutput (t : Tool) : Work Workshop Unit := do
  for line in Text.bareLines t.stdout do Workshop.note .info line
  for line in Text.bareLines t.stderr do Workshop.note .error line

/-- A tool is watched until it is done, and stopped if that takes too long; `looks` is
how often one still has to look. What it said is noted when one looks at it for the last
time before it is done. -/
def watch (t : Tool) : Nat → Nat → Work Workshop Int
  | 0, _ => do
    Workshop.call .kill
    return -9
  | _ + 1, 0 => return t.code
  | left + 1, looks + 1 => do
    if looks = 0 then noteOutput t
    watch t left looks

/-- What a tool writes is written where it was told to. -/
def deliver (r : Route) : Product → Work Workshop Unit
  | .nothing => return ()
  | .file text => Workshop.store r text
  | .folder entries => entries.forM fun (name, text) => do
    let target := r.joinText name
    Workshop.makeDirs target.parent
    Workshop.store target text

def commandText (command : List (Option String)) : String :=
  "(" ++ Document.inline (.list (command.map fun
    | some s => .text s
    | none => .null)) ++ ",)"

def runTool (sort : String) (target : Route) (command : List (Option String)) :
    Work Workshop Unit := do
  Workshop.call (.run command)
  let t := ((← get).exporters.get? sort).getD {}
  deliver target t.writes
  let code ← watch t patienceWithTools t.looks
  noteOutput t
  if code ≠ 0 then
    throw (.general ("Command " ++ commandText command ++ " failed with exit code " ++ toString code))

def positionColumns : String := "Designator,Value,Package,Mid X,Mid Y,Rotation,Layer"

/-- A table of places with its first line replaced. -/
def positions (table : String) : Except Fault String :=
  match Text.bareLines (String.ofList (Text.lineFeeds table.toList)) with
  | [] => .error .index
  | _ :: rows => .ok (Text.join "\n" (positionColumns :: rows))

def membersOf (fs : Files) (dir : Route) : List String :=
  (fs.entriesOf (fs.resolve dir).parts).map fun e =>
    let r := Route.ofParts e
    if fs.isDirectory e then r.text ++ "/" else r.text

def manufacture (b : Build) : Work Workshop Unit := do
  Workshop.makeDirs b.output
  match (← get).top with
  | none => throw (.fault .noRepository)
  | some repository =>
    let revision := revisionOf repository
    let _ ← Workshop.load b.layout
    Workshop.store b.boardFile ""
    Workshop.store b.boardFile (stamped revision (← Workshop.load b.layout))
    let gerbers := b.gerberDirectory revision
    Workshop.makeDirs gerbers
    let program ← Workshop.orFault (exporter? (← get).platform)
    let export_ := fun sort (options : List String) =>
      program :: (["pcb", "export", sort] ++ options).map some
    runTool "gerbers" gerbers (export_ "gerbers" ["-o", gerbers.text ++ "/", b.boardFile.text])
    runTool "drill" gerbers (export_ "drill" ["-o", gerbers.text ++ "/", b.boardFile.text])
    let members := membersOf (← Workshop.files) gerbers
    modify fun shop =>
      { shop with archives := shop.archives.set (b.gerberArchive revision).parts members }
    runTool "pos" b.positionsFile (export_ "pos" ["--format", "csv", "--units", "mm",
      "--use-drill-file-origin", "-o", b.positionsFile.text, b.boardFile.text])
    Workshop.store b.positionsFile
      (← Workshop.orFault (positions (← Workshop.load b.positionsFile)))

end Build

end Boardwright
