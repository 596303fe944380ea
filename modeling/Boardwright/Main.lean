import Boardwright.Command.Run

/-!
# The program

The files of the project that one is in are read, the command is run on them, and what
it has changed is written back. Nothing is decided here: a line goes to `Command.run`, and
its outcome is shown. No other program is started from here, so the tools and the
repositories that some commands ask for are not at hand.
-/

namespace Boardwright

/-- The top of what a command may look at: the directory of the project that one is in,
or else the directory itself. -/
def topDirectory (cwd : Route) : IO Route := do
  for r in cwd.ascending do
    if ← ((← IO.FS.realPath r.text) / Config.fileName).pathExists then return r
  return cwd

/-- The files below a directory that hold text. -/
def readFiles (top cwd : Route) : IO Files := do
  let mut files : Files := { dirs := [top.parts, cwd.parts], cwd := cwd.parts }
  let paths ← (← IO.FS.realPath top.text).walkDir fun d => return d.fileName != some ".git"
  for path in paths do
    let parts := (Route.ofText path.toString).parts
    if ← path.isDir then files := files.makeDir parts
    else
      try files := files.write parts (← IO.FS.readFile path)
      catch _ => pure ()
  return files

/-- The files that differ from those before are written, and those that are gone are
removed. -/
def writeFiles (before after : Files) : IO Unit := do
  for d in after.dirs do IO.FS.createDirAll (Route.ofParts d).text
  for (parts, text) in after.texts.entries do
    if before.texts.get? parts != some text then
      IO.FS.createDirAll (Route.ofParts parts.dropLast).text
      IO.FS.writeFile (Route.ofParts parts).text text
  for parts in before.texts.keys do
    if !after.texts.contains parts then IO.FS.removeFile (Route.ofParts parts).text

def missingTool : Tool := { code := 127, stderr := "command not found" }

def workshopOf (files : Files) (top : Route) (answers : List String) : Workshop :=
  { session.library.files := files, root := top, top := none, fetcher := missingTool
    exporters := Table.ofList (["gerbers", "drill", "pos"].map fun sort => (sort, missingTool))
    answers := answers.map Document.text }

def ending : Failure → String × UInt32
  | .exit code => ("", code.toUInt32)
  | .fault (.usage .abort _) => ("Aborted!", 1)
  | .fault (.usage .general message) => ("Error: " ++ message, 1)
  | .fault (.usage _ message) => ("Error: " ++ message, 2)
  | .fault (.value message) => ("Error: " ++ message, 1)
  | .report r => (r.render true, 1)
  | _ => ("Error: the command has failed.", 1)

def printAll (shop : Workshop) : IO Unit := do
  for n in shop.session.log do IO.eprintln (n.level.label ++ " " ++ n.message)
  for g in shop.session.grids do
    for row in g.columns :: g.rows do IO.println (Text.join " | " row)
  for s in shop.printed do IO.println s
  IO.print shop.out

end Boardwright

open Boardwright in
/-- The program: it runs the command line that it is given. -/
def main (args : List String) : IO UInt32 := do
  let cwd := Route.ofText (← IO.currentDir).toString
  let top ← topDirectory cwd
  let files ← readFiles top cwd
  let answers ← if args.contains "create" then
      pure ((Text.split "\n" (← (← IO.getStdin).readToEnd)).filter (· != ""))
    else pure []
  let (outcome, shop) := (Command.run .design args).outcome (workshopOf files top answers)
  printAll shop
  writeFiles files shop.session.library.files
  match outcome with
  | .ok _ => return 0
  | .error f =>
    let (message, code) := ending f
    if message != "" then IO.eprintln message
    return code
