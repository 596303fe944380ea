import Boardwright.Build.Target
import Boardwright.Project.Compatibility

/-!
# The command that builds

The project is that of the entry that is given, or of the directory one is in. An entry
that is a file has to name a block in it, which is then built instead of those that the
configuration names. Builds, targets and settings can be given; else those of the
configuration count.
-/

namespace Boardwright

namespace Command

/-- What the command that builds is asked for. -/
structure BuildRequest where
  entry : Option String := none
  builds : List String := []
  targets : List String := []
  options : List String := []
  deriving Repr

def badParameter (hint : Option String) (message : String) : Failure :=
  .fault (.usage .badParameter ("Invalid value" ++ (match hint with
    | some h => " for " ++ h
    | none => "") ++ ": " ++ message))

def entryRoute (fs : Files) : Option String → Route
  | none => .ofParts fs.cwd
  | some e => fs.resolve (Route.ofText (Address.mk e).file)

def projectConfig (r : Route) : Work Workshop Config := fun shop =>
  match (Workshop.configAt r).outcome shop with
  | (.error (.fault .fileMissing), shop') => (.error (badParameter none
      ("Could not find project from path " ++ r.text ++ ". Is this file path within a project?")), shop')
  | outcome => outcome

/-- A setting that is given on the command line: its name, and its value after an equals
sign. -/
def setting (s : String) : Except Failure (String × Document) :=
  match Text.cut ['='] s.toList with
  | none => .ok (s, .null)
  | some (name, value) =>
    match Markup.read (String.ofList value) with
    | .ok d => .ok (String.ofList name, d)
    | .error fault => .error (.fault (.markup fault))

/-- A configuration with the settings of the command line. All of them are read before
the first is used. -/
def withSettings (c : Config) (options : List String) : Except Failure Config := do
  let given ← options.mapM setting
  given.foldlM (fun c (name, value) =>
    match c.changed (Text.split "." name) value with
    | some c' => .ok c'
    | none => .error (badParameter none ("Invalid config key " ++ name))) c

def entryOverride (fs : Files) (entry : Option String) (r : Route) :
    Except Failure (Option Address) :=
  match entry with
  | none | some "" => .ok none
  | some e =>
    if fs.isFile r then
      match (Address.mk e).entrySection with
      | none | some "" => .error (badParameter (some "entry")
          "If an entry of a file is specified, you must specify the node within it you want to build.")
      | some name => .ok (some ((Address.mk r.text).entryAt name))
    else if fs.isDir r then .ok none
    else .error (badParameter (some "entry") "The entry you have specified does not exist.")

def buildsOf (q : BuildRequest) : Work Workshop (List Build) := do
  let r := entryRoute (← Workshop.files) q.entry
  let c ← projectConfig r
  Workshop.checkVersions c
  Workshop.note .info ("Using project " ++ c.location.text)
  let c ← Work.ofExcept (withSettings c q.options)
  let fs ← Workshop.files
  let entry ← Work.ofExcept (entryOverride fs q.entry r)
  let names := if q.builds.isEmpty then c.builds.keys else q.builds
  names.mapM fun name => do
    let b ← Workshop.handled (Work.ofExcept (Build.ofConfig fs c name))
    return { b with
      entry := entry.getD b.entry
      targets := if q.targets.isEmpty then b.targets else q.targets }

/-- What is asked for is built. -/
def build (q : BuildRequest) : Work Workshop Unit := Work.muffled do
  Build.runAll Build.roster (← buildsOf q)

end Command

end Boardwright
