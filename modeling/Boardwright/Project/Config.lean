import Boardwright.Files
import Boardwright.Markup.Read

/-!
# The configuration of a project

A project is a directory with a configuration file. The configuration says which
version of the compiler the project was written for, where its sources and layouts
are, what can be built and what the project depends on; all that it does not say has a
default. An entry that is not given is written as question marks.
-/

namespace Boardwright

/-- One thing that can be built: the block it starts from, and the targets that are
made of it. -/
structure BuildPlan where
  entry : String := "???"
  targets : List String := ["__default__"]
  deriving Repr, DecidableEq

/-- The configuration of a project. -/
structure Config where
  location : Route
  version : String := "0.1.0"
  source : String := "./"
  layout : String := "elec/layout"
  builds : Table String BuildPlan := ⟨[]⟩
  dependencies : List String := []
  deriving Repr

namespace Config

def fileName : String := "ato.yaml"

/-- The directory of a project that holds what is installed in it. -/
def modulesDirectory (location : Route) : Route := (location.joinText ".ato").joinText "modules"

def settingName : Document → Document
  | .text "ato-version" => .text "ato_version"
  | d => d

mutual

/-- Settings with their names in one spelling, also those in settings that are maps. Of
two settings of one name the later one is kept, in the place of the first. -/
def sanitised : Document → Document
  | .map entries => .map (Table.ofList (sanitisedEntries entries)).entries
  | d => d

def sanitisedEntries : List (Document × Document) → List (Document × Document)
  | [] => []
  | (k, v) :: es => (settingName k, sanitised v) :: sanitisedEntries es

end

/-- The settings of a configuration file; an empty file has none, and what is no map
has no names. -/
def settings : Document → Except Fault Document
  | .null => .ok (.map [])
  | .map entries => .ok (sanitised (.map entries))
  | _ => .error .missingAttribute

def setting? (name : String) : Document → Option Document
  | .map entries => entries.reverse.lookup (.text name)
  | _ => none

def texts? : Document → Option (List String)
  | .list items => items.mapM fun
    | .text s => some s
    | _ => none
  | _ => none

def text? (name : String) (d : Document) : Option String := (setting? name d).map Document.show_

def planOf (d : Document) : BuildPlan :=
  { entry := (text? "entry" d).getD "???"
    targets := ((setting? "targets" d).bind texts?).getD ["__default__"] }

def buildsOf : Option Document → Table String BuildPlan
  | some (.map entries) => Table.ofList (entries.map fun (k, v) => (k.show_, planOf v))
  | _ => ∅

def ofSettings (location : Route) (d : Document) : Config :=
  let paths := (setting? "paths" d).getD .null
  { location
    version := (text? "ato_version" d).getD "0.1.0"
    source := (text? "src" paths).getD "./"
    layout := (text? "layout" paths).getD "elec/layout"
    builds := buildsOf (setting? "builds" d)
    dependencies := ((setting? "dependencies" d).bind texts?).getD [] }

/-- The configuration that a text gives to the project in a directory. -/
def ofText (location : Route) (s : String) : Except Fault Config :=
  match Markup.read s with
  | .error fault => .error (.markup fault)
  | .ok d => (settings d).map (ofSettings location)

def changed (c : Config) (path : List String) (value : Document) : Option Config :=
  match path with
  | ["ato_version"] => some { c with version := value.show_ }
  | ["paths", "src"] => some { c with source := value.show_ }
  | ["paths", "layout"] => some { c with layout := value.show_ }
  | ["dependencies"] => (texts? value).map fun ds => { c with dependencies := ds }
  | ["builds", name, "entry"] =>
    some { c with builds := c.builds.modify name fun p => { p with entry := value.show_ } }
  | ["builds", name, "targets"] => (texts? value).map fun ts =>
    { c with builds := c.builds.modify name fun p => { p with targets := ts } }
  | _ => none

end Config

namespace Files

/-- The directory of the project that a route leads into: the nearest one on the way up
that has a configuration file. -/
def projectAt (fs : Files) (r : Route) : Except Fault Route :=
  match r.ascending.find? fun p => fs.exists? ((fs.resolve p).joinText Config.fileName) with
  | some p => .ok (fs.resolve p)
  | none => .error .fileMissing

end Files

end Boardwright
