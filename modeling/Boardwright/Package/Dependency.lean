import Boardwright.Package.Spec
import Boardwright.Workshop

/-!
# The dependencies of a project

A project lists what it depends on, one specifier for each package. When one is
recorded it takes the place of another one of the same package; a list that already has
it is left as it is.

The list stands in the configuration file among other things, and it need not be a list
of texts there. A text counts as the list of its characters and a map as that of its
keys; neither can be changed.
-/

namespace Boardwright

namespace Dependency

def ofPackage? (deps : List String) (name : String) : Option String :=
  deps.reverse.find? fun d => (PackageSpec.ofText d).name == name

def without (deps : List String) (spec : String) : List String :=
  match ofPackage? deps (PackageSpec.ofText spec).name with
  | some old => if old == spec then deps else deps.erase old
  | none => deps

def record? (deps : List String) (spec : String) : Option (List String) :=
  let rest := without deps spec
  if rest.contains spec then none else some (rest ++ [spec])

def record (deps : List String) (spec : String) : List String := (record? deps spec).getD deps

/-- An item of a list as a specifier. A list or a map in which a mark of specifiers is
found is taken for a text that has one. -/
def specOf : Document → Except Fault String
  | .text s => .ok s
  | .list items =>
    .error (if PackageSpec.marks.any fun m => items.contains (.text m) then .missingAttribute
      else .wrongType)
  | .map entries =>
    .error (if PackageSpec.marks.any fun m => (entries.map (·.1)).contains (.text m) then
      .missingAttribute else .wrongType)
  | _ => .error .wrongType

/-- What a setting lists: the specifiers, whether one is listed, and whether the list can
be changed. -/
def listed : Document → Except Fault (List String × (String → Bool) × Bool)
  | .list items => do
    let specs ← items.mapM specOf
    return (specs, specs.contains, true)
  | .text s => .ok (s.toList.map fun c => String.ofList [c], fun x => Text.contains x s, false)
  | .map entries => do
    let specs ← entries.mapM fun e => specOf e.1
    return (specs, specs.contains, false)
  | _ => .error .wrongType

/-- Whether data count as nothing. -/
def isVoid : Document → Bool
  | .null => true
  | .bool b => !b
  | .int n => n == 0
  | .real x => x == 0
  | .text s => s.isEmpty
  | .list items => items.isEmpty
  | .map entries => entries.isEmpty

def settingsOf (d : Document) : Except Fault (Table Document Document) :=
  if isVoid d then .ok ∅
  else match d with
    | .map entries => .ok ⟨entries⟩
    | _ => .error .missingAttribute

/-- The contents of a configuration file in which a specifier has been recorded, if that
changes them. -/
def recordIn (d : Document) (spec : String) : Except Fault (Option Document) := do
  let settings ← settingsOf d
  let (specs, isListed, isList) ← listed ((settings.get? (.text "dependencies")).getD (.list []))
  if isList then
    return (record? specs spec).map fun deps =>
      .map (settings.set (.text "dependencies") (.list (deps.map .text))).entries
  else if without specs spec != specs || !isListed spec then throw .missingAttribute
  else return none

end Dependency

namespace Workshop

def recordDependency (project : Route) (spec : String) : Work Workshop Unit := do
  let file := project.joinText Config.fileName
  if !(← files).exists? file then
    throw (.general (Config.fileName ++ " not found in " ++ project.text))
  else
    match Markup.read (← load file) with
    | .error fault => throw (.fault (.markup fault))
    | .ok d =>
      match ← orFault (Dependency.recordIn d spec) with
      | none => return ()
      | some changed => store file (Markup.text changed)

end Workshop

end Boardwright
