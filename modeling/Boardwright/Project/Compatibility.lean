import Boardwright.Version.Spec
import Boardwright.Workshop

/-!
# Whether the compiler can build a project

A project says for which version of the compiler it was written, and so do the
projects in its directory. All of them have to be such that the compiler can build them,
and those that are not are reported together.
-/

namespace Boardwright

namespace Workshop

/-- A version of which only the numbers are asked for: the marks of specifiers in it do
not count. -/
def bareVersion (s : String) : String :=
  Version.operators.foldl (fun s mark => Text.replace mark "" s) s

def version (s : String) : Work Workshop Version :=
  match Version.parse s with
  | .ok v => pure v
  | .error m => throw (.fault (.value m.message))

def specFailure : Version.SpecFault → Failure
  | .empty => .fault .index
  | .version m => .fault (.value m.message)
  | .invalid s => .general (Version.SpecFault.invalid s).message

/-- A project that the compiler cannot build is reported. -/
def checkVersion (c : Config) : Work Workshop Unit := do
  let builtWith ← version (bareVersion c.version)
  let installed ← version (← get).installed
  match installed.supports builtWith with
  | .error f => throw (specFailure f)
  | .ok true => return ()
  | .ok false =>
    throw (.report {
      kind := .versionMismatch
      message := c.location.text ++ " (" ++ c.version ++ ") can't be built with this version of atopile (" ++
        installed.text ++ ")." })

/-- The configuration that an entry of a project's directory belongs to. That there is
none cannot be shown as a warning. -/
def configOfEntry (r : Route) : Work Workshop Config := fun shop =>
  match (configAt r).outcome shop with
  | (.error (.fault .fileMissing), shop') => (.error (.fault .missingAttribute), shop')
  | outcome => outcome

def checkVersions (c : Config) : Work Workshop Unit := handled do
  let fs ← files
  let entries := fs.entriesOf (fs.resolve c.location).parts
  let _ ← Work.each (fun (entry : Option (List String)) => do
    match entry with
    | none => checkVersion c
    | some parts => checkVersion (← configOfEntry (.ofParts parts))) (none :: entries.map some)

end Workshop

end Boardwright
