import Boardwright.Package.Dependency
import Boardwright.Package.Registry
import Boardwright.Package.Release
import Boardwright.Project.Compatibility
import Boardwright.Text.Case

/-!
# Installing packages and parts

A package is cloned into the directory of modules of the project, and the newest release
that satisfies its specifier is checked out. A package that is already there is left
alone, unless it is to be upgraded. When a package was asked for without a specifier, the
release that was found is recorded.

A part is fetched from a catalogue by a tool that is run.
-/

namespace Boardwright

namespace Workshop

def choiceFailure : Release.ChoiceFault → Failure
  | .tag m => .fault (.value m.message)
  | .spec f => specFailure f
  | .noneMatches => .fault (.value "max() arg is an empty sequence")

/-- What has been chosen is checked out, unless there are changes that are not
committed. -/
def checkoutChoice (home : Route) (name ref : String) : Work Workshop Unit := do
  let before := (← repository? home).getD {}
  if before.dirty then
    throw (.general ("Module " ++ name ++ " has uncommitted changes. Aborting."))
  else
    checkout home ref
    let after := (← repository? home).getD {}
    if after.head == before.head then
      note .info ("Already on the best option ([cyan bold]" ++ ref ++ "[/]) for " ++ name)
    else note .info ("Using :sparkles: [cyan bold]" ++ ref ++ "[/] :sparkles: of " ++ name)

/-- The best that a repository has is checked out; the answer is the tag of the release,
if it is one. -/
def checkoutBest (home : Route) (name spec : String) : Work Workshop (Option String) := do
  let repository := (← repository? home).getD {}
  match Release.choose (sortedTags repository) spec with
  | .error f => throw (choiceFailure f)
  | .ok .nothing =>
    note .warning "No semver tags found for this module. Using latest default branch :hot_pepper:."
    return none
  | .ok (.named ref) =>
    checkoutChoice home name ref
    return none
  | .ok (.release r) =>
    checkoutChoice home name r.tag
    return some r.tag

def installPackage (modules : Route) (asked : String) (upgrade : Bool) :
    Work Workshop (Option String) := do
  let package := PackageSpec.ofText asked
  let spec := match package.spec with
    | none | some "" => "*"
    | some s => s
  makeDirs modules
  let home := modules.joinText package.name
  match ← repository? home with
  | none =>
    note .info ("Installing dependency " ++ package.name)
    clone (← lookUp package.name) home
    checkoutBest home package.name spec
  | some _ =>
    if upgrade then
      note .info ("Fetching latest changes for " ++ package.name)
      fetch home
      checkoutBest home package.name spec
    else
      note .info (package.name ++ " already exists. If you wish to upgrade, use --upgrade")
      return none

def isPartNumber (s : String) : Bool :=
  match s.toList with
  | 'C' :: digits => !digits.isEmpty && digits.all Text.isAnyDigit
  | _ => false

def partNumber (s : String) : Except Failure String :=
  let id := Text.capitals s
  if isPartNumber id then .ok id
  else .error (.general ("Component id " ++ id ++ " is invalid. Aborting."))

/-- The remote in which the footprints lie at the top. -/
def modulesRemote : String := "git@gitlab.atopile.io:atopile/modules.git"

/-- The directory that the footprints of parts are written to. -/
def footprintsOf (top : Route) (remote : String) : Route :=
  if remote == modulesRemote then top.joinText "footprints"
  else top.joinText "elec/footprints/footprints"

def installPart (top : Route) (asked : Option String) : Work Workshop Unit := do
  match asked with
  | none => throw (.fault .missingAttribute)
  | some s =>
    let id ← Work.ofExcept (partNumber s)
    let footprints := footprintsOf top (← get).remote
    note .info ("Footprints directory: " ++ footprints.text)
    call (.run (["easyeda2kicad", "--full", "--lcsc_id=" ++ id, "--output=" ++ footprints.text,
      "--overwrite", "--ato", "--ato_file_path=" ++ (top.joinText "elec/src").text].map some))
    let tool := (← get).fetcher
    putLine ("STDOUT: " ++ tool.stdout)
    putLine ("STDERR: " ++ tool.stderr)
    if tool.code = 0 then putLine "Command executed successfully"
    else throw (.general "Couldn't install component")

/-- What is installed: a part, a package, or all that the project depends on. -/
def installAsked (top : Route) (c : Config) (asked : Option String) (isPart upgrade : Bool) :
    Work Workshop Unit := do
  let modules := (Project.ofConfig c).modules
  if isPart then installPart top asked
  else match asked with
    | none | some "" => c.dependencies.forM fun d => do
      let _ ← installPackage modules d upgrade
    | some s =>
      let tag ← installPackage modules s upgrade
      let package := PackageSpec.ofText s
      let recorded := match package.spec, tag with
        | none, some t => package.name ++ "^" ++ t
        | _, _ => s
      recordDependency top recorded

/-- What is asked for is installed into the project at the top of the repository that
one is in. -/
def install (asked : Option String) (isPart upgrade : Bool) : Work Workshop Unit := do
  if (← get).top.isNone then throw (.fault .noRepository)
  else
    let top := (← get).root
    let c ← configAt top
    handled (installAsked top c asked isPart upgrade)
    note .info "[green]Done![/] :call_me_hand:"

end Workshop

end Boardwright
