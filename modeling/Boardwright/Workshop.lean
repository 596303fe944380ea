import Boardwright.Create.Patience
import Boardwright.Markup.Write
import Boardwright.Project.Layout
import Boardwright.Session

/-!
# The workshop

All that a command works with: the session with its design, its files and its log, the
configurations that have been read, and what stands outside the program: repositories,
the package registry, the tools that are run and the person at the keyboard. What has
been asked of the outside is kept in order in `calls`.

A repository is known by where it lies. One that is cloned is a copy of what its
address offers, and its files are written where it is cloned to.
-/

namespace Boardwright

/-- A repository: its tags, the commit it is on, whether it has changes that are not
committed, the commits that names stand for, and what a fetch and a clone bring. -/
structure Repository where
  tags : List String := []
  head : String := "c0"
  dirty : Bool := false
  refs : Table String String := ⟨[]⟩
  newTags : List String := []
  files : List (String × String) := []

/-- What a tool writes: nothing, a file, or files in a directory. -/
inductive Product
  | nothing
  | file (text : String)
  | folder (entries : List (String × String))

/-- How a tool behaves that is run: how it ends, how often one has to look before it
does, what it says and what it writes. -/
structure Tool where
  code : Int := 0
  looks : Nat := 0
  stdout : String := ""
  stderr : String := ""
  writes : Product := .nothing

/-- Something that is asked of the outside. -/
inductive Call
  | clone (url : Document) (path : String)
  | fetch (repository : String)
  | checkout (repository ref : String)
  | stage (repository : String)
  | commit (repository message : String)
  | registry (name : String)
  | run (command : List (Option String))
  | kill
  | ask (question : String) (default : Option String)
  | confirm (question : String) (default : Option Bool)
  | browse (url : String)

/-- All that a command works with. The repository that one is in is `top`; it lies at
`root`. -/
structure Workshop where
  session : Session := {}
  configs : Table (List String) Config := ⟨[]⟩
  installed : String := "0.2.0"
  platform : String := "linux"
  root : Route := ⟨true, []⟩
  top : Option Repository := some {}
  remote : String := "git@host:x.git"
  repositories : Table (List String) Repository := ⟨[]⟩
  offered : Table String Repository := ⟨[]⟩
  registry : Table String (Nat × Document) := ⟨[]⟩
  answers : List Document := []
  patience : Patience := {}
  exporters : Table String Tool := ⟨[]⟩
  fetcher : Tool := {}
  archives : Table (List String) (List String) := ⟨[]⟩
  calls : List Call := []
  printed : List String := []
  out : String := ""

namespace Workshop

variable {α : Type}

def inSession (w : Work Session α) : Work Workshop α :=
  w.within (·.session) fun s shop => { shop with session := s }

/-- An entry is added to the log. -/
def note (severity : Severity) (message : String) : Work Workshop Unit :=
  inSession (Session.note severity message)

/-- Something is asked of the outside. -/
def call (c : Call) : Work Workshop Unit :=
  modify fun shop => { shop with calls := shop.calls ++ [c] }

/-- A text is shown to the person at the keyboard. -/
def print (s : String) : Work Workshop Unit :=
  modify fun shop => { shop with printed := shop.printed ++ [s] }

/-- A line is written to the standard output. -/
def putLine (s : String) : Work Workshop Unit :=
  modify fun shop => { shop with out := shop.out ++ s ++ "\n" }

def orFault (r : Except Fault α) : Work Workshop α :=
  match r with
  | .ok x => pure x
  | .error f => throw (.fault f)

def files : Work Workshop Files := do return (← get).session.library.files

def setFiles (fs : Files) : Work Workshop Unit :=
  modify fun shop => { shop with session.library.files := fs }

def makeDirs (r : Route) : Work Workshop Unit := do
  setFiles (← orFault ((← files).makeDirs r))

def store (r : Route) (text : String) : Work Workshop Unit := do
  setFiles (← orFault ((← files).store r text))

/-- The text where a route leads is read. -/
def load (r : Route) : Work Workshop String := do
  orFault ((← files).read r)

/-- Work whose failure, if it is a report or a group, is put into the log and then raised
as a fatal report. -/
def handled (w : Work Workshop α) : Work Workshop α :=
  Work.handled (fun f shop =>
    let (more, stop) := f.notices shop.session.verbose
    (stop, { shop with session.log := shop.session.log ++ more })) w

/-! ### The person at the keyboard -/

/-- The next answer; without one the command is given up. -/
def answer : Work Workshop Document := do
  match (← get).answers with
  | [] => throw (.fault (.usage .abort ""))
  | a :: rest =>
    modify fun shop => { shop with answers := rest }
    return a

/-- A question that is answered by a text. An answer that is left out is the default. -/
def ask (question : String) (default : Option String) : Work Workshop (Option String) := do
  call (.ask question default)
  match ← answer with
  | .null => return default
  | a => return some a.show_

def confirm (question : String) (default : Option Bool) : Work Workshop Bool := do
  call (.confirm question default)
  match ← answer with
  | .null => return default.getD false
  | .bool b => return b
  | .text s => return !s.isEmpty
  | .int n => return n != 0
  | _ => return true

/-- One more turn of asking, if the person at the keyboard does not want to leave. -/
def turn : Work Workshop Bool :=
  Work.within (fun shop => (shop.patience, shop)) (fun (p, shop) _ => { shop with patience := p })
    (Patience.turn (confirm "Are you trying to exit?" none)
      (print "No worries! Try Ctrl+C next time!"))

/-! ### Configurations -/

/-- The configuration of the project that a route leads into. One that has been read is
not read again. -/
def configAt (r : Route) : Work Workshop Config := do
  let project ← orFault ((← files).projectAt r)
  match (← get).configs.get? project.parts with
  | some c => return c
  | none =>
    let c ← orFault (Config.ofText project (← load (project.joinText Config.fileName)))
    modify fun shop => { shop with configs := shop.configs.set project.parts c }
    return c

/-! ### Repositories -/

/-- The name of a repository: its place below the directory of modules, or the path that
it was cloned to. -/
def repositoryName (path : String) : String :=
  match Text.cutLast "/.ato/modules/".toList path.toList with
  | some (_, name) => String.ofList name
  | none => path

/-- What is cloned from an address, if it offers anything. -/
def offer? (shop : Workshop) : Document → Option Repository
  | .text url => shop.offered.get? url
  | _ => none

/-- The repository that an address offers is cloned to where a route leads. -/
def clone (url : Document) (r : Route) : Work Workshop Unit := do
  call (.clone url r.text)
  match (← get).offer? url with
  | none => throw (.fault .gitCommand)
  | some repository =>
    let fs ← files
    let home := fs.resolve r
    setFiles (repository.files.foldl
      (fun fs (path, text) => fs.write (home.joinText path).parts text) (fs.makeDir home.parts))
    modify fun shop => { shop with repositories := shop.repositories.set home.parts repository }

def repository? (r : Route) : Work Workshop (Option Repository) := do
  let home := (← files).resolve r
  return (← get).repositories.get? home.parts

def changeRepository (r : Route) (f : Repository → Repository) : Work Workshop Unit := do
  let home := (← files).resolve r
  modify fun shop => { shop with repositories := shop.repositories.modify home.parts f }

def fetch (r : Route) : Work Workshop Unit := do
  call (.fetch (repositoryName r.text))
  changeRepository r fun repository =>
    { repository with tags := repository.tags ++ repository.newTags, newTags := [] }

/-- A name is checked out: the repository is then on the commit that it stands for. -/
def checkout (r : Route) (ref : String) : Work Workshop Unit := do
  call (.checkout (repositoryName r.text) ref)
  changeRepository r fun repository =>
    { repository with head := (repository.refs.get? ref).getD ref }

/-- The tags of a repository in the order of their texts, each once. -/
def sortedTags (repository : Repository) : List String :=
  repository.tags.eraseDups.mergeSort fun a b => decide (a ≤ b)

end Workshop

end Boardwright
