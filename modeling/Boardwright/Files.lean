import Boardwright.Failure
import Boardwright.Route
import Boardwright.Table

/-!
# Files

The files that a design is read from and written to: the text of each file by the
parts of its route, the directories that exist apart from those that hold files, and
the directory one is in.

Reading fails where there is no file. Writing fails where there is a directory or
where there is none to write into, and making a directory fails where a file is in
the way.
-/

namespace Boardwright

/-- The files and directories, and the directory one is in. -/
structure Files where
  texts : Table (List String) String := ⟨[]⟩
  dirs : List (List String) := []
  cwd : List String := []
  deriving Repr, Inhabited

namespace Files

/-- What a route can lead to. -/
inductive Node
  | file (text : String)
  | directory
  deriving Repr, DecidableEq

/-- Whether the parts lead to a directory: the root, a directory that is listed, or
one that leads to a file or to a listed one. -/
def isDirectory (fs : Files) (parts : List String) : Bool :=
  parts.isEmpty || fs.dirs.any parts.isPrefixOf ||
    fs.texts.entries.any fun e => parts.isPrefixOf e.1 && parts.length < e.1.length

/-- What the parts of a resolved route lead to. -/
def node? (fs : Files) (parts : List String) : Option Node :=
  match fs.texts.get? parts with
  | some text => some (.file text)
  | none => if fs.isDirectory parts then some .directory else none

/-- Where one is after following parts from a directory; every part but the last has
to lead to a directory. -/
def walk (fs : Files) : List String → List String → Option (List String)
  | at_, [] => some at_
  | at_, p :: ps =>
    if !fs.isDirectory at_ then none
    else if p == ".." then walk fs at_.dropLast ps
    else walk fs (at_ ++ [p]) ps

def find? (fs : Files) (r : Route) : Option Node :=
  (fs.walk (if r.rooted then [] else fs.cwd) r.parts).bind fs.node?

def exists? (fs : Files) (r : Route) : Bool := (fs.find? r).isSome

def isFile (fs : Files) (r : Route) : Bool :=
  match fs.find? r with
  | some (.file _) => true
  | _ => false

def isDir (fs : Files) (r : Route) : Bool := fs.find? r == some .directory

def resolve (fs : Files) (r : Route) : Route := .ofParts (r.resolve fs.cwd)

def write (fs : Files) (parts : List String) (text : String) : Files :=
  { fs with texts := fs.texts.set parts text }

def makeDir (fs : Files) (parts : List String) : Files :=
  if fs.isDirectory parts then fs else { fs with dirs := fs.dirs ++ [parts] }

def blocked (fs : Files) (parts : List String) : Bool :=
  (List.range parts.length).any fun n => fs.texts.contains (parts.take n)

def read (fs : Files) (r : Route) : Except Fault String :=
  match fs.find? r with
  | some (.file text) => .ok text
  | some .directory => .error .isDirectory
  | none => .error (if fs.blocked (fs.resolve r).parts then .notDirectory else .fileMissing)

def store (fs : Files) (r : Route) (text : String) : Except Fault Files :=
  let parts := (fs.resolve r).parts
  if fs.isDirectory parts then .error .isDirectory
  else if fs.blocked parts then .error .notDirectory
  else if fs.isDirectory parts.dropLast then .ok (fs.write parts text)
  else .error .fileMissing

def makeDirs (fs : Files) (r : Route) : Except Fault Files :=
  let parts := (fs.resolve r).parts
  if fs.isDirectory parts then .ok fs
  else if fs.texts.contains parts then .error .fileExists
  else if fs.blocked parts then .error .notDirectory
  else .ok (fs.makeDir parts)

/-- The files without the one that the parts lead to; the directory it was in stays. -/
def remove (fs : Files) (parts : List String) : Files :=
  let rest : Files := { fs with texts := fs.texts.erase parts }
  rest.makeDir parts.dropLast

/-- The parts of the entries of a directory, sorted by name. -/
def entriesOf (fs : Files) (parts : List String) : List (List String) :=
  let below := (fs.texts.keys ++ fs.dirs).filter fun k =>
    parts.isPrefixOf k && parts.length < k.length
  let names := (below.filterMap fun k => k[parts.length]?).eraseDups
  (names.mergeSort fun a b => decide (a ≤ b)).map fun n => parts ++ [n]

def directoriesBelow (fs : Files) (parts : List String) : List (List String) :=
  let found := (fs.texts.keys.map List.dropLast ++ fs.dirs).filter parts.isPrefixOf
  let chains := found.flatMap fun d =>
    (List.range (d.length + 1)).filterMap fun n => if parts.length ≤ n then some (d.take n) else none
  chains.eraseDups.mergeSort Route.partsLe

/-- The entries below a directory whose names end in a given way. -/
def endingIn (fs : Files) (parts : List String) (ending : String) : List (List String) :=
  ((fs.directoriesBelow parts).flatMap fs.entriesOf).filter fun e =>
    Text.endsWith ending (e.getLastD "")

end Files

end Boardwright
