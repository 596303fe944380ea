import Boardwright.Design.Definition
import Boardwright.Syntax.Parse

/-!
# The library of a design

All that has been found out about a design so far: the definitions of the files that
were read, the layers of the blocks, and the instances. A definition that is known is
not read again; one that is not known is looked for by reading its file, and all
definitions of that file are then known.

A layer is what a block is made of: the block itself, the block it extends, and so on
down to a built-in one. Each level of it has the attributes that the block assigns.
-/

namespace Boardwright

open Syntax

/-- A block among those that a layer is made of, with the attributes that it assigns.
A built-in block has no definition. -/
structure Level where
  address : Address
  definition : Option Definition
  data : Table String Value

/-- The blocks that a block is made of, itself first. -/
abbrev Layer := List Level

def Builtin.level (b : Builtin) : Level := ⟨b.address, none, ∅⟩

def Builtin.layer (b : Builtin) : Layer := b.level :: (b.base?.map level).toList

/-- A connection of two instances, and where it is made. -/
structure Link where
  source : Address
  target : Address
  pos : Pos
  deriving Repr, DecidableEq

/-- An instance of a block: what it is made of, the attributes that were set from
outside, the links that are made in it, and the names of its children in the order in
which they came. -/
structure Instance where
  levels : Layer
  override : Table String Value := ⟨[]⟩
  links : List Link := []
  children : List String := []

def Level.text (l : Level) : String := "<ObjectLayer " ++ l.address.text ++ ">"

def Instance.textAt (a : Address) : String := "<Instance " ++ a.text ++ ">"

def Link.text (l : Link) : String :=
  "<Link " ++ Instance.textAt l.source ++ " -> " ++ Instance.textAt l.target ++ ">"

/-- What is known of a design. -/
structure Library where
  files : Files := {}
  searched : List Route := []
  definitions : Table Address Definition := ⟨[]⟩
  layers : Table Address Layer := ⟨[]⟩
  instances : Table Address Instance := ⟨[]⟩
  replaced : Table Address Address := ⟨[]⟩

namespace Library

def read (lib : Library) (file : String) : Except Failure (List Definition) :=
  let route := Route.ofText file
  match lib.files.find? route with
  | none => .error (.report { kind := .fileNotFound, message := route.text })
  | some .directory => .error (.fault .isDirectory)
  | some (.file text) =>
    match SourceFile.parse text with
    | .error t => .error (parseFailure route.text t)
    | .ok f => Source.definitions ⟨lib.files, lib.searched, route⟩ ⟨file⟩ f

def register (lib : Library) (ds : List Definition) : Library :=
  { lib with definitions := ds.foldl (fun t d => t.set d.address d) lib.definitions }

def noBlock (a : Address) : Failure :=
  .report { kind := .blockNotFound, message := "No block named $addr in " ++ a.file,
            address := some a.text }

def definition (a : Address) : Work Library Definition := do
  match (← get).definitions.get? a with
  | some d => return d
  | none =>
    let ds ← Work.ofExcept ((← get).read a.file)
    modify fun lib => lib.register ds
    match (← get).definitions.get? a with
    | some d => return d
    | none => throw (noBlock a)

end Library

/-- The attributes that the body of a definition assigns: those with one name that are
no new instances. A file without statements has no body to look at. -/
def Definition.values (d : Definition) : Except Failure (Table String Value) :=
  if d.body.isEmpty then .error (.fault .missingAttribute)
  else do
    let found ← Failure.gather ((simplesOf d.body).filterMap fun
      | .assign ⟨_, []⟩ _ (.new _ _) => none
      | .assign ⟨name, []⟩ _ value => some ((value.read d.path).map fun v => (name.text, v))
      | _ => none)
    return Table.ofList found

namespace Library

def layerWithin : Nat → Address → Work Library Layer
  | 0, _ => throw (.fault .endlessRecursion)
  | depth + 1, a => do
    match Builtin.ofAddress? a with
    | some b => return b.layer
    | none =>
      match (← get).layers.get? a with
      | some l => return l
      | none =>
        let d ← definition a
        let base ← layerWithin depth (← Work.ofExcept (d.lookup d.base))
        let data ← Work.ofExcept d.values
        let l := ⟨d.address, some d, data⟩ :: base
        modify fun lib => { lib with layers := lib.layers.set a l }
        return l

/-- How many blocks may extend one another. -/
def extensionLimit : Nat := 480

def layer (a : Address) : Work Library Layer := layerWithin extensionLimit a

end Library

end Boardwright
