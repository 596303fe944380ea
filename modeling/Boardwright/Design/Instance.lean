import Boardwright.Design.Library

/-!
# Instances

An instance is made by going through the bodies of the blocks it is made of, from the
built-in one up. A `new` statement makes a child, unless a block around it says that
another block takes the place of the named one; an assignment to a path sets an
attribute of an instance that is already there; a definition of a pin or a signal makes
a child of that sort; a connection makes a link between two instances that are there.

The replacements that the blocks of an instance ask for are known while the instance
is made and forgotten afterwards. Of two replacements of one instance the outer one is
already known when the inner one is met, and counts. A failed instance is not kept.
-/

namespace Boardwright

open Syntax

namespace Library

/-- The library with an instance under an address, which becomes the last child of its
parent unless the parent has a child of that name. -/
def place (lib : Library) (parent : Option Address) (a : Address) (i : Instance) : Library :=
  let instances := lib.instances.set a i
  match parent with
  | none => { lib with instances }
  | some p =>
    { lib with instances := instances.modify p fun q =>
        if q.children.contains a.name then q else { q with children := q.children ++ [a.name] } }

def forget (lib : Library) (a : Address) : Library :=
  { lib with instances := lib.instances.erase a }

def noInstance (path : String) (pos : Pos) (a : Address) : Failure :=
  .report (.located .unknownName path pos ("Couldn't find " ++ a.instanceSection.getD "None"))

/-- The instance that a statement refers to. -/
def present (path : String) (pos : Pos) (a : Address) : Work Library Unit := do
  if (← get).instances.contains a then return () else throw (noInstance path pos a)

/-- A pin or a signal made as a child of an instance. -/
def placeLeaf (here : Address) (b : Builtin) (name : String) : Work Library Address := do
  let a := here.addInstance name
  modify fun lib => lib.place (some here) a ⟨b.layer, ∅, [], []⟩
  return a

def side (path : String) (here : Address) : Connectable → Work Library Address
  | .path p => return here.addInstances p.names
  | .numbered p _ number => do
    return here.addInstances (p.names ++ [← Work.ofExcept (number.integer path)])
  | .signal s => placeLeaf here .signal s.name.text
  | .pin p => do placeLeaf here .pin (← Work.ofExcept (p.label.read path))

/-- The layer of the block that a `new` statement makes an instance of: the block that
takes the place of the named one, or the named one. No more than `extension` blocks may
extend one another. -/
def chosen (extension : Nat) (d : Definition) (pos : Pos) (a : Address) (block : Reference) :
    Work Library Layer := do
  match (← get).replaced.get? a with
  | some r => layerWithin extension r
  | none =>
    let found ← Work.ofExcept (match d.lookup block with
      | .error (.fault .missingKey) => .error (.report (.located .unknownName d.path d.pos
          ("Couldn't find ref " ++ block.text)))
      | r => r)
    fun lib => match (layerWithin extension found).outcome lib with
      | (.error (.report r), lib') =>
        if r.kind == .blockNotFound || r.kind == .fileNotFound then
          (.error (.report (r.moved d.path pos)), lib')
        else (.error (.report r), lib')
      | r => r

/-- A statement of the body of `d`, for the instance `here`. Children are made by
`create`. -/
def statement (extension : Nat) (create : Address → Layer → Work Library Unit) (here : Address)
    (d : Definition) (s : Simple) : Work Library Unit := do
  let pos := s.start.pos
  match s with
  | .assign target _ (.new _ block) =>
    match target.names with
    | [name] =>
      let a := here.addInstance name
      create a (← chosen extension d pos a block.names)
    | _ => throw (.general "Cannot assign a new object to a multi-part reference")
  | .assign target _ value =>
    if target.tail.isEmpty then return ()
    else
      let v ← Work.ofExcept (value.read d.path)
      let a := here.addInstances target.names.dropLast
      present d.path pos a
      modify fun lib => { lib with instances := lib.instances.modify a fun i =>
        { i with override := i.override.set (target.names.getLastD "") v } }
  | .connect left _ right =>
    let source ← side d.path here left
    let target ← side d.path here right
    present d.path pos source
    present d.path pos target
    modify fun lib => { lib with instances := lib.instances.modify here fun i =>
      { i with links := i.links ++ [⟨source, target, pos⟩] } }
  | .pin p => discard (placeLeaf here .pin (← Work.ofExcept (p.label.read d.path)))
  | .signal s => discard (placeLeaf here .signal s.name.text)
  | _ => return ()

/-- The replacements that the blocks of an instance ask for, made known; those that
were made known are returned. -/
def askReplacements (here : Address) :
    List (Definition × Reference × Replacement) → Work Library (List Address)
  | [] => return []
  | (d, target, r) :: more => do
    let a := here.addInstances target
    if (← get).replaced.contains a then askReplacements here more
    else
      let b ← Work.ofExcept (d.lookup r.block)
      modify fun lib => { lib with replaced := lib.replaced.set a b }
      return a :: (← askReplacements here more)

/-- The replacements of a layer, those of the block itself first. -/
def replacementsIn (levels : Layer) : List (Definition × Reference × Replacement) :=
  levels.flatMap fun l => match l.definition with
    | none => []
    | some d => d.replacements.entries.map fun (target, r) => (d, target, r)

def dropReplacements (as : List Address) (lib : Library) : Library :=
  { lib with replaced := as.foldl Table.erase lib.replaced }

/-- An instance made under an address, if no more than `depth` instances stand one in
the other. -/
def createWithin (extension : Nat) : Nat → Option Address → Address → Layer → Work Library Unit
  | 0, _, _, _ => throw (.fault .endlessRecursion)
  | depth + 1, parent, a, levels => do
    modify fun lib => lib.place parent a ⟨levels, ∅, [], []⟩
    Work.onFailure
      (do
        let asked ← askReplacements a (replacementsIn levels)
        Work.finally_
          (levels.reverse.forM fun l => match l.definition with
            | none => pure ()
            | some d => discard (Work.each
                (statement extension (createWithin extension depth (some a)) a d)
                (simplesOf d.body)))
          (dropReplacements asked))
      (forget · a)

/-- How many instances may stand one in the other. -/
def nestingLimit : Nat := 50

/-- The tree of an address that names no instance is made, if it is not there. No more
than `extension` blocks may extend one another, and no more than `nesting` instances stand
one in the other. -/
def treeWithin (extension nesting : Nat) (a : Address) : Work Library Unit := do
  if a.isInstance then throw (.fault (.unsupported ""))
  else if (← get).instances.contains a then return ()
  else createWithin extension nesting none a (← layerWithin extension a)

def tree (a : Address) : Work Library Unit := treeWithin extensionLimit nestingLimit a

end Library

end Boardwright
