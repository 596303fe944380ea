import Boardwright.Text.Split

/-!
# Addresses

An address names a file, a definition in it and an instance below that
definition: `path/to/file.ato:Entry.Path::instance.path`. The three parts are read
back by counting colons, so an address that is built from names without colons and
dots says which names it was built from. `addInstance` and `addEntry` look at the
address so far to choose the mark that they put before the new name.

The parent of an instance is the address with the last name of its path taken
away; the parent of an instance directly below the entry is the entry itself.
-/

namespace Boardwright

/-- The text that names a definition or an instance. -/
structure Address where
  text : String
  deriving Repr, DecidableEq, Hashable, Inhabited

instance : ToString Address := ⟨Address.text⟩

namespace Address

/-- Why an entry cannot be added to an address. -/
inductive Fault
  | entryBelowInstance
  deriving Repr, DecidableEq

def Fault.message : Fault → String
  | .entryBelowInstance => "Cannot add entry to an instance address."

def sections (a : Address) : List (List Char) := a.text.toList.splitOn ':'

/-- The part of an address before the first colon. -/
def file (a : Address) : String := String.ofList (a.sections.headD [])

/-- The part of an address after the last slash. -/
def relative (a : Address) : String := String.ofList ((a.text.toList.splitOn '/').getLastD [])

/-- The part of an address before the first double colon. -/
def entry (a : Address) : Address :=
  match Text.cut [':', ':'] a.text.toList with
  | some (before, _) => ⟨String.ofList before⟩
  | none => a

/-- The part of an address between its first and second colon. -/
def entrySection (a : Address) : Option String := a.sections[1]?.map String.ofList

/-- The part of an address between its third and fourth colon. -/
def instanceSection (a : Address) : Option String := a.sections[3]?.map String.ofList

def name (a : Address) : String :=
  String.ofList (((a.sections.getLastD []).splitOn '.').getLastD [])

/-- Whether an address names an instance below its entry. -/
def isInstance (a : Address) : Bool := a.instanceSection.any (· ≠ "")

def addInstance (a : Address) (n : String) : Address :=
  if a.isInstance then ⟨a.text ++ "." ++ n⟩ else ⟨a.text ++ "::" ++ n⟩

/-- The address reached from `a` by following instance names. -/
def addInstances (a : Address) (ns : List String) : Address := ns.foldl addInstance a

def entryAt (a : Address) (n : String) : Address :=
  if a.entrySection.any (· ≠ "") then ⟨a.text ++ "." ++ n⟩ else ⟨a.text ++ ":" ++ n⟩

def addEntry (a : Address) (n : String) : Except Fault Address :=
  if a.isInstance then .error .entryBelowInstance else .ok (a.entryAt n)

/-- The address reached from `a` by following definition names. -/
def addEntries (a : Address) (ns : List String) : Except Fault Address := ns.foldlM addEntry a

/-- The address of a file, with an entry and an instance where these are given and
not empty. -/
def ofParts (file : String) (entry inst : Option String) : Except Fault Address := do
  let a : Address := ⟨file⟩
  let a ← match entry with
    | some e => if e.isEmpty then pure a else a.addEntry e
    | none => pure a
  match inst with
  | some i => pure (if i.isEmpty then a else a.addInstance i)
  | none => pure a

/-- The address of the instance that holds `a`, or of the entry if `a` stands
directly below it. -/
def parent (a : Address) : Option Address :=
  match Text.cutLast [':', ':'] a.text.toList with
  | none => none
  | some (root, path) =>
    if path.isEmpty then none
    else if path.contains '.' then
      (Text.cutLast ['.'] a.text.toList).map fun (before, _) => ⟨String.ofList before⟩
    else some ⟨String.ofList root⟩

def parentsWithin : Nat → Address → List Address
  | 0, _ => []
  | fuel + 1, a =>
    match a.parent with
    | some p => if p.text.isEmpty then [] else p :: parentsWithin fuel p
    | none => []

/-- The parents of `a`, nearest first. Each is shorter than the one before, so the
length of the text bounds their number. -/
def parents (a : Address) : List Address := parentsWithin (a.text.length + 1) a

end Address

end Boardwright
