import Boardwright.Files
import Boardwright.Quantity.Literal
import Boardwright.Reference
import Boardwright.Report.Collection

/-!
# Definitions

A file and each block in it is a definition. It declares names: those of the blocks
directly in it, those that it imports, and those whose type it replaces in its
instances. Of several blocks of one name the last one counts.

A name is looked up in the closure of a definition, the scopes that enclose it from
the innermost one out, and then among the built-in blocks. The scope of the definition
itself is not part of its closure.
-/

namespace Boardwright

open Syntax

/-- What is imported, and where the import stands. -/
structure Import where
  address : Address
  pos : Pos
  deriving Repr, DecidableEq

/-- The block that takes the place of another, and where it is said. -/
structure Replacement where
  block : Reference
  pos : Pos
  deriving Repr, DecidableEq

/-- The names that a file or a block declares for what is in it. -/
structure Scope where
  address : Address
  path : String
  pos : Pos
  imports : Table Reference Import
  blocks : List String
  deriving Repr, DecidableEq

/-- A file or a block: its scope, the block it extends, the types it replaces in its
instances, its statements, and the scopes around it from the innermost one out. -/
structure Definition extends Scope where
  base : Reference
  replacements : Table Reference Replacement
  body : List Stmt
  closure : List Scope

def Import.text (i : Import) : String := "<Import " ++ i.address.text ++ ">"

def Definition.text (d : Definition) : String := "<ObjectDef " ++ d.address.text ++ ">"

/-! ### The built-in blocks -/

/-- The blocks that need no definition. -/
inductive Builtin
  | module
  | component
  | interface
  | pin
  | signal
  deriving Repr, DecidableEq

namespace Builtin

def all : List Builtin := [.module, .component, .interface, .pin, .signal]

/-- The name by which a built-in block is referred to. -/
def word : Builtin → String
  | .module => "MODULE"
  | .component => "COMPONENT"
  | .interface => "INTERFACE"
  | .pin => "PIN"
  | .signal => "SIGNAL"

def address : Builtin → Address
  | .module => ⟨"<Built-in>:Module"⟩
  | .component => ⟨"<Built-in>:Component"⟩
  | .interface => ⟨"<Built-in>:Interface"⟩
  | .pin => ⟨"<Built-in>:Pin"⟩
  | .signal => ⟨"<Built-in>:Signal"⟩

def base? : Builtin → Option Builtin
  | .component => some .module
  | _ => none

def ofReference? (r : Reference) : Option Builtin := all.find? fun b => r == [b.word]

def ofAddress? (a : Address) : Option Builtin := all.find? fun b => b.address == a

end Builtin

/-! ### What a file declares -/

/-- The file that is being read: its text as a route, and where imports are looked
for. -/
structure Source where
  files : Files
  searched : List Route
  route : Route

namespace Source

/-- Where the file of an import is: in the directory of the file itself, if that is
there, or else in the first of the searched directories that has it. -/
def locate? (src : Source) (file : String) : Option Route :=
  let places := (if src.files.isFile src.route then [src.route.parent] else []) ++ src.searched
  (places.map fun r => src.files.resolve (r.joinText file)).find? src.files.exists?

def imported (src : Source) (word : Token) (what : Path) (file : Token) :
    Except Failure (Reference × Import) :=
  match src.locate? file.content with
  | none => .error (.report (.located .importNotFound src.route.text word.pos
      ("File '" ++ file.content ++ "' not found.")))
  | some r =>
    match (Address.mk r.text).addEntries what.names with
    | .ok a => .ok (what.names, ⟨a, word.pos⟩)
    | .error e => .error (.fault (.value e.message))

end Source

namespace Syntax

def Block.stmts : Block → List Stmt
  | .inline l => [.line l]
  | .indented _ _ body _ => body

/-- The simple statements among the statements of a body. -/
def simplesOf (stmts : List Stmt) : List Simple :=
  stmts.flatMap fun
    | .line l => l.simples
    | .block _ _ => []

/-- The names of the blocks among the statements of a body, each once. -/
def blockNames (stmts : List Stmt) : List String :=
  (stmts.filterMap fun
    | .line _ => none
    | .block h _ => some h.name.text).eraseDups

/-- The types that the statements of a body replace. -/
def replacementsOf (stmts : List Stmt) : Table Reference Replacement :=
  Table.ofList ((simplesOf stmts).filterMap fun
    | .retype target mark block => some (target.names, ⟨block.names, (Simple.retype target mark block).start.pos⟩)
    | _ => none)

/-- The block that a block extends: the one it names, or the built-in one of its
word. -/
def Header.base (h : Header) : Reference :=
  match h.parent with
  | some (_, p) => p.names
  | none =>
    match h.word.kind with
    | .componentWord => [Builtin.component.word]
    | .interfaceWord => [Builtin.interface.word]
    | _ => [Builtin.module.word]

end Syntax

namespace Source

/-- The names that the statements of a body import. -/
def importsOf (src : Source) (stmts : List Stmt) : List (Except Failure (Reference × Import)) :=
  (simplesOf stmts).filterMap fun
    | .importing word what _ file => some (src.imported word what file)
    | _ => none

def scope (src : Source) (address : Address) (pos : Pos) (stmts : List Stmt) : Scope :=
  { address, path := src.route.text, pos, blocks := blockNames stmts
    imports := Table.ofList ((src.importsOf stmts).filterMap Except.toOption) }

mutual

/-- The imports of a statement and of the blocks in it. What fails on one line is raised
together, and so is what fails in the body of one block. -/
def visit (src : Source) : Stmt → Except Failure (List (Reference × Import))
  | .line l => Failure.gather (src.importsOf [.line l])
  | .block _ b => visitBlock src b

def visitBlock (src : Source) : Block → Except Failure (List (Reference × Import))
  | .inline l => Failure.gather (src.importsOf [.line l])
  | .indented _ _ body _ => (Failure.gather (visitEach src body)).map List.flatten

def visitEach (src : Source) : List Stmt → List (Except Failure (List (Reference × Import)))
  | [] => []
  | s :: ss => visit src s :: visitEach src ss

end

mutual

def blockDefinitions (src : Source) (address : Address) (closure : List Scope) (h : Header) :
    Block → List Definition
  | .inline l =>
    [{ src.scope address h.word.pos [.line l] with
      base := h.base, replacements := replacementsOf [.line l], body := [.line l], closure }]
  | .indented _ _ body _ =>
    let scope := src.scope address h.word.pos body
    { scope with base := h.base, replacements := replacementsOf body, body, closure } ::
      (Table.ofList (bodyDefinitions src address (scope :: closure) body)).values.flatten

def bodyDefinitions (src : Source) (address : Address) (closure : List Scope) :
    List Stmt → List (String × List Definition)
  | [] => []
  | .line _ :: ss => bodyDefinitions src address closure ss
  | .block h b :: ss =>
    (h.name.text, blockDefinitions src (address.entryAt h.name.text) closure h b) ::
      bodyDefinitions src address closure ss

end

/-- What a file must not declare: nothing has the file as its type, so there is
nothing whose type it could replace. -/
def misplaced (f : SourceFile) : Option Failure :=
  if (replacementsOf f.stmts).entries.isEmpty then none
  else some (.general "Unexpected local type: <class 'atopile.front_end.Replacement'>")

/-- The definitions that a file declares under an address: the file itself and all blocks
in it. -/
def declared (src : Source) (address : Address) (f : SourceFile) :
    Except Failure (List Definition) :=
  match misplaced f with
  | some e => throw e
  | none =>
    let scope := src.scope address f.start.pos f.stmts
    return { scope with base := [Builtin.module.word], replacements := ∅, body := f.stmts, closure := [] } ::
      (Table.ofList (src.bodyDefinitions address [scope] f.stmts)).values.flatten

def definitions (src : Source) (address : Address) (f : SourceFile) :
    Except Failure (List Definition) := do
  let _ ← Failure.gather (src.visitEach f.stmts)
  src.declared address f

end Source

/-! ### Looking up names -/

namespace Scope

/-- What a scope says of a reference: the address of a block or of an import. Both at
once for the first name are a report, and the parts of a block cannot be referred to
from outside. -/
def find (s : Scope) (r : Reference) : Except Failure (Option Address) :=
  match r with
  | [] => if s.imports.entries.isEmpty then .ok none else .error (.fault .index)
  | n :: more =>
    if s.blocks.contains n then
      if s.imports.keys.any fun k => k.head? == some n then
        .error (.report (.located .ambiguousName s.path s.pos
          ("Name '" ++ n ++ "' is ambiguous in '<ObjectDef " ++ s.address.text ++ ">'.")))
      else if more.isEmpty then .ok (some (s.address.entryAt n))
      else .error (.fault (.unsupported ""))
    else .ok ((s.imports.get? r).map (·.address))

end Scope

/-- The address that a reference names in a list of scopes, the first of which counts
most. -/
def lookupIn (r : Reference) : List Scope → Except Failure Address
  | [] =>
    match Builtin.ofReference? r with
    | some b => .ok b.address
    | none => .error (.fault .missingKey)
  | s :: ss => do
    match ← s.find r with
    | some a => return a
    | none => lookupIn r ss

def Definition.lookup (d : Definition) (r : Reference) : Except Failure Address :=
  lookupIn r d.closure

end Boardwright
