import Boardwright.Syntax.Tree

/-!
# Statements

The forms of statement, with all their tokens. A source file is a list of statements
and empty lines. A statement is a line of simple statements, or a block with a header
and a body; the body stands on the line of the header or indented below it.

`tree` gives the derivation of each form by the rules of the grammar.
-/

namespace Boardwright.Syntax

/-- A name, or several with dots between them: the dots and the names after the first
one are kept together. -/
structure Path where
  head : Token
  tail : List (Token × Token)
  deriving Repr, DecidableEq, Inhabited

/-- The name or the number of a pin. -/
inductive PinLabel
  | name (t : Token)
  | number (t : Token)
  deriving Repr, DecidableEq

/-- The definition of a pin. -/
structure PinDef where
  word : Token
  label : PinLabel
  deriving Repr, DecidableEq

/-- The definition of a signal. -/
structure SignalDef where
  word : Token
  name : Token
  deriving Repr, DecidableEq

/-- One side of a connection. -/
inductive Connectable
  | path (p : Path)
  | numbered (p : Path) (dot number : Token)
  | signal (s : SignalDef)
  | pin (p : PinDef)
  deriving Repr, DecidableEq

/-- A number that may have a unit. -/
structure Measure where
  number : Token
  unit : Option Token
  deriving Repr, DecidableEq

/-- A number that may have a unit or a percent sign. -/
structure Tolerance where
  number : Token
  unit : Option Token
  deriving Repr, DecidableEq

/-- A physical quantity. -/
inductive Physical
  | bound (low : Measure) (word : Token) (high : Measure)
  | bilateral (nominal : Measure) (mark : Token) (tolerance : Tolerance)
  | implicit (m : Measure)
  deriving Repr, DecidableEq

/-- What can be assigned. -/
inductive Assignable
  | string (t : Token)
  | new (word : Token) (cls : Path)
  | physical (p : Physical)
  deriving Repr, DecidableEq

/-- The simple statements. -/
inductive Simple
  | importing (word : Token) (what : Path) (source : Token) (file : Token)
  | assign (target : Path) (mark : Token) (value : Assignable)
  | connect (left : Connectable) (mark : Token) (right : Connectable)
  | retype (target : Path) (mark : Token) (cls : Path)
  | pin (p : PinDef)
  | signal (s : SignalDef)
  | doc (t : Token)
  | equation (t : Token)
  deriving Repr, DecidableEq

/-- A line of simple statements with semicolons between them. -/
structure Line where
  first : Simple
  more : List (Token × Simple)
  last : Option Token
  newline : Token
  deriving Repr, DecidableEq

/-- The header of a block. -/
structure Header where
  word : Token
  name : Token
  parent : Option (Token × Path)
  colon : Token
  deriving Repr, DecidableEq

mutual

/-- A statement. -/
inductive Stmt
  | line (l : Line)
  | block (h : Header) (b : Block)

/-- The body of a block. -/
inductive Block
  | inline (l : Line)
  | indented (newline indent : Token) (body : List Stmt) (dedent : Token)

end

instance : Inhabited Block := ⟨.indented default default [] default⟩

/-- An empty line or a statement of a file. -/
inductive Item
  | blank (newline : Token)
  | stmt (s : Stmt)

/-- A source file. -/
structure SourceFile where
  items : List Item
  eof : Token

/-! ### The statements of each form -/

namespace Path

def names (p : Path) : List String := p.head.text :: p.tail.map fun (_, n) => n.text

end Path

namespace Line

def simples (l : Line) : List Simple := l.first :: l.more.map (·.2)

end Line

namespace SourceFile

def stmts (f : SourceFile) : List Stmt :=
  f.items.filterMap fun
    | .blank _ => none
    | .stmt s => some s

end SourceFile

/-! ### Derivations -/

def Tree.unary (rule : String) (t : Token) : Tree := .node rule [.leaf t]

def Tree.optional {α : Type} (f : α → Tree) : Option α → List Tree
  | none => []
  | some x => [f x]

def nameTree (t : Token) : Tree := .unary "name" t

def stringTree (t : Token) : Tree := .unary "string" t

def integerTree (t : Token) : Tree := .unary "totally_an_integer" t

def Path.attrTree (p : Path) : Tree :=
  .node "attr" (nameTree p.head :: p.tail.flatMap fun (d, n) => [.leaf d, nameTree n])

def Path.tree (p : Path) : Tree :=
  .node "name_or_attr" [if p.tail.isEmpty then nameTree p.head else p.attrTree]

def PinDef.tree (p : PinDef) : Tree :=
  .node "pindef_stmt" [.leaf p.word,
    match p.label with
    | .name t => nameTree t
    | .number t => integerTree t]

def SignalDef.tree (s : SignalDef) : Tree :=
  .node "signaldef_stmt" [.leaf s.word, nameTree s.name]

def numberedTree (p : Path) (dot number : Token) : Tree :=
  .node "numerical_pin_ref" [p.tree, .leaf dot, integerTree number]

def Connectable.tree (c : Connectable) : Tree :=
  .node "connectable" [
    match c with
    | .path p => p.tree
    | .numbered p dot number => numberedTree p dot number
    | .signal s => s.tree
    | .pin p => p.tree]

def Measure.tree (rule : String) (m : Measure) : Tree :=
  .node rule (.leaf m.number :: Tree.optional nameTree m.unit)

def Tolerance.tree (t : Tolerance) : Tree :=
  .node "bilateral_tolerance" (.leaf t.number ::
    Tree.optional (fun u => if u.kind == .percent then .leaf u else nameTree u) t.unit)

def Physical.formTree : Physical → Tree
  | .bound low word high =>
    .node "bound_quantity" [low.tree "quantity_end", .leaf word, high.tree "quantity_end"]
  | .bilateral nominal mark tolerance =>
    .node "bilateral_quantity" [nominal.tree "bilateral_nominal", .leaf mark, tolerance.tree]
  | .implicit m => m.tree "implicit_quantity"

def Physical.tree (p : Physical) : Tree := .node "physical" [p.formTree]

def newTree (word : Token) (cls : Path) : Tree := .node "new_stmt" [.leaf word, cls.tree]

def Assignable.tree (a : Assignable) : Tree :=
  .node "assignable" [
    match a with
    | .string t => stringTree t
    | .new word cls => newTree word cls
    | .physical p => p.tree]

def Simple.formTree : Simple → Tree
  | .importing word what source file =>
    .node "import_stmt" [.leaf word, what.tree, .leaf source, stringTree file]
  | .assign target mark value => .node "assign_stmt" [target.tree, .leaf mark, value.tree]
  | .connect left mark right => .node "connect_stmt" [left.tree, .leaf mark, right.tree]
  | .retype target mark cls => .node "retype_stmt" [target.tree, .leaf mark, cls.tree]
  | .pin p => p.tree
  | .signal s => s.tree
  | .doc t => .node "string_stmt" [stringTree t]
  | .equation t => .unary "eqn_stmt" t

def Simple.tree (s : Simple) : Tree := .node "simple_stmt" [s.formTree]

def Line.tree (l : Line) : Tree :=
  .node "simple_stmts" (l.first.tree :: l.more.flatMap (fun (m, s) => [.leaf m, s.tree]) ++
    Tree.optional .leaf l.last ++ [.leaf l.newline])

def Header.trees (h : Header) : List Tree :=
  [.unary "blocktype" h.word, nameTree h.name] ++
    (match h.parent with
      | none => []
      | some (word, p) => [.leaf word, p.tree]) ++ [.leaf h.colon]

mutual

def Stmt.tree : Stmt → Tree
  | .line l => .node "stmt" [l.tree]
  | .block h b => .node "stmt" [.node "compound_stmt" [.node "blockdef" (h.trees ++ [Block.tree b])]]

def Block.tree : Block → Tree
  | .inline l => .node "block" [l.tree]
  | .indented newline indent body dedent =>
    .node "block" ([.leaf newline, .leaf indent] ++ Stmt.trees body ++ [.leaf dedent])

def Stmt.trees : List Stmt → List Tree
  | [] => []
  | s :: ss => Stmt.tree s :: Stmt.trees ss

end

def blockDefTree (h : Header) (b : Block) : Tree := .node "blockdef" (h.trees ++ [b.tree])

def Item.tree : Item → Tree
  | .blank t => .leaf t
  | .stmt s => s.tree

def SourceFile.tree (f : SourceFile) : Tree :=
  .node "file_input" (f.items.map Item.tree ++ [.leaf f.eof])

/-! ### Where each form starts -/

/-- The first token of one side of a connection. -/
def Connectable.start : Connectable → Token
  | .path p => p.head
  | .numbered p _ _ => p.head
  | .signal s => s.word
  | .pin p => p.word

def Physical.start : Physical → Token
  | .bound low _ _ => low.number
  | .bilateral nominal _ _ => nominal.number
  | .implicit m => m.number

def Simple.start : Simple → Token
  | .importing word _ _ _ => word
  | .assign target _ _ => target.head
  | .connect left _ _ => left.start
  | .retype target _ _ => target.head
  | .pin p => p.word
  | .signal s => s.word
  | .doc t => t
  | .equation t => t

def Stmt.start : Stmt → Token
  | .line l => l.first.start
  | .block h _ => h.word

def SourceFile.start (f : SourceFile) : Token :=
  match f.items with
  | [] => f.eof
  | .blank t :: _ => t
  | .stmt s :: _ => s.start

end Boardwright.Syntax
