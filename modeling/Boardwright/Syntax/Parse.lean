import Boardwright.Syntax.Layout
import Boardwright.Syntax.Statement

/-!
# Reading statements

Each form of statement is read from the front of a list of tokens. One token always
decides how to go on, except that a dot belongs to a dotted name only if a name
follows it. Reading stops at the first token that no text could have at its place, and
that token is the answer.

Statements nest, so reading them is bounded by the number of tokens; each level of
nesting and each statement takes at least one.
-/

namespace Boardwright.Syntax

/-- Reading from a list of tokens; what fails is the token it fails at. -/
abbrev Parse (α : Type) := StateT (List Token) (Except Token) α

namespace Parse

def peek : Parse Token := do return (← get).headD ⟨.eof, "<EOF>", ⟨1, 0⟩⟩

def stop {α : Type} : Parse α := do throw (← peek)

def expect (k : Kind) : Parse Token := do
  let t ← peek
  if t.kind = k then
    modify List.tail
    return t
  else stop

def optional (k : Kind) : Parse (Option Token) := do
  let t ← peek
  if t.kind = k then
    modify List.tail
    return some t
  else return none

def dotted : List Token → List (Token × Token) × List Token
  | d :: n :: ts =>
    if d.kind = .dot && n.kind = .name then
      let (more, rest) := dotted ts
      ((d, n) :: more, rest)
    else ([], d :: n :: ts)
  | ts => ([], ts)

/-- A name that may be dotted. -/
def path : Parse Path := do
  let head ← expect .name
  let (tail, rest) := dotted (← get)
  set rest
  return ⟨head, tail⟩

/-- A dotted name. -/
def attr : Parse Path := do
  let head ← expect .name
  let dot ← expect .dot
  let name ← expect .name
  let (tail, rest) := dotted (← get)
  set rest
  return ⟨head, (dot, name) :: tail⟩

def pinDef : Parse PinDef := do
  let word ← expect .pinWord
  match (← peek).kind with
  | .name => return ⟨word, .name (← expect .name)⟩
  | _ => return ⟨word, .number (← expect .number)⟩

def signalDef : Parse SignalDef := do
  let word ← expect .signalWord
  return ⟨word, ← expect .name⟩

def numbered : Parse (Path × Token × Token) := do
  let p ← path
  let dot ← expect .dot
  return (p, dot, ← expect .number)

/-- One side of a connection. -/
def connectable : Parse Connectable := do
  match (← peek).kind with
  | .pinWord => return .pin (← pinDef)
  | .signalWord => return .signal (← signalDef)
  | _ =>
    let p ← path
    match (← peek).kind with
    | .dot => return .numbered p (← expect .dot) (← expect .number)
    | _ => return .path p

/-- A number that may have a unit. -/
def measure : Parse Measure := do
  let number ← expect .number
  return ⟨number, ← optional .name⟩

/-- A number that may have a unit or a percent sign. -/
def tolerance : Parse Tolerance := do
  let number ← expect .number
  match ← optional .percent with
  | some t => return ⟨number, some t⟩
  | none => return ⟨number, ← optional .name⟩

/-- A quantity between two ends, after the first end. -/
def boundAfter (low : Measure) : Parse Physical := do
  let word ← expect .toWord
  return .bound low word (← measure)

/-- A quantity with a tolerance, after the nominal value. -/
def bilateralAfter (nominal : Measure) : Parse Physical := do
  let mark ← expect .plusMinus
  return .bilateral nominal mark (← tolerance)

/-- A quantity. -/
def physical : Parse Physical := do
  let m ← measure
  match (← peek).kind with
  | .toWord => boundAfter m
  | .plusMinus => bilateralAfter m
  | _ => return .implicit m

def newStmt : Parse (Token × Path) := do
  let word ← expect .newWord
  return (word, ← path)

def assignable : Parse Assignable := do
  match (← peek).kind with
  | .string => return .string (← expect .string)
  | .newWord =>
    let (word, cls) ← newStmt
    return .new word cls
  | _ => return .physical (← physical)

def importing : Parse Simple := do
  let word ← expect .importWord
  let what ← path
  let source ← expect .fromWord
  return .importing word what source (← expect .string)

def assignAfter (target : Path) : Parse Simple := do
  let mark ← expect .assign
  return .assign target mark (← assignable)

def retypeAfter (target : Path) : Parse Simple := do
  let mark ← expect .arrow
  return .retype target mark (← path)

def connectAfter (left : Connectable) : Parse Simple := do
  let mark ← expect .tilde
  return .connect left mark (← connectable)

def simple : Parse Simple := do
  match (← peek).kind with
  | .importWord => importing
  | .string => return .doc (← expect .string)
  | .equation => return .equation (← expect .equation)
  | .pinWord =>
    let p ← pinDef
    match (← peek).kind with
    | .tilde => connectAfter (.pin p)
    | _ => return .pin p
  | .signalWord =>
    let s ← signalDef
    match (← peek).kind with
    | .tilde => connectAfter (.signal s)
    | _ => return .signal s
  | .name =>
    let p ← path
    match (← peek).kind with
    | .assign => assignAfter p
    | .arrow => retypeAfter p
    | .dot =>
      let dot ← expect .dot
      let number ← expect .number
      connectAfter (.numbered p dot number)
    | _ => connectAfter (.path p)
  | _ => stop

/-- The statements of a line after the first one, and the semicolon that may end
them. -/
def more : Nat → Parse (List (Token × Simple) × Option Token)
  | 0 => stop
  | fuel + 1 => do
    match ← optional .semicolon with
    | none => return ([], none)
    | some mark =>
      match (← peek).kind with
      | .newline => return ([], some mark)
      | _ =>
        let s ← simple
        let (rest, last) ← more fuel
        return ((mark, s) :: rest, last)

def line : Parse Line := do
  let first ← simple
  let (rest, last) ← more ((← get).length + 1)
  return ⟨first, rest, last, ← expect .newline⟩

def blockWord : Parse Token := do
  match (← peek).kind with
  | .componentWord => expect .componentWord
  | .moduleWord => expect .moduleWord
  | _ => expect .interfaceWord

def header : Parse Header := do
  let word ← blockWord
  let name ← expect .name
  let parent ← match ← optional .fromWord with
    | none => pure none
    | some t => do pure (some (t, ← path))
  return ⟨word, name, parent, ← expect .colon⟩

mutual

/-- A statement. -/
def stmt : Nat → Parse Stmt
  | 0 => stop
  | fuel + 1 => do
    match (← peek).kind with
    | .componentWord | .moduleWord | .interfaceWord =>
      let h ← header
      return .block h (← block fuel)
    | _ => return .line (← line)

def block : Nat → Parse Block
  | 0 => stop
  | fuel + 1 => do
    match (← peek).kind with
    | .newline =>
      let newline ← expect .newline
      let indent ← expect .indent
      let first ← stmt fuel
      let rest ← stmts fuel
      return .indented newline indent (first :: rest) (← expect .dedent)
    | _ => return .inline (← line)

/-- The statements up to the end of an indentation. -/
def stmts : Nat → Parse (List Stmt)
  | 0 => stop
  | fuel + 1 => do
    match (← peek).kind with
    | .dedent => return []
    | _ =>
      let s ← stmt fuel
      return s :: (← stmts fuel)

end

def items : Nat → Parse (List Item)
  | 0 => stop
  | fuel + 1 => do
    match (← peek).kind with
    | .eof => return []
    | .newline =>
      let t ← expect .newline
      return .blank t :: (← items fuel)
    | _ =>
      let s ← stmt fuel
      return .stmt s :: (← items fuel)

/-- A file. The token that ends it stays. -/
def file : Parse SourceFile := do
  let is ← items (2 * (← get).length + 2)
  return ⟨is, ← peek⟩

end Parse

def SourceFile.ofTokens (ts : List Token) : Except Token SourceFile :=
  (Parse.file.run ts).map (·.1)

def SourceFile.parse (s : String) : Except Token SourceFile := SourceFile.ofTokens (tokens s)

/-- A report of a token that stands where none of its sort can. -/
def badToken (path : String) (t : Token) : Report := .located .badSyntax path t.pos ""

/-- What is raised when a file cannot be read. -/
def parseFailure (path : String) (t : Token) : Failure :=
  .group "Errors caused parsing failure" [.report (badToken path t)]

end Boardwright.Syntax
