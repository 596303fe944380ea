/-!
# Failures

A failure is what stops a piece of work. A `Report` is addressed to the author of
a design: it has a title, a message and, where they are known, an address and a
place in a source file. A `Fault` is anything else that went wrong. Several
failures that were met while the work went on are put together in a group, and
groups may hold groups.

`Failure.select p` keeps of a group the leaves that `p` accepts and `Failure.reject p`
the others, with the nesting and the messages of the groups kept and empty groups
left out; a group that `p` itself accepts is kept whole.
-/

namespace Boardwright

/-- The sorts of report. -/
inductive Report.Kind
  | plain
  | fatal
  | general
  | badSyntax
  | unknownName
  | wrongType
  | importNotFound
  | ambiguousName
  | fileNotFound
  | unknownUnit
  | blockNotFound
  | missingData
  | noMatchingPart
  | versionMismatch
  deriving Repr, DecidableEq

/-- The heading of a report of each sort that is given no other. -/
def Report.Kind.title : Report.Kind → String
  | .plain => "_BaseAtoError"
  | .fatal => "FatalError"
  | .general => "Error"
  | .badSyntax => "SyntaxError"
  | .unknownName => "KeyError"
  | .wrongType => "TypeError"
  | .importNotFound => "ImportNotFoundError"
  | .ambiguousName => "AmbiguousReferenceError"
  | .fileNotFound => "FileNotFoundError"
  | .unknownUnit => "UnknownUnitError"
  | .blockNotFound => "BlockNotFoundError"
  | .missingData => "MissingData"
  | .noMatchingPart => "No component matches parameters"
  | .versionMismatch => "VersionMismatchError"

/-- A place in a source file: lines count from one, columns from zero. -/
structure Pos where
  line : Nat
  column : Nat
  deriving Repr, DecidableEq, Inhabited

def Pos.after (p : Pos) (c : Char) : Pos :=
  if c == '\n' then ⟨p.line + 1, 0⟩ else ⟨p.line, p.column + 1⟩

/-- What a report says, apart from its sort. Two reports with the same details are
shown once. -/
structure Report.Details where
  message : String := ""
  title : Option String := none
  address : Option String := none
  path : Option String := none
  line : Option Nat := none
  column : Option Nat := none
  deriving Repr, DecidableEq, Inhabited

/-- A failure that is addressed to the author of a design. -/
structure Report extends Report.Details where
  kind : Report.Kind := .general
  deriving Repr, DecidableEq

namespace Report

def heading (r : Report) : String :=
  match r.kind with
  | .noMatchingPart => r.kind.title
  | k => r.title.getD k.title

/-- A report of a place in a source file. -/
def located (kind : Kind) (path : String) (pos : Pos) (message : String) : Report :=
  { kind, message, path := some path, line := some pos.line, column := some pos.column }

def moved (r : Report) (path : String) (pos : Pos) : Report :=
  { r with path := some path, line := some pos.line, column := some pos.column }

end Report

/-- A failure of the command line itself. -/
inductive Usage
  | usage
  | badParameter
  | missingParameter
  | noSuchOption
  | badOption
  | general
  | abort
  deriving Repr, DecidableEq

/-- The faults of reading a configuration text. -/
inductive Fault.Markup
  | scanner
  | parser
  | constructor
  deriving Repr, DecidableEq

/-- What can go wrong apart from the reports. -/
inductive Fault
  | value (message : String)
  | runtime (message : String)
  | unsupported (message : String)
  | missingKey
  | wrongType
  | missingAttribute
  | assertion
  | index
  | endlessRecursion
  | exhausted
  | fileMissing
  | isDirectory
  | notDirectory
  | fileExists
  | zeroDivision
  | offsetUnit
  | undefined
  | notRenderable
  | http
  | noRepository
  | noSuchPath
  | gitCommand
  | template
  | unset
  | markup (fault : Fault.Markup)
  | usage (kind : Usage) (message : String)
  deriving Repr, DecidableEq

/-- What stops a piece of work. -/
inductive Failure
  | report (r : Report)
  | fault (f : Fault)
  | group (message : String) (members : List Failure)
  | exit (code : Nat)
  deriving Repr, Inhabited

namespace Failure

def general (message : String) : Failure := .report { message }

/-- Whether a failure is a report that a piece of work may go on after: any but the
plain and the fatal ones. -/
def isError : Failure → Bool
  | .report r => r.kind != .plain && r.kind != .fatal
  | _ => false

def isGroup : Failure → Bool
  | .group .. => true
  | _ => false

def isFatal : Failure → Bool
  | .report r => r.kind == .fatal
  | _ => false

mutual

def select (p : Failure → Bool) : Failure → Option Failure
  | .group m fs =>
    if p (.group m fs) then some (.group m fs)
    else match selectAll p fs with
      | [] => none
      | gs => some (.group m gs)
  | f => if p f then some f else none

def selectAll (p : Failure → Bool) : List Failure → List Failure
  | [] => []
  | f :: fs => (select p f).toList ++ selectAll p fs

end

mutual

def reject (p : Failure → Bool) : Failure → Option Failure
  | .group m fs =>
    if p (.group m fs) then none
    else match rejectAll p fs with
      | [] => none
      | gs => some (.group m gs)
  | f => if p f then none else some f

def rejectAll (p : Failure → Bool) : List Failure → List Failure
  | [] => []
  | f :: fs => (reject p f).toList ++ rejectAll p fs

end

def members : Failure → List Failure
  | .group _ fs => fs
  | _ => []

/-- What two failures have to agree in to be shown once: the details of a report.
All failures that are no reports agree. -/
def details : Failure → Option Report.Details
  | .report r => some r.toDetails
  | _ => none

mutual

def leaves : Failure → List Failure
  | .group _ fs => leavesAll fs
  | f => [f]

def leavesAll : List Failure → List Failure
  | [] => []
  | f :: fs => leaves f ++ leavesAll fs

end

end Failure

end Boardwright
