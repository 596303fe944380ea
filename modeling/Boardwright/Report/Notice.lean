import Boardwright.Address
import Boardwright.Failure
import Boardwright.Text.Blank

/-!
# How failures are shown

A report is shown as a heading in bold, the place in the source file if one is
known, and the message with an arrow before each line that is not blank. Where the
message holds `$addr` the address of the report stands instead; an address that the
message does not ask for is shown on a line of its own, unless a place is.

A `Notice` is one entry of the log. A group is shown by its message, if it has one,
and then by its members; a fault among them cannot be shown, and the showing ends
there with a fault of its own.
-/

namespace Boardwright

/-- How important an entry of the log is. -/
inductive Severity
  | debug
  | info
  | warning
  | error
  | critical
  | other (rank : Nat)
  deriving Repr, DecidableEq

namespace Severity

/-- The name of a level as the log writes it. -/
def label : Severity → String
  | .debug => "DEBUG"
  | .info => "INFO"
  | .warning => "WARNING"
  | .error => "ERROR"
  | .critical => "CRITICAL"
  | .other n => "Level " ++ toString n

/-- The level of a rank: the tens have names, as is usual in logs. -/
def ofRank : Nat → Severity
  | 10 => .debug
  | 20 => .info
  | 30 => .warning
  | 40 => .error
  | 50 => .critical
  | n => .other n

def rank : Severity → Nat
  | .debug => 10
  | .info => 20
  | .warning => 30
  | .error => 40
  | .critical => 50
  | .other n => n

end Severity

/-- One entry of the log. -/
structure Notice where
  level : Severity
  message : String
  deriving Repr, DecidableEq

namespace Report

/-- The line that says where a report points: a line number only after a path, a
column only after a line number, and neither if it is zero. -/
def place (r : Report) : Option String :=
  match r.path with
  | none | some "" => none
  | some path =>
    match r.line with
    | none | some 0 => some path
    | some line =>
      match r.column with
      | none | some 0 => some (path ++ ":" ++ toString line)
      | some column => some (path ++ ":" ++ toString line ++ ":" ++ toString column)

/-- The text of a report. With `whole` its address is written with the directories
before the file. -/
def render (r : Report) (whole : Bool) : String :=
  let head := "[bold]" ++ r.heading ++ "[/]\n" ++
    match r.place with
    | some p => p ++ "\n"
    | none => ""
  let body := Text.indent "--> " r.message
  Text.trim <|
    match r.address with
    | none | some "" => head ++ body
    | some a =>
      let shown := "[bold cyan]" ++ (if whole then a else (Address.mk a).relative) ++ "[/]"
      if Text.contains "$addr" body then head ++ Text.replace "$addr" shown body
      else if r.place.isSome then head ++ body
      else head ++ "Address: " ++ shown ++ "\n" ++ body

end Report

namespace Failure

def render (f : Failure) (whole : Bool) : Except Failure String :=
  match f with
  | .report r => .ok (r.render whole)
  | _ => .error (.fault .missingAttribute)

/-- The entries of the log that show a failure that is no group. With `verbose` the
whole address is written and the failure is noted once more for those who look into
the program. -/
def leafNotices (verbose : Bool) (f : Failure) : List Notice × Option Failure :=
  match f.render verbose with
  | .ok text =>
    ([⟨.error, text⟩] ++ if verbose then [⟨.debug, "Error info:\n"⟩] else [], none)
  | .error e => ([], some e)

mutual

def notices (verbose : Bool) : Failure → List Notice × Option Failure
  | .group message fs =>
    let (shown, stop) := noticesAll verbose fs
    ((if message.isEmpty then [] else [⟨.error, message⟩]) ++ shown, stop)
  | f => leafNotices verbose f

/-- The entries of the log that show the failures of a list, up to the first that
cannot be shown. -/
def noticesAll (verbose : Bool) : List Failure → List Notice × Option Failure
  | [] => ([], none)
  | f :: fs =>
    match notices verbose f with
    | (shown, some stop) => (shown, some stop)
    | (shown, none) =>
      let (rest, stop) := noticesAll verbose fs
      (shown ++ rest, stop)

end

end Failure

end Boardwright
