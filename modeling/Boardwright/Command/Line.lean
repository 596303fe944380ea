import Boardwright.Document
import Boardwright.Failure

/-!
# Command lines

The words of a command line are switches and arguments. A switch has a long name, a
short one or both, and it may take a value: the rest of its word, or else the next word.
Short switches may stand together in one word. Switches may stand before and after the
arguments, and two hyphens end them.

What is wrong with a line is found from left to right; after that arguments that are
missing are found, and then those that are too many.
-/

namespace Boardwright

/-- A switch of a command. -/
structure Switch where
  key : String
  short : Option Char := none
  long : String
  takesValue : Bool := false
  deriving Repr, DecidableEq

/-- What a command takes: its switches, its arguments with whether they are needed, and
whether switches may stand after arguments. -/
structure Usage.Form where
  switches : List Switch := []
  arguments : List (String × Bool) := []
  mixed : Bool := true
  deriving Repr

/-- The words of a line that have been read: the switches with their values, the
arguments, the switch that waits for its value, and whether switches are over. -/
structure Words where
  values : List (String × String) := []
  arguments : List String := []
  waiting : Option (String × String) := none
  ended : Bool := false
  deriving Repr

namespace Words

def fail {α : Type} (kind : Usage) (message : String) : Except Failure α :=
  .error (.fault (.usage kind message))

def unknown {α : Type} (name : String) : Except Failure α :=
  fail .noSuchOption ("No such option: " ++ name)

def set (w : Words) (key value : String) : Words := { w with values := w.values ++ [(key, value)] }

def shorts (form : Usage.Form) : List Char → Words → Except Failure Words
  | [], w => .ok w
  | c :: cs, w =>
    match form.switches.find? fun s => s.short == some c with
    | none => unknown (String.ofList ['-', c])
    | some s =>
      if s.takesValue then
        if cs.isEmpty then .ok { w with waiting := some (String.ofList ['-', c], s.key) }
        else .ok (w.set s.key (String.ofList cs))
      else shorts form cs (w.set s.key "")

def switch (form : Usage.Form) (word : List Char) (w : Words) : Except Failure Words :=
  let (name, value) := match Text.cut ['='] word with
    | some (before, after) => (String.ofList before, some (String.ofList after))
    | none => (String.ofList word, none)
  match form.switches.find? fun s => s.long == name with
  | some s =>
    match s.takesValue, value with
    | true, some v => .ok (w.set s.key v)
    | true, none => .ok { w with waiting := some (name, s.key) }
    | false, some _ => fail .badOption ("Option " ++ Document.quoted name ++ " does not take a value.")
    | false, none => .ok (w.set s.key "")
  | none =>
    match word with
    | '-' :: '-' :: _ => unknown name
    | _ => shorts form (word.drop 1) w

def read (form : Usage.Form) : List String → Words → Except Failure Words
  | [], w =>
    match w.waiting with
    | some (name, _) => fail .badOption ("Option " ++ Document.quoted name ++ " requires an argument.")
    | none => .ok w
  | word :: rest, w =>
    match w.waiting with
    | some (_, key) => read form rest { (w.set key word) with waiting := none }
    | none =>
      if w.ended then read form rest { w with arguments := w.arguments ++ [word] }
      else if word == "--" then read form rest { w with ended := true }
      else if Text.startsWith "-" word && word != "-" then do
        read form rest (← switch form word.toList w)
      else read form rest { w with arguments := w.arguments ++ [word], ended := !form.mixed }

def last? (w : Words) (key : String) : Option String := w.values.reverse.lookup key

/-- All values of a switch. -/
def all (w : Words) (key : String) : List String :=
  w.values.filterMap fun (k, v) => if k == key then some v else none

/-- How often a switch stands. -/
def count (w : Words) (key : String) : Nat := (w.all key).length

/-- The words of a line, with the right number of arguments. -/
def ofLine (form : Usage.Form) (line : List String) : Except Failure Words := do
  let w ← read form line {}
  match (form.arguments.drop w.arguments.length).find? (·.2) with
  | some (name, _) => fail .missingParameter ("Missing argument '" ++ name ++ "'.")
  | none =>
    match w.arguments.drop form.arguments.length with
    | [] => return w
    | [x] => fail .usage ("Got unexpected extra argument (" ++ x ++ ")")
    | xs => fail .usage ("Got unexpected extra arguments (" ++ Text.join " " xs ++ ")")

end Words

end Boardwright
