import Boardwright.Design.Query
import Boardwright.Document

/-!
# Sessions

A session is the library of a design together with what has been shown to the author,
the entries of the log and the tables, and with the designators that were given last.
-/

namespace Boardwright

/-- A table that is shown. -/
structure Grid where
  columns : List String
  rows : List (List String)
  deriving Repr, DecidableEq

/-- A design that is worked on, what has been shown, and the designators that were given
last. -/
structure Session where
  library : Library := {}
  log : List Notice := []
  grids : List Grid := []
  verbose : Bool := false
  register : Table Address String := ⟨[]⟩

namespace Session

variable {α : Type}

def design (w : Work Library α) : Work Session α :=
  w.within (·.library) fun lib s => { s with library := lib }

/-- An entry is added to the log. -/
def note (severity : Severity) (message : String) : Work Session Unit :=
  modify fun s => { s with log := s.log ++ [⟨severity, message⟩] }

/-- A table is shown. -/
def present (g : Grid) : Work Session Unit :=
  modify fun s => { s with grids := s.grids ++ [g] }

/-- Work that goes on with another value after a report of one of the given sorts,
which is shown as a warning. -/
def warned (kinds : List Report.Kind) (instead : α) (w : Work Session α) : Work Session α :=
  Work.downgraded
    (fun | .report r => kinds.contains r.kind
         | _ => false)
    (fun f s => match f.render s.verbose with
      | .ok text => (none, { s with log := s.log ++ [⟨.warning, text⟩] })
      | .error stop => (some stop, s))
    (pure instead) w

end Session

end Boardwright
