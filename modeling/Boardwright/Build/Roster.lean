import Boardwright.Report.Collection
import Boardwright.Table

/-!
# Targets by name

A roster holds the targets that can be made, by name and in the order in which their
names were first entered, and the names of those that are made when none are asked
for. A target that is registered shows its failures itself and then raises a fatal
report; one that is added as it is does not.
-/

namespace Boardwright

/-- Targets by name: each makes something of a `κ` and changes a `σ`. -/
structure Roster (κ σ α : Type) where
  targets : Table String (κ → Work σ α) := ⟨[]⟩
  byDefault : List String := []

namespace Roster

variable {κ σ α : Type}

/-- A roster with one more target. Where no name is given the target's own label is
used. -/
def add (r : Roster κ σ α) (label : String) (name : Option String) (isDefault : Bool)
    (target : κ → Work σ α) : Roster κ σ α :=
  let name := match name with
    | none | some "" => label
    | some n => n
  { targets := r.targets.set name target
    byDefault := if isDefault then r.byDefault ++ [name] else r.byDefault }

def register (handled : Work σ α → Work σ α) (r : Roster κ σ α) (label : String)
    (name : Option String) (isDefault : Bool) (target : κ → Work σ α) : Roster κ σ α :=
  r.add label name isDefault fun k => handled (target k)

/-- A target is made. -/
def make (r : Roster κ σ α) (name : String) (k : κ) : Work σ α :=
  match r.targets.get? name with
  | some target => target k
  | none => throw (.fault .missingKey)

/-- The names of the targets that a request stands for: the default ones, all, or those
that it lists. -/
def requested (r : Roster κ σ α) (names : List String) : List String :=
  if names == ["__default__"] then r.byDefault
  else if names == ["*"] || names == ["all"] then r.targets.keys
  else names

end Roster

end Boardwright
