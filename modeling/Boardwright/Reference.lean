import Boardwright.Table
import Boardwright.Text.Split

/-!
# References and named items

A reference is a path of names with dots between them. An item may have a reference
as its name; `Named.byName` gathers the items that have one, where a later item takes
the place of an earlier one of the same name.
-/

namespace Boardwright

/-- A path of names. -/
abbrev Reference := List String

namespace Reference

def text (r : Reference) : String := Text.join "." r

end Reference

/-- An item that may have a name. -/
structure Named (ρ α : Type) where
  name : Option ρ
  value : α
  deriving Repr

namespace Named

variable {ρ α : Type} [BEq ρ]

def byName (items : List (Named ρ α)) : Table ρ α :=
  Table.ofList (items.filterMap fun i => i.name.map fun n => (n, i.value))

def unnamed (items : List (Named ρ α)) : List α :=
  items.filterMap fun i => if i.name.isNone then some i.value else none

def names (items : List (Named ρ α)) : List ρ := items.filterMap (·.name)

def ofClass (p : α → Bool) (items : List (Named ρ α)) : List (Named ρ α) :=
  items.filter fun i => p i.value

end Named

end Boardwright
