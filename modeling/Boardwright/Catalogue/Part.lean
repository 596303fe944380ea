import Boardwright.Table

/-!
# Parts

A part of the catalogue has a sort, a package, the least and the greatest value that it
may have, and perhaps a price. A part fits a wish if it is of the sort and in the
package that is wished for and its values lie between the wished ones; what is not
known of a part fits no wish. Of the parts that fit, the cheapest is chosen, the first
of several at one price, and the first of all if no price is known.

Only comparisons of the numbers matter, so the numbers are of any sort that can be
compared.
-/

namespace Boardwright

/-- The sorts of parts in the catalogue. -/
inductive PartKind
  | resistor
  | capacitor
  deriving Repr, DecidableEq

namespace PartKind

def label : PartKind → String
  | .resistor => "Resistor"
  | .capacitor => "Capacitor"

end PartKind

/-- A part of the catalogue. Its sort is written as a name, which may be any. -/
structure Part (α : Type) where
  code : String
  value : Option α
  kind : String
  low : Option α
  high : Option α
  package : String
  price : Option α
  unit : String
  deriving Repr

/-- What is asked of a part. -/
structure PartWish (α : Type) where
  kind : PartKind
  low : α
  high : α
  package : String
  deriving Repr

namespace PartWish

variable {α : Type}

def accepts (le : α → α → Bool) (w : PartWish α) (p : Part α) : Bool :=
  p.kind == w.kind.label && p.low.any (le w.low ·) && p.high.any (le · w.high) &&
    p.package == w.package

/-- The cheaper of a part and those of a list that have a price: the first with the
lowest one. -/
def cheapestFrom (lt : α → α → Bool) (best : Part α × α) : List (Part α) → Part α
  | [] => best.1
  | p :: ps =>
    match p.price with
    | some c => if lt c best.2 then cheapestFrom lt (p, c) ps else cheapestFrom lt best ps
    | none => cheapestFrom lt best ps

def cheapest? (lt : α → α → Bool) : List (Part α) → Option (Part α)
  | [] => none
  | p :: ps =>
    match p.price with
    | some c => some (cheapestFrom lt (p, c) ps)
    | none => cheapest? lt ps

def choose (le lt : α → α → Bool) (w : PartWish α) (parts : List (Part α)) : Option (Part α) :=
  let fitting := parts.filter (w.accepts le)
  (cheapest? lt fitting).or fitting.head?

end PartWish

end Boardwright
