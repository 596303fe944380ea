import Boardwright.Number.Text
import Boardwright.Quantity.Unit

/-!
# Quantities

A quantity is an interval of numbers with a unit. It is written in one of four ways,
the forms of `Spread`: a number by itself, a number with a tolerance that is a part of
it, a number with a tolerance of its own size, and the two ends. The arithmetic is the
same over any numbers that can be added, subtracted, multiplied and divided.
-/

namespace Boardwright

/-- The numbers of a quantity as they are written, all in one unit. -/
inductive Spread (α : Type)
  | exact (value : α)
  | relative (nominal tolerance whole : α)
  | absolute (nominal tolerance : α)
  | ends (low high : α)
  deriving Repr

/-- An interval of numbers with a unit. -/
structure Quantity (α : Type) where
  unit : MeasureUnit
  low : α
  high : α

section Arithmetic

variable {α : Type} [Add α] [Sub α] [Mul α] [Div α]

/-- The quantity of a spread: a tolerance is taken off below and put on above, and
ends are taken as they are. -/
def Spread.quantity [OfNat α 1] (unit : MeasureUnit) : Spread α → Quantity α
  | exact value => ⟨unit, value, value⟩
  | relative nominal tolerance whole =>
    ⟨unit, nominal * (1 - tolerance / whole), nominal * (1 + tolerance / whole)⟩
  | absolute nominal tolerance => ⟨unit, nominal - tolerance, nominal + tolerance⟩
  | ends low high => ⟨unit, low, high⟩

namespace Quantity

/-- The middle of the interval. -/
def nominal [OfNat α 2] (q : Quantity α) : α := (q.low + q.high) / 2

/-- Half the width of the interval. -/
def tolerance [OfNat α 2] (q : Quantity α) : α := (q.high - q.low) / 2

/-- The tolerance in hundredths of the middle. -/
def percent [OfNat α 2] [OfNat α 100] (q : Quantity α) : α := q.tolerance / q.nominal * 100

end Quantity

end Arithmetic

namespace Quantity

def text (q : Quantity Float) : String :=
  Number.text q.nominal ++ " +/- " ++ Number.text q.tolerance ++ " " ++ q.unit.name

def inline (q : Quantity Float) : String :=
  "<Physical " ++ Number.text q.low ++ " to " ++ Number.text q.high ++ " " ++ q.unit.name ++ ">"

/-- The tolerance in hundredths of the middle, which must not be zero. -/
def percent? (q : Quantity Float) : Option Float :=
  if q.nominal == 0 then none else some q.percent

end Quantity

/-- What an attribute can be: a text or a quantity. -/
inductive Value
  | text (s : String)
  | quantity (q : Quantity Float)

instance : Inhabited Value := ⟨.text ""⟩

def Value.show_ : Value → String
  | .text s => s
  | .quantity q => q.text

end Boardwright
