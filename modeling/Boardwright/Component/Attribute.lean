import Boardwright.Catalogue.Read
import Boardwright.Design.Query

/-!
# What a component says of itself

A component names its part, its value and its footprint by attributes. A component
whose part is generic stands for the part of the catalogue that fits its value and its
footprint.
-/

namespace Boardwright

/-- The name by which a component asks for a part of the catalogue. -/
def PartKind.generic : PartKind → String
  | .resistor => "generic_resistor"
  | .capacitor => "generic_capacitor"

def PartKind.unit : PartKind → MeasureUnit
  | .resistor => .ohm
  | .capacitor => .product "farad" [(.coulomb, 1), (.volt, -1)]

/-- The sort of parts that the name of a part asks for. -/
def PartKind.ofValue? : Value → Option PartKind
  | .text s => [PartKind.resistor, .capacitor].find? fun k => k.generic == s
  | .quantity _ => none

def packages : List (String × String) :=
  [("R01005", "01005"), ("R0201", "0201"), ("R0402", "0402"), ("R0603", "0603"),
   ("R0805", "0805"), ("C01005", "01005"), ("C0201", "0201"), ("C0402", "0402"),
   ("C0603", "0603"), ("C0805", "0805"), ("C1206", "1206")]

namespace PartWish

def conditions (w : PartWish Float) : List String :=
  ["type == '" ++ w.kind.label ++ "'", "min_value >= " ++ Number.text w.low,
   "max_value <= " ++ Number.text w.high, "Package == '" ++ w.package ++ "'"]

def unmet (w : PartWish Float) (a : Address) : Failure :=
  .report { kind := .noMatchingPart, address := some a.text,
            message := "No component matching spec for $addr \n" ++ Text.join "\n & " w.conditions }

end PartWish

namespace Component

/-- A report that a component lacks an attribute. -/
def missing (a : Address) (title message : String) : Failure :=
  .report { kind := .missingData, message, title := some title, address := some a.text }

def namedPart (a : Address) : Work Library Value := do
  match (← Library.dataOf a).get? "mpn" with
  | some v => return v
  | none => throw (missing a "No MPN" "$addr has no MPN")

/-- An end of the range of values of a component, in the unit of its sort. -/
def inUnit (a : Address) (kind : PartKind) (q : Quantity Float) (x : Float) :
    Except Failure Float :=
  match q.unit.convert kind.unit x with
  | .ok y => .ok y
  | .error .shifted => .error (.fault .offsetUnit)
  | .error .incompatible => .error (.report {
      kind := .wrongType, title := some "Invalid unit", address := some a.text
      message := q.unit.name ++ " cannot be converted to " ++ kind.unit.name ++ " for $addr" })

def packageOf (a : Address) : Option Value → Except Failure String
  | none => .error (.fault .missingKey)
  | some (.quantity _) => .error (.fault .wrongType)
  | some (.text footprint) =>
    match packages.lookup footprint with
    | some p => .ok p
    | none => .error (.report {
        kind := .unknownName, address := some a.text
        message := "Can't find generic part that matches'" ++ footprint ++
          "' for $addr. Change the part's mpn or footprint." })

def wish (a : Address) (kind : PartKind) (i : Instance) : Except Failure (PartWish Float) :=
  match i.get? "value" with
  | none => .error (.fault .missingKey)
  | some (.text _) => .error (.report {
      kind := .wrongType, address := some a.text
      message := "Value must be a Physical, not <class 'str'> for $addr" })
  | some (.quantity q) => do
    let low ← inUnit a kind q q.low
    let high ← inUnit a kind q q.high
    return ⟨kind, low, high, ← packageOf a (i.get? "footprint")⟩

def genericOf (parts : List (Part Float)) (a : Address) (kind : PartKind) :
    Work Library (Part Float) := do
  let w ← Work.ofExcept (wish a kind (← Library.dataOf a))
  match w.choose (fun x y => x ≤ y) (fun x y => x < y) parts with
  | some p => return p
  | none => throw (w.unmet a)

/-- The catalogue cannot be asked for a range with an end that is no number. -/
def generic (a : Address) (kind : PartKind) : Work Library (Part Float) := do
  let w ← Work.ofExcept (wish a kind (← Library.dataOf a))
  if w.low.isNaN || w.high.isNaN then throw (.fault .undefined)
  else genericOf Catalogue.parts a kind

def part (a : Address) : Work Library Value := do
  let named ← namedPart a
  match PartKind.ofValue? named with
  | some kind => return .text (← generic a kind).code
  | none => return named

def shownValue (v : Option Value) : String := (v.map Value.show_).getD ""

def wishedValue (a : Address) : Work Library String := do
  let i ← Library.dataOf a
  match PartKind.ofValue? (← namedPart a), i.get? "value" with
  | some _, none => throw (missing a "No value" "$addr has no value spec'd")
  | _, v => return shownValue v

def value (a : Address) : Work Library String := do
  match PartKind.ofValue? (← namedPart a) with
  | some kind =>
    let p ← generic a kind
    return ((p.value.map Number.text).getD "nan") ++ " " ++ p.unit
  | none => return shownValue ((← Library.dataOf a).get? "value")

def footprint (a : Address) : Work Library Value := do
  match (← Library.dataOf a).get? "footprint" with
  | some v => return v
  | none => throw (missing a "No Footprint" "$addr has no footprint")

end Component

end Boardwright
