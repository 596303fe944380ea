import Boardwright.Quantity.Basic
import Boardwright.Syntax.Statement

/-!
# Reading literals

The value that a literal of the source denotes. A quantity is read from left to right:
each number, then its unit. A tolerance in another unit than the nominal value, and an
end in another unit than the first one, are converted; units of different dimensions
are a report.

What reading asks of the numbers is in `Arithmetic`, so that the same reading serves
doubles and exact numbers.
-/

namespace Boardwright

/-- What reading a quantity asks of numbers: the number that a decimal writes, and a
value given in another unit. -/
structure Arithmetic (α : Type) where
  ofLiteral : Number.Literal → α
  convert : MeasureUnit → MeasureUnit → α → Except MeasureUnit.ConversionFault α

def Arithmetic.doubles : Arithmetic Float := ⟨Number.Literal.toFloat, MeasureUnit.convert⟩

namespace Syntax

def Token.number {α : Type} (ar : Arithmetic α) (t : Token) : Except Failure α :=
  match Number.Literal.scan t.text.toList with
  | some l => .ok (ar.ofLiteral l)
  | none => .error (.fault (.value ("could not convert string to float: '" ++ t.text ++ "'")))

def Token.unit (path : String) (t : Token) : Except Failure MeasureUnit :=
  match MeasureUnit.ofText? t.text with
  | some u => .ok u
  | none => .error (.report (.located .unknownUnit path t.pos ("Unknown unit '" ++ t.text ++ "'")))

def Measure.read {α : Type} (ar : Arithmetic α) (path : String) (m : Measure) :
    Except Failure (α × Option MeasureUnit) := do
  let value ← m.number.number ar
  return (value, ← m.unit.mapM (Token.unit path))

/-- A value given in another unit; a report at the token `t` if it cannot be. -/
def converted {α : Type} (ar : Arithmetic α) (path : String) (t : Token) (u v : MeasureUnit)
    (x : α) : Except Failure α :=
  match ar.convert u v x with
  | .ok y => .ok y
  | .error .shifted => .error (.fault .offsetUnit)
  | .error .incompatible => .error (.report (.located .wrongType path t.pos
      ("Tolerance unit '" ++ u.name ++ "' is not dimensionally compatible with nominal unit '" ++
        v.name ++ "'")))

namespace Physical

variable {α : Type} [OfNat α 1] [OfNat α 100] [OfNat α 1000000]

def spread (ar : Arithmetic α) (path : String) :
    Physical → Except Failure (Spread α × MeasureUnit)
  | .implicit m => do
    let (value, unit) ← m.read ar path
    return (.exact value, unit.getD .one)
  | .bilateral m _ tolerance => do
    let (nominal, unit) ← m.read ar path
    let unit := unit.getD .one
    let size ← tolerance.number.number ar
    match tolerance.unit with
    | none => return (.absolute nominal size, unit)
    | some t =>
      if t.kind == .percent then return (.relative nominal size 100, unit)
      else if t.text == "ppm" then return (.relative nominal size 1000000, unit)
      else
        let own ← t.unit path
        return (.absolute nominal (← converted ar path t own unit size), unit)
  | .bound m _ n => do
    let (low, first) ← m.read ar path
    let (high, second) ← n.read ar path
    match first, second with
    | none, none => return (.ends low high, .one)
    | some u, some v => return (.ends low (← converted ar path m.number v u high), u)
    | some u, none => return (.ends low high, u)
    | none, some v => return (.ends low high, v)

def read [Add α] [Sub α] [Mul α] [Div α] (ar : Arithmetic α) (path : String) (p : Physical) :
    Except Failure (Quantity α) := do
  let (s, unit) ← p.spread ar path
  return s.quantity unit

end Physical

/-- The text of a string without the marks around it: all marks at both ends go. -/
def Token.content (t : Token) : String :=
  String.ofList (Text.strip (fun c => c == '"' || c == '\'') t.text.toList)

def Assignable.read (path : String) : Assignable → Except Failure Value
  | .string t => .ok (.text t.content)
  | .physical p => (p.read .doubles path).map .quantity
  | .new _ _ => .error (.fault .assertion)

/-- The whole number of a token, without the zeros before it. -/
def Token.integer (path : String) (t : Token) : Except Failure String :=
  if t.text.toList.all Char.isDigit && !t.text.isEmpty then .ok (toString (Number.digitsValue t.text.toList))
  else .error (.report (.located .wrongType path t.pos ("Expected an integer, but got " ++ t.text)))

def PinLabel.read (path : String) : PinLabel → Except Failure String
  | .name t => .ok t.text
  | .number t => t.integer path

end Syntax

end Boardwright
