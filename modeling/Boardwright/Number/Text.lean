import Boardwright.Number.Shortest

/-!
# Numbers as text

`Number.text` writes a double with the fewest digits that read back, positionally
from `0.0001` up to `10 ^ 16` and with an exponent of at least two digits otherwise;
a point or an exponent is always there. `Number.ofDecimal` reads digits, a point and
an exponent to the nearest double. `Literal.scan` takes a literal apart; a literal
in another base or with an imaginary mark is no decimal.
-/

namespace Boardwright.Number

/-- A decimal literal: its digits, the number of them after the point, and its
exponent. -/
structure Literal where
  digits : Nat
  places : Nat
  exponent : Int
  deriving Repr, DecidableEq

def digitsValue (cs : List Char) : Nat := cs.foldl (fun n c => n * 10 + (c.toNat - 48)) 0

def Literal.scanExponent : List Char → Option Int
  | [] => some 0
  | e :: cs =>
    if e ≠ 'e' && e ≠ 'E' then none
    else
      let (negative, ds) := match cs with
        | '-' :: ds => (true, ds)
        | '+' :: ds => (false, ds)
        | ds => (false, ds)
      if ds.isEmpty || !ds.all Char.isDigit then none
      else
        let n : Int := digitsValue ds
        some (if negative then -n else n)

/-- A decimal literal taken apart. -/
def Literal.scan (s : List Char) : Option Literal :=
  let whole := s.takeWhile Char.isDigit
  if whole.isEmpty then none
  else match s.dropWhile Char.isDigit with
    | '.' :: rest =>
      let part := rest.takeWhile Char.isDigit
      (scanExponent (rest.dropWhile Char.isDigit)).map fun e =>
        ⟨digitsValue (whole ++ part), part.length, e⟩
    | rest => (scanExponent rest).map fun e => ⟨digitsValue whole, 0, e⟩

/-- The double nearest to `digits · 10 ^ exponent`. Beyond what a double can hold
the digits no longer matter. -/
def ofDecimal (digits : Nat) (exponent : Int) : Float :=
  if digits = 0 then 0.0
  else
    let top := exponent + digits.repr.length
    if top > 400 then 1.0 / 0.0
    else if top < -400 then 0.0
    else if exponent < 0 then Float.ofScientific digits true (-exponent).toNat
    else Float.ofScientific digits false exponent.toNat

def Literal.toFloat (l : Literal) : Float := ofDecimal l.digits (l.exponent - l.places)

/-- The size of a double taken apart, if it is finite and not zero. -/
def binary? (x : Float) : Option Binary :=
  let bits := x.toBits.toNat
  let fraction : Nat := bits % Nat.pow 2 52
  let scale : Nat := bits / Nat.pow 2 52 % Nat.pow 2 11
  if scale = 2047 || (scale = 0 && fraction = 0) then none
  else if scale = 0 then some ⟨fraction, -1074, false⟩
  else some ⟨fraction + Nat.pow 2 52, (scale : Int) - 1075, fraction = 0 && scale ≠ 1⟩

def Binary.whole? (b : Binary) : Option Nat :=
  let scale : Nat := Nat.pow 2 b.exponent.natAbs
  if 0 ≤ b.exponent then some (b.mantissa * scale)
  else if b.mantissa % scale = 0 then some (b.mantissa / scale)
  else none

def whole? (x : Float) : Option Int :=
  if x == 0.0 then some 0
  else ((binary? x).bind Binary.whole?).map fun n => if x < 0.0 then -(n : Int) else n

/-- The digits of a decimal, positionally or with an exponent. -/
def Decimal.text (d : Decimal) : String :=
  let ds := d.digits.repr
  let lead : Int := d.exponent + ds.length - 1
  if -4 ≤ lead && lead < 16 then
    if 0 ≤ d.exponent then ds ++ String.ofList (List.replicate d.exponent.toNat '0') ++ ".0"
    else if 0 ≤ lead then
      let n := lead.toNat + 1
      String.ofList (ds.toList.take n) ++ "." ++ String.ofList (ds.toList.drop n)
    else "0." ++ String.ofList (List.replicate (-lead - 1).toNat '0') ++ ds
  else
    let mantissa := match ds.toList with
      | [] => ""
      | [c] => String.ofList [c]
      | c :: cs => String.ofList (c :: '.' :: cs)
    let e := lead.natAbs.repr
    mantissa ++ "e" ++ (if lead < 0 then "-" else "+") ++ (if e.length < 2 then "0" ++ e else e)

def text (x : Float) : String :=
  if x.isNaN then "nan"
  else
    let sign := if x.toBits.toNat / Nat.pow 2 63 = 1 then "-" else ""
    match binary? x with
    | some b => sign ++ b.shortest.text
    | none => sign ++ if x == 0.0 then "0.0" else "inf"

end Boardwright.Number
