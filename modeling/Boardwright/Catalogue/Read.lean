import Boardwright.Catalogue.Part
import Boardwright.Catalogue.Stock
import Boardwright.Number.Text
import Boardwright.Text.Digit
import Boardwright.Text.Split

/-!
# Reading the catalogue

A number of the catalogue is read quickly rather than exactly: its digits are added up
in a double, seventeen at most, and the result is multiplied or divided once by a power
of ten.
-/

namespace Boardwright.Catalogue

/-- A number while its digits are read: the sum so far, how many digits it has, and the
power of ten that is still to come. -/
structure Tally where
  sum : Float := 0
  count : Nat := 0
  power : Int := 0

def digitLimit : Nat := 17

/-- A tally with one more digit, which stands after the point if `part`. A digit that no
longer counts makes the number longer before the point and nothing after it. -/
def Tally.push (part : Bool) (t : Tally) (c : Char) : Tally :=
  if t.count < digitLimit then
    ⟨t.sum * 10 + Float.ofNat (c.toNat - 48), t.count + 1, if part then t.power - 1 else t.power⟩
  else if part then t else { t with power := t.power + 1 }

def Tally.scaled (t : Tally) (power : Int) : Float :=
  let power := t.power + power
  if 0 < power then t.sum * Number.ofDecimal 1 power else t.sum / Number.ofDecimal 1 (-power)

/-- The digits at the start of a text, and what stands after them. -/
def tally (s : List Char) : Tally × List Char :=
  let whole := (s.takeWhile Char.isDigit).foldl (Tally.push false) {}
  match s.dropWhile Char.isDigit with
  | '.' :: rest =>
    ((rest.takeWhile Char.isDigit).foldl (Tally.push true) whole, rest.dropWhile Char.isDigit)
  | rest => (whole, rest)

/-- The number that a text writes, not below zero; an empty text writes none. -/
def number? (s : String) : Option Float :=
  if s.isEmpty then none
  else
    let (t, rest) := tally s.toList
    some (t.scaled ((Number.Literal.scanExponent rest).getD 0))

/-- What the parts of one rating have in common. -/
structure Rating where
  value : Option Float
  low : Option Float
  high : Option Float
  unit : String

def unitPower : String → Int
  | "MΩ" => 6
  | "KΩ" => 3
  | "uF" => -6
  | "nF" => -9
  | "pF" => -12
  | _ => 0

/-- A value with a tolerance. Its bounds have been written out in ohms or farads and are read
like every other number. -/
def Rating.within (percent : Nat) (unit value : String) : Rating :=
  let bound (percent : Nat) := (number? value).bind fun x =>
    number? (Number.text (x * Number.ofDecimal 1 (unitPower unit) * (Float.ofNat percent / 100)))
  ⟨number? value, bound (100 - percent), bound (100 + percent), unit⟩

def ratings : List Rating :=
  ((Text.split "\n" tolerances).flatMap fun line =>
    match Text.split "," line with
    | percent :: unit :: values =>
      values.map (Rating.within (Number.digitsValue percent.toList) unit)
    | _ => []) ++
  (Text.split "\n" bounds).filterMap fun line =>
    match Text.split "," line with
    | [value, low, high, unit] => some ⟨number? value, number? low, number? high, unit⟩
    | _ => none

/-- The number that digits to the base 82 write, which are the characters from `(` to `z`
but for the backslash. -/
def packed (s : List Char) : Nat :=
  s.foldl (fun n c => 82 * n + (c.toNat - if c < '\\' then 40 else 41)) 0

def pieces (n : Nat) (table : String) : List (List Char) :=
  let digits := (table.toList.filter (· != '\n')).toArray
  (List.range (digits.size / n)).map fun i => (digits.extract (n * i) (n * i + n)).toList

/-- The part that a number of the stock describes. A part is a capacitor if its value is in
farads, and a resistor otherwise. -/
def part? (n : Nat) (price : Option Float) : Option (Part Float) :=
  let (n, package) := (n / packages.length, n % packages.length)
  match ratings[n % ratings.length]?, packages[package]? with
  | some rating, some package =>
    let kind := if Text.endsWith "F" rating.unit then PartKind.capacitor else .resistor
    some ⟨"C" ++ (n / ratings.length).repr, rating.value, kind.label, rating.low, rating.high,
      package, price, rating.unit⟩
  | _, _ => none

def parts : List (Part Float) :=
  let prices := (pieces 2 prices).map fun piece =>
    Tally.scaled { sum := Float.ofNat (packed piece) } (-4)
  (pieces 5 stock).zipIdx.filterMap fun (piece, i) => part? (packed piece) prices[i]?

end Boardwright.Catalogue
