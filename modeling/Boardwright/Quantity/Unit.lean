import Boardwright.Text.Split

/-!
# Units of measurement

A unit is fundamental, or it is a number times powers of other units, or it counts
from another zero than the unit it is made of. A dimension is the list of the powers
of the fundamental ones; powers are counted in halves, since a unit of magnetism
needs them.

Two units of one dimension differ by a factor. It is the product of the numbers met
when both are taken apart, the first with power one and the second with power minus
one, each number being multiplied in when it is met.
-/

namespace Boardwright

/-- The powers of the fundamental dimensions, in halves. -/
structure Dimension where
  length : Int := 0
  mass : Int := 0
  time : Int := 0
  current : Int := 0
  temperature : Int := 0
  substance : Int := 0
  deriving Repr, DecidableEq

namespace Dimension

def mul (a b : Dimension) : Dimension :=
  ⟨a.length + b.length, a.mass + b.mass, a.time + b.time, a.current + b.current,
    a.temperature + b.temperature, a.substance + b.substance⟩

def pow (a : Dimension) (halves : Int) : Dimension :=
  let f := fun n => n * halves / 2
  ⟨f a.length, f a.mass, f a.time, f a.current, f a.temperature, f a.substance⟩

end Dimension

/-- A unit of measurement under its full name. The powers of its parts are counted
in halves. -/
inductive MeasureUnit
  | fundamental (name : String) (dimension : Dimension)
  | derived (name : String) (scale : Float) (parts : List (MeasureUnit × Int))
  | shifted (name : String) (scale zero : Float) (base : MeasureUnit)

namespace MeasureUnit

def name : MeasureUnit → String
  | fundamental name _ => name
  | derived name _ _ => name
  | shifted name _ _ _ => name

instance : BEq MeasureUnit := ⟨fun u v => u.name == v.name⟩

mutual

def dimension : MeasureUnit → Dimension
  | fundamental _ d => d
  | derived _ _ parts => dimensionOf parts
  | shifted _ _ _ base => base.dimension

def dimensionOf : List (MeasureUnit × Int) → Dimension
  | [] => {}
  | (u, power) :: parts => (u.dimension.pow power).mul (dimensionOf parts)

end

mutual

def factorFrom (acc : Float) (power : Int) : MeasureUnit → Float
  | fundamental _ _ => acc
  | derived _ scale parts =>
    factorOf (acc * Float.pow scale (Float.ofInt power / 2)) power parts
  | shifted _ scale _ base => factorFrom (acc * Float.pow scale (Float.ofInt power / 2)) power base

/-- The product `acc` with the numbers of a product of powers multiplied in. -/
def factorOf (acc : Float) (power : Int) : List (MeasureUnit × Int) → Float
  | [] => acc
  | (u, p) :: parts => factorOf (factorFrom acc (power * p / 2) u) power parts

end

def factor (u v : MeasureUnit) : Float := factorFrom (factorFrom 1 2 u) (-2) v

/-- Why a value cannot be given in another unit: its unit counts from another zero,
or the units are of different dimensions. -/
inductive ConversionFault
  | shifted
  | incompatible
  deriving Repr, DecidableEq

/-- Where a unit counts from, if not from zero: the scale, the zero and the unit that
it is made of. -/
def shift? : MeasureUnit → Option (Float × Float × MeasureUnit)
  | shifted _ scale zero base => some (scale, zero, base)
  | _ => none

/-- A value of the unit `u` given in the unit `v`. A unit with another zero cannot be
multiplied by a number, so of it there is only the value one. -/
def convert (u v : MeasureUnit) (x : Float) : Except ConversionFault Float :=
  if u.shift?.isSome && x != 1 then .error .shifted
  else if u == v then .ok x
  else if u.dimension ≠ v.dimension then .error .incompatible
  else
    let (x, u) := match u.shift? with
      | some (scale, zero, base) => (x * scale + zero, base)
      | none => (x, u)
    match v.shift? with
    | some (scale, zero, base) =>
      .ok (((if u == base then x else x * u.factor base) - zero) / scale)
    | none => .ok (if u == v then x else x * u.factor v)

/-! ### The units that have a name -/

def one : MeasureUnit := .derived "dimensionless" 1 []

def times (name : String) (scale : Float) (u : MeasureUnit) : MeasureUnit :=
  .derived name scale [(u, 2)]

/-- A unit that is a product of whole powers of others. -/
def product (name : String) (parts : List (MeasureUnit × Int)) : MeasureUnit :=
  .derived name 1 (parts.map fun (u, p) => (u, 2 * p))

def meter : MeasureUnit := .fundamental "meter" { length := 2 }

def gram : MeasureUnit := .fundamental "gram" { mass := 2 }

def second : MeasureUnit := .fundamental "second" { time := 2 }

def ampere : MeasureUnit := .fundamental "ampere" { current := 2 }

def kelvin : MeasureUnit := .fundamental "kelvin" { temperature := 2 }

def mole : MeasureUnit := .fundamental "mole" { substance := 2 }

def radian : MeasureUnit := .fundamental "radian" {}

def bit : MeasureUnit := .fundamental "bit" {}

/-- A hundredth of a meter. -/
def centimeter : MeasureUnit := times "centimeter" 1e-2 meter

/-- A thousand grams. -/
def kilogram : MeasureUnit := times "kilogram" 1e3 gram

/-- The unit that inches and feet are parts of. -/
def yard : MeasureUnit := times "yard" 0.9144 meter

/-- Sixty seconds. -/
def minute : MeasureUnit := times "minute" 60 second

/-- Sixty minutes. -/
def hour : MeasureUnit := times "hour" 60 minute

/-- Twenty-four hours. -/
def day : MeasureUnit := times "day" 24 hour

def newton : MeasureUnit := product "newton" [(kilogram, 1), (meter, 1), (second, -2)]

def joule : MeasureUnit := product "joule" [(newton, 1), (meter, 1)]

def watt : MeasureUnit := product "watt" [(joule, 1), (second, -1)]

def coulomb : MeasureUnit := product "coulomb" [(ampere, 1), (second, 1)]

def volt : MeasureUnit := product "volt" [(joule, 1), (coulomb, -1)]

def ohm : MeasureUnit := product "ohm" [(volt, 1), (ampere, -1)]

def weber : MeasureUnit := product "weber" [(volt, 1), (second, 1)]

def known : List (List String × MeasureUnit) :=
  [(["", "dimensionless"], one),
   (["m", "meter"], meter),
   (["g", "gram"], gram),
   (["s", "second"], second),
   (["A", "amp", "ampere"], ampere),
   (["K", "kelvin"], kelvin),
   (["mol", "mole"], mole),
   (["rad", "radian"], radian),
   (["bit"], bit),
   (["B", "byte"], times "byte" 8 bit),
   (["pi"], .derived "pi" 3.141592653589793 []),
   (["deg", "degree"], times "degree" 0.017453292519943295 radian),
   (["mil"], times "mil" 0.0009817477042468104 radian),
   (["dB", "decibel"], .derived "decibel" 1 []),
   (["dBm", "decibelmilliwatt"], times "decibelmilliwatt" 1e-3 watt),
   (["minute"], minute),
   (["h", "hour"], hour),
   (["d", "day"], day),
   (["a", "year"], times "year" 365.25 day),
   (["in", "inch"], times "inch" (1 / 36) yard),
   (["ft", "foot"], times "foot" (1 / 3) yard),
   (["yd", "yard"], yard),
   (["b", "barn"], .derived "barn" 1e-28 [(meter, 4)]),
   (["l", "L", "liter"], .derived "liter" 1e-3 [(meter, 6)]),
   (["t", "metric_ton"], times "metric_ton" 1e3 kilogram),
   (["u", "unified_atomic_mass_unit"],
      times "unified_atomic_mass_unit" 1.66053906660e-27 kilogram),
   (["N", "newton"], newton),
   (["J", "joule"], joule),
   (["W", "watt"], watt),
   (["VA", "volt_ampere"], product "volt_ampere" [(volt, 1), (ampere, 1)]),
   (["bar"], .derived "bar" 1e5 [(newton, 2), (meter, -4)]),
   (["Hz", "hertz"], product "hertz" [(second, -1)]),
   (["rpm", "revolutions_per_minute"],
      .derived "revolutions_per_minute" 6.283185307179586 [(radian, 2), (minute, -2)]),
   (["C", "coulomb"], coulomb),
   (["Ah", "ampere_hour"], product "ampere_hour" [(ampere, 1), (hour, 1)]),
   (["e", "elementary_charge"], times "elementary_charge" 1.602176634e-19 coulomb),
   (["V", "volt"], volt),
   (["Ω", "ohm"], ohm),
   (["S", "siemens"], product "siemens" [(ampere, 1), (volt, -1)]),
   (["F", "farad"], product "farad" [(coulomb, 1), (volt, -1)]),
   (["H", "henry"], product "henry" [(weber, 1), (ampere, -1)]),
   (["T", "tesla"], product "tesla" [(weber, 1), (meter, -2)]),
   (["G", "gauss"], .derived "gauss" 1 [(centimeter, -1), (gram, 1), (second, -2)]),
   (["M", "molar"], .derived "molar" 1e3 [(mole, 2), (meter, -6)]),
   (["c", "speed_of_light"], .derived "speed_of_light" 299792458 [(meter, 2), (second, -2)]),
   (["k", "boltzmann_constant"],
      .derived "boltzmann_constant" 1.380649e-23 [(joule, 2), (kelvin, -2)]),
   (["R", "molar_gas_constant"],
      .derived "molar_gas_constant" 8.31446261815324 [(joule, 2), (mole, -2), (kelvin, -2)]),
   (["degC", "degree_Celsius"], .shifted "degree_Celsius" 1 273.15 kelvin),
   (["degF", "degree_Fahrenheit"],
      .shifted "degree_Fahrenheit" (5 / 9) 255.3722222222222 kelvin)]

/-- What may stand before a unit: its spellings, its full name and its number. -/
def multiples : List (List String × String × Float) :=
  [(["p", "pico"], "pico", 1e-12), (["n", "nano"], "nano", 1e-9),
   (["u", "µ", "micro"], "micro", 1e-6), (["m", "milli"], "milli", 1e-3),
   (["c", "centi"], "centi", 1e-2), (["k", "kilo"], "kilo", 1e3),
   (["M", "mega"], "mega", 1e6), (["G", "giga"], "giga", 1e9)]

def exactly? (s : String) : Option MeasureUnit :=
  (known.find? fun (spellings, _) => spellings.contains s).map (·.2)

/-- The unit of a spelling with what may stand before it. -/
def multiple? (s : String) : Option MeasureUnit :=
  multiples.findSome? fun (spellings, name, scale) => spellings.findSome? fun before =>
    if Text.startsWith before s && before.length < s.length then
      (exactly? (Text.dropChars before.length s)).map fun u => times (name ++ u.name) scale u
    else none

/-- The spelling without an `s` at its end, if it is longer than one letter. -/
def singular? (s : String) : Option String :=
  if 2 < s.length && Text.endsWith "s" s then some (Text.takeChars (s.length - 1) s) else none

/-- The unit that a text names: a spelling, then a spelling with something before it,
then either in the plural. -/
def ofText? (s : String) : Option MeasureUnit :=
  let simple := fun s => (exactly? s).or (multiple? s)
  (simple s).or ((singular? s).bind simple)

end MeasureUnit

end Boardwright
