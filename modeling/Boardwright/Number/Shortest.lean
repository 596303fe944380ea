/-!
# The shortest decimal of a binary number

A finite binary number is `m · 2 ^ q`. Every real that lies nearer to it than to
its neighbours reads back as it, and so do the two midpoints if `m` is even. Of the
decimals in that interval the one with the fewest digits is taken, and of two with
equally many the nearer one. On each decimal grid only the two points next to the
number need to be looked at: if any point of the grid lies in the interval, one of
these does.
-/

namespace Boardwright.Number

/-- A positive finite binary number `mantissa · 2 ^ exponent`. Below a power of two
the next number is only half as far away. -/
structure Binary where
  mantissa : Nat
  exponent : Int
  narrowBelow : Bool
  deriving Repr, DecidableEq

/-- A decimal `digits · 10 ^ exponent`. -/
structure Decimal where
  digits : Nat
  exponent : Int
  deriving Repr, DecidableEq, Inhabited

namespace Decimal

/-- The same decimal with the zeros at its end moved into the exponent. -/
def normalWithin : Nat → Decimal → Decimal
  | 0, d => d
  | fuel + 1, d =>
    if d.digits ≠ 0 && d.digits % 10 = 0 then normalWithin fuel ⟨d.digits / 10, d.exponent + 1⟩
    else d

def normal (d : Decimal) : Decimal := normalWithin 20 d

end Decimal

namespace Binary

/-- `a · 2 ^ e` over a common denominator. -/
def ratio (a : Nat) (e : Int) : Nat × Nat :=
  if e < 0 then (a, Nat.pow 2 (-e).toNat) else (a * Nat.pow 2 e.toNat, 1)

/-- `d · 10 ^ e` over a common denominator. -/
def decimalRatio (d : Nat) (e : Int) : Nat × Nat :=
  if e < 0 then (d, Nat.pow 10 (-e).toNat) else (d * Nat.pow 10 e.toNat, 1)

def reads (b : Binary) (d : Nat) (e : Int) : Bool :=
  let (n, m) := decimalRatio d e
  let (lo, s) := ratio (4 * b.mantissa - if b.narrowBelow then 1 else 2) (b.exponent - 2)
  let (hi, t) := ratio (4 * b.mantissa + 2) (b.exponent - 2)
  if b.mantissa % 2 = 0 then lo * m ≤ n * s && n * t ≤ hi * m
  else lo * m < n * s && n * t < hi * m

/-- The power of ten of the first digit. -/
def magnitude (b : Binary) : Int :=
  let (n, m) := ratio b.mantissa b.exponent
  ((n * Nat.pow 10 400 / m).repr.length : Int) - 401

/-- The decimal with `n + 1` digits that reads back as `b`, if there is one. -/
def onGrid? (b : Binary) (k : Int) (n : Nat) : Option Decimal :=
  let e := k - n
  let (v, w) := ratio b.mantissa b.exponent
  let (g, h) := decimalRatio 1 e
  let below := v * h / (w * g)
  let rest := v * h % (w * g)
  match b.reads below e, b.reads (below + 1) e with
  | true, true =>
    if 2 * rest < w * g || (2 * rest = w * g && below % 2 = 0) then some ⟨below, e⟩
    else some ⟨below + 1, e⟩
  | true, false => some ⟨below, e⟩
  | false, true => some ⟨below + 1, e⟩
  | false, false => none

/-- The shortest decimal that reads back as `b`. Seventeen digits always do. -/
def shortest (b : Binary) : Decimal :=
  let k := b.magnitude
  (((List.range 17).findSome? (b.onGrid? k)).getD ⟨b.mantissa, b.exponent⟩).normal

end Binary

end Boardwright.Number
