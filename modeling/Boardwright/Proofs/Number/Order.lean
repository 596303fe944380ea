import Mathlib.Data.Prod.Lex
import Mathlib.Order.Compare

/-!
# The order of numbers

All numbers but the one that is none can be put in a row: the negative ones, zero, which is one place
for both zeros, and the positive ones, with the infinite ones at the ends. A number is less than
another one if its `place` in this row is, and at most the other one if its place is: `lt_iff_place`,
`le_iff_place`.
-/

namespace Boardwright.Number

open Float.Model (UnpackedFloat)

theorem compare_natCast (m n : ℕ) : compare (m : ℤ) n = compare m n := by
  rcases Nat.lt_trichotomy m n with h | rfl | h
  · rw [compare_lt_iff_lt.2 h, compare_lt_iff_lt.2 (Int.ofNat_lt.2 h)]
  · rw [compare_eq_iff_eq.2 rfl, compare_eq_iff_eq.2 rfl]
  · rw [compare_gt_iff_gt.2 h, compare_gt_iff_gt.2 (Int.ofNat_lt.2 h)]

theorem compare_neg_neg (a b : ℤ) : compare (-a) (-b) = (compare a b).swap := by
  rcases Int.lt_trichotomy a b with h | rfl | h
  · rw [compare_lt_iff_lt.2 h, compare_gt_iff_gt.2 (Int.neg_lt_neg h)]
    rfl
  · rw [compare_eq_iff_eq.2 rfl, compare_eq_iff_eq.2 rfl]
    rfl
  · rw [compare_gt_iff_gt.2 h, compare_lt_iff_lt.2 (Int.neg_lt_neg h)]
    rfl

theorem compare_toLex (a b c d : ℤ) (s t : ℤ) :
    compare (toLex (s, toLex (a, b))) (toLex (t, toLex (c, d))) =
      (compare s t).then ((compare a c).then (compare b d)) := rfl

/-- The place of a number in the row of all numbers: first by its sign, where the infinite ones are
further out, then by its exponent, then by its mantissa. -/
def placeOf : UnpackedFloat → ℤ ×ₗ ℤ ×ₗ ℤ
  | .infinity .negative => toLex (-2, toLex (0, 0))
  | .finite .negative m e _ => toLex (-1, toLex (-e, -m))
  | .zero _ | .notANumber => toLex (0, toLex (0, 0))
  | .finite .positive m e _ => toLex (1, toLex (e, m))
  | .infinity .positive => toLex (2, toLex (0, 0))

theorem compare_eq_placeOf {x y : UnpackedFloat} (hx : x.isNaN = false) (hy : y.isNaN = false) :
    x.compare y = some (compare (placeOf x) (placeOf y)) := by
  cases y with
  | notANumber => cases hy
  | zero t =>
    rcases x with (_ | _) | _ | _ | ⟨_ | _, m, e, hm⟩
    case notANumber => cases hx
    all_goals rfl
  | infinity t =>
    cases t <;> rcases x with (_ | _) | _ | _ | ⟨_ | _, m, e, hm⟩
    case negative.notANumber | positive.notANumber => cases hx
    all_goals rfl
  | finite t n d hn =>
    cases t <;> rcases x with (_ | _) | _ | _ | ⟨_ | _, m, e, hm⟩
    case negative.notANumber | positive.notANumber => cases hx
    -- only for two numbers of one sign do the exponent and the mantissa count
    case negative.finite.negative =>
      show some _ = some (compare (toLex (-1, toLex (-e, -(m : ℤ))))
        (toLex (-1, toLex (-d, -(n : ℤ)))))
      rw [compare_toLex, compare_neg_neg e, compare_neg_neg m, compare_natCast,
        ← Ordering.swap_then]
      rfl
    case positive.finite.positive =>
      show some _ = some (compare (toLex (1, toLex (e, (m : ℤ)))) (toLex (1, toLex (d, (n : ℤ)))))
      rw [compare_toLex, compare_natCast]
      rfl
    all_goals rfl

def place (x : Float) : ℤ ×ₗ ℤ ×ₗ ℤ := placeOf x.toModel.unpack

variable {x y : Float}

theorem compare_eq_place (hx : x.isNaN = false) (hy : y.isNaN = false) :
    x.toModel.compare y.toModel = some (compare (place x) (place y)) :=
  compare_eq_placeOf hx hy

theorem lt_iff_place (hx : x.isNaN = false) (hy : y.isNaN = false) :
    x < y ↔ place x < place y := by
  have hlt : x < y ↔ x.toModel.compare y.toModel = some .lt := by
    show decide (x.toModel < y.toModel) = true ↔ _
    rw [decide_eq_true_iff]
    exact beq_iff_eq
  rw [hlt, compare_eq_place hx hy, Option.some.injEq, compare_lt_iff_lt]

theorem le_iff_place (hx : x.isNaN = false) (hy : y.isNaN = false) :
    x ≤ y ↔ place x ≤ place y := by
  have hle : x ≤ y ↔ (x.toModel.compare y.toModel).any (·.isLE) = true := by
    show decide (x.toModel ≤ y.toModel) = true ↔ _
    rw [decide_eq_true_iff]
    rfl
  rw [hle, compare_eq_place hx hy, Option.any_some, ← Ordering.ne_gt_iff_isLE]
  exact compare_le_iff_le

end Boardwright.Number
