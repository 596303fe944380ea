import Boardwright.Version.Spec

/-!
# The order of versions

The order of two versions is turned around when they change places: `order_swap`. A released
version, which has no prerelease, comes before another version only if its three numbers do, so the
ranges that `^` and `~` stand for can be told from the numbers: `Released.caret_iff` and
`Released.tilde_iff`.
-/

open Ordering

namespace Boardwright.Version

/-! ### Changing places -/

theorem compareChars_swap (s t : List Char) : (compareChars s t).swap = compareChars t s := by
  induction s generalizing t with
  | nil => cases t <;> rfl
  | cons c s ih =>
    cases t with
    | nil => rfl
    | cons d t => rw [compareChars, compareChars, swap_then, Nat.compare_swap, ih]

theorem comparePart_swap (s t : List Char) : (comparePart s t).swap = comparePart t s := by
  unfold comparePart
  cases isNumeral s <;> cases isNumeral t <;> simp [Nat.compare_swap, compareChars_swap]

theorem compareParts_swap (ss ts : List (List Char)) :
    (compareParts ss ts).swap = compareParts ts ss := by
  induction ss generalizing ts with
  | nil => cases ts <;> rfl
  | cons s ss ih =>
    cases ts with
    | nil => rfl
    | cons t ts => rw [compareParts, compareParts, swap_then, comparePart_swap, ih]

theorem comparePrerelease_swap (p q : String) :
    (comparePrerelease p q).swap = comparePrerelease q p := by
  rw [comparePrerelease, comparePrerelease, swap_then, compareParts_swap,
    Nat.compare_swap]

def orderNumbers (v w : Version) : Ordering :=
  ((compare v.major w.major).then (compare v.minor w.minor)).then (compare v.patch w.patch)

/-- The order of two prereleases, a missing one being the empty text that comes last. -/
def orderPrerelease (p q : String) : Ordering :=
  match comparePrerelease p q with
  | .eq => .eq
  | o => if p.isEmpty then .gt else if q.isEmpty then .lt else o

theorem order_eq (v w : Version) :
    v.order w = (v.orderNumbers w).then
      (orderPrerelease (v.prerelease.getD "") (w.prerelease.getD "")) := rfl

theorem orderNumbers_swap (v w : Version) : (v.orderNumbers w).swap = w.orderNumbers v := by
  simp only [orderNumbers, swap_then, Nat.compare_swap]

theorem orderPrerelease_swap (p q : String) :
    (orderPrerelease p q).swap = orderPrerelease q p := by
  unfold orderPrerelease
  rw [← comparePrerelease_swap p q]
  by_cases hp : p.isEmpty <;> by_cases hq : q.isEmpty
  · rw [String.isEmpty_iff] at hp hq
    subst hp hq
    rfl
  all_goals cases comparePrerelease p q <;> simp [hp, hq]

theorem order_swap (v w : Version) : (v.order w).swap = w.order v := by
  rw [order_eq, order_eq, swap_then, orderNumbers_swap, orderPrerelease_swap]

theorem order_eq_gt_iff {v w : Version} : v.order w = .gt ↔ w.order v = .lt := by
  rw [← order_swap v w, swap_eq_lt]

/-! ### Released versions -/

def Released (v : Version) : Prop := v.prerelease.getD "" = ""

theorem orderPrerelease_released (q : String) : orderPrerelease "" q ≠ .lt := by
  unfold orderPrerelease
  split <;> simp

variable {v x : Version}

theorem Released.order_eq_lt_iff (hv : v.Released) (x : Version) :
    v.order x = .lt ↔ v.orderNumbers x = .lt := by
  rw [order_eq, hv, then_eq_lt]
  simp [orderPrerelease_released]

theorem orderNumbers_eq_lt_iff {v x : Version} :
    v.orderNumbers x = .lt ↔ v.major < x.major ∨ v.major = x.major ∧ (v.minor < x.minor ∨
      v.minor = x.minor ∧ v.patch < x.patch) := by
  simp only [orderNumbers, then_eq_lt, then_eq_eq, Nat.compare_eq_lt,
    Nat.compare_eq_eq]
  omega

/-- A released version is in the range of `^x` if it does not come before `x` and has the same
major number. -/
theorem Released.caret_iff (hv : v.Released) :
    v.order x ≠ .lt ∧ v.order x.bumpMajor = .lt ↔ v.order x ≠ .lt ∧ x.major = v.major := by
  simp only [ne_eq, hv.order_eq_lt_iff, orderNumbers_eq_lt_iff, bumpMajor]
  omega

/-- A released version is in the range of `~x` if it does not come before `x` and has the same
major and minor numbers. -/
theorem Released.tilde_iff (hv : v.Released) :
    v.order x ≠ .lt ∧ v.order x.bumpMinor = .lt ↔
      v.order x ≠ .lt ∧ x.major = v.major ∧ x.minor = v.minor := by
  simp only [ne_eq, hv.order_eq_lt_iff, orderNumbers_eq_lt_iff, bumpMinor]
  omega

end Boardwright.Version
