import Boardwright.Design.Query

/-!
# Designators

Each component below a root has a designator: a word of its own choice, `U` if it makes
none, and the least number from one up with which the word is still free. The
components take their turn in the order in which they are met, each after what is below
it.
-/

namespace Boardwright

namespace Designator

/-- The first number from `n` on with which a word is free. Among any `fuel` numbers one
is free if fewer designators are used. -/
def freeFrom (word : String) (used : List String) : Nat → Nat → Nat
  | 0, n => n
  | fuel + 1, n => if used.contains (word ++ toString n) then freeFrom word used fuel (n + 1) else n

def free (word : String) (used : List String) : String :=
  word ++ toString (freeFrom word used used.length 1)

def assign {κ : Type} : List String → List (κ × String) → List (κ × String)
  | _, [] => []
  | used, (k, word) :: more =>
    let d := free word used
    (k, d) :: assign (d :: used) more

end Designator

namespace Component

def below (root : Address) : Work Library (List Address) := do
  (← Library.descendants root).filterM (Library.isAny [.component])

def word (a : Address) : Work Library String := do
  return (((← Library.dataOf a).get? "designator_prefix").map Value.show_).getD "U"

def designators (root : Address) : Work Library (Table Address String) := do
  let named ← (← below root).mapM fun a => do return (a, ← word a)
  return ⟨Designator.assign [] named⟩

end Component

end Boardwright
