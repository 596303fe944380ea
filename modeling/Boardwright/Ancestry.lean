import Boardwright.Table

/-!
# Walking and common ancestors

`postorder` and `levels` list what can be reached from a start, children before
their parents or level by level. Both are bounded: a walk that goes deeper than its
bound is endless for all that can be told, and has no answer.

`closestCommon` finds, for chains of ancestors, the first item of the first chain
that every chain meets: each chain's first item that the first chain has is looked
up, and the one furthest along the first chain is taken.
-/

namespace Boardwright

/-- What is reached from a start by following children, each after its own children.
Nothing is answered if the walk goes deeper than `depth`. -/
def postorder {α : Type} (children : α → List α) : Nat → α → Option (List α)
  | 0, _ => none
  | depth + 1, x => do
    let below ← (children x).mapM (postorder children depth)
    pure (below.flatten ++ [x])

def levels {α : Type} (children : α → List α) : Nat → List α → List α
  | 0, _ => []
  | _, [] => []
  | depth + 1, level => level ++ levels children depth (level.flatMap children)

/-- A start and what follows it, one after another. Nothing is answered if there are
more than `depth`. -/
def chain {α : Type} (next : α → Option α) : Nat → α → Option (List α)
  | 0, _ => none
  | depth + 1, x =>
    match next x with
    | none => some [x]
    | some y => (chain next depth y).map (x :: ·)

namespace Ancestry

/-- Why chains have no closest common item. -/
inductive Fault
  | noChains
  | emptyChain
  | nothingShared
  deriving Repr, DecidableEq

def Fault.message : Fault → String
  | .noChains => "No things given."
  | .emptyChain => ""
  | .nothingShared => "No common item found."

variable {α κ : Type} [BEq κ]

def places (key : α → κ) (xs : List α) : Table κ Nat :=
  Table.ofList ((xs.map key).zipIdx)

/-- The end of the first chain is looked up as soon as it is reached, unless it is to be
validated. The search goes on in either case. -/
def reached (validate : Bool) (xs : List α) (first : Table κ Nat) (i : Nat) : Except Fault Unit :=
  if validate || i + 1 ≠ first.size || i < xs.length then .ok () else .error .emptyChain

/-- The furthest place on the first chain that the other chains meet it at. -/
def furthest (key : α → κ) (validate : Bool) (xs : List α) (first : Table κ Nat) :
    List (List α) → Nat → Except Fault Nat
  | [], i => .ok i
  | ys :: rest, i =>
    match ys.findSome? fun y => first.get? (key y) with
    | none => .error .nothingShared
    | some j =>
      if i < j then do
        reached validate xs first j
        furthest key validate xs first rest j
      else furthest key validate xs first rest i

def closestCommon (key : α → κ) (validate : Bool) : List (List α) → Except Fault α
  | [] => .error .noChains
  | xs :: rest => do
    let first := places key xs
    reached validate xs first 0
    match xs[← furthest key validate xs first rest 0]? with
    | some x => pure x
    | none => throw .emptyChain

end Ancestry

end Boardwright
