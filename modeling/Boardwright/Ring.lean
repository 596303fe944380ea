import Boardwright.Table

/-!
# Rings of joined things

Things that are joined to each other are kept in rings: each thing knows the one
before and the one after it, and joining two rings makes one ring of them. A thing
is known by its key. `Soup.groups` lists the rings, each from its earliest member, in
the order of these.

A ring is followed for at most as many steps as there are things, so `ringFrom`
ends in any case; that it comes back to where it began is what joining preserves.
-/

namespace Boardwright

/-- A thing with the keys of its neighbours. -/
structure Soup.Cell (κ α : Type) where
  value : α
  before : κ
  after : κ
  deriving Repr

/-- Things in rings, by key. -/
structure Soup (κ α : Type) where
  cells : Table κ (Soup.Cell κ α) := ⟨[]⟩
  deriving Repr

namespace Soup

variable {κ α : Type} [BEq κ]

/-- Why things cannot be added or joined. -/
inductive Fault
  | occupied
  | absent
  | broken
  deriving Repr, DecidableEq

def cell (s : Soup κ α) (k : κ) : Except Fault (Cell κ α) :=
  match s.cells.get? k with
  | some c => .ok c
  | none => .error .absent

/-- The things with `x` added in a ring of its own. -/
def add (s : Soup κ α) (k : κ) (x : α) : Except Fault (Soup κ α) :=
  if s.cells.contains k then .error .occupied else .ok ⟨s.cells.set k ⟨x, k, k⟩⟩

/-- The thing `k` followed by `n`. -/
def setAfter (s : Soup κ α) (k n : κ) : Soup κ α := ⟨s.cells.modify k fun c => { c with after := n }⟩

/-- The thing `k` preceded by `n`. -/
def setBefore (s : Soup κ α) (k n : κ) : Soup κ α :=
  ⟨s.cells.modify k fun c => { c with before := n }⟩

/-- The thing `n` made to follow `k`. -/
def link (s : Soup κ α) (k n : κ) : Soup κ α := (s.setAfter k n).setBefore n k

/-- The keys met when following the ring from `k` until `start` comes round, for at
most `fuel` steps. -/
def followed (s : Soup κ α) (start : κ) : Nat → κ → List κ
  | 0, _ => []
  | fuel + 1, k =>
    match s.cells.get? k with
    | none => []
    | some c => if c.after == start then [] else c.after :: followed s start fuel c.after

def ringFrom (s : Soup κ α) (k : κ) : List κ := k :: s.followed k s.cells.size k

/-- The things with the rings of `a` and `b` made one. A thing alone in its ring is
put after the other one; of two longer rings that are not the same, `b` is put after
`a` and the ring of `b` is cut before `b`. -/
def join (s : Soup κ α) (a b : κ) : Except Fault (Soup κ α) := do
  let ca ← s.cell a
  let cb ← s.cell b
  if a == b then return s
  if ca.after == a && cb.after == b then
    if ca.before == a && cb.before == b then return (s.link a b).link b a
    else throw .broken
  if ca.after == a then
    if ca.before == a then return (s.link b a).link a cb.after else throw .broken
  if cb.after == b then
    if cb.before == b then return (s.link a b).link b ca.after else throw .broken
  if (s.ringFrom a).contains b then return s
  return (s.link a b).link cb.before ca.after

def valuesOf (s : Soup κ α) (ks : List κ) : List α := ks.filterMap fun k => (s.cells.get? k).map (·.value)

/-- The things of the ring of `k`, if there are fewer than `limit` after the first one;
a ring of one thing is never too long. -/
def ringWithin (s : Soup κ α) (limit : Int) (k : κ) : Option (List α) :=
  match s.followed k s.cells.size k with
  | [] => some (s.valuesOf [k])
  | ks => if limit ≤ ks.length then none else some (s.valuesOf (k :: ks))

def groupsFrom (s : Soup κ α) : List κ → List κ → List (List κ)
  | _, [] => []
  | seen, k :: ks =>
    if seen.contains k then groupsFrom s seen ks
    else s.ringFrom k :: groupsFrom s (seen ++ s.ringFrom k) ks

def groupKeys (s : Soup κ α) : List (List κ) := s.groupsFrom [] s.cells.keys

def groups (s : Soup κ α) : List (List α) := s.groupKeys.map s.valuesOf

/-- What is said of a ring with more than `limit` items. -/
def tooLong (limit : Int) : String := "Loop is too long, limit is " ++ toString limit

/-- A ring as text: an item between its neighbours, or twice if it is alone. -/
def text (show_ : α → String) (s : Soup κ α) (k : κ) : String :=
  let around := match s.cells.get? k with
    | some c => if s.ringFrom k == [k] then [k, k] else [c.before, k, c.after]
    | none => []
  "<Loop " ++ " -> ".intercalate ((s.valuesOf around).map show_) ++ ">"

end Soup

end Boardwright
