/-!
# Tables

A table is a finite map that remembers the order in which its keys were first
set. Setting a key again changes its value and not its place. The view of a table
is its list of entries.
-/

namespace Boardwright

/-- A finite map whose entries stand in the order in which their keys were first
set. -/
structure Table (κ ν : Type) where
  entries : List (κ × ν) := []
  deriving Repr, DecidableEq

namespace Table

variable {κ ν μ : Type} [BEq κ]

instance : EmptyCollection (Table κ ν) := ⟨⟨[]⟩⟩

instance : Inhabited (Table κ ν) := ⟨⟨[]⟩⟩

/-- The value of a key. -/
def get? (t : Table κ ν) (k : κ) : Option ν := t.entries.lookup k

/-- Whether a key has a value. -/
def contains (t : Table κ ν) (k : κ) : Bool := t.entries.any fun e => e.1 == k

def setEntry (k : κ) (v : ν) : List (κ × ν) → List (κ × ν)
  | [] => [(k, v)]
  | e :: es => if e.1 == k then (e.1, v) :: es else e :: setEntry k v es

def set (t : Table κ ν) (k : κ) (v : ν) : Table κ ν := ⟨setEntry k v t.entries⟩

def erase (t : Table κ ν) (k : κ) : Table κ ν := ⟨t.entries.filter fun e => !(e.1 == k)⟩

/-- The value of `k` changed by `f`, if there is one. -/
def modify (t : Table κ ν) (k : κ) (f : ν → ν) : Table κ ν :=
  ⟨t.entries.map fun e => if e.1 == k then (e.1, f e.2) else e⟩

def keys (t : Table κ ν) : List κ := t.entries.map (·.1)

def values (t : Table κ ν) : List ν := t.entries.map (·.2)

/-- The number of keys. -/
def size (t : Table κ ν) : Nat := t.entries.length

def ofList (es : List (κ × ν)) : Table κ ν := es.foldl (fun t e => t.set e.1 e.2) ∅

def map (t : Table κ ν) (f : ν → μ) : Table κ μ := ⟨t.entries.map fun e => (e.1, f e.2)⟩

/-- Items gathered under their keys: the keys in the order in which they are first
met, the items of a key in their own order. -/
def groupBy (key : ν → κ) (items : List ν) : Table κ (List ν) :=
  items.foldl (fun t x => t.set (key x) ((t.get? (key x)).getD [] ++ [x])) ∅

end Table

end Boardwright
