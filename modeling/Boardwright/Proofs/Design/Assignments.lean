import Boardwright.Design.Query
import Boardwright.Proofs.Design.Failures

/-!
# What the statements of a block say

Read without making anything, the statements of a block say which children an instance of it
makes, `makes`, and which attributes they give to it and to the instances below it, `sets`: of two
statements for one attribute the later one counts, and of two blocks the one that extends the
other. The attributes that a level of a layer holds are those that its statements give to the
instance itself.
-/

namespace Boardwright

open Syntax List Table

/-! ### Statements -/

/-- The names of the children that one side of a connection makes. -/
def Syntax.Connectable.makes (file : String) : Connectable → List String
  | .signal s => [s.name.text]
  | .pin p => (p.label.read file).toOption.toList
  | _ => []

def Syntax.Simple.makes (file : String) : Simple → List String
  | .assign target _ (.new _ _) => target.names
  | .connect left _ right => left.makes file ++ right.makes file
  | .pin p => (p.label.read file).toOption.toList
  | .signal s => [s.name.text]
  | _ => []

/-- The value that a statement gives to an attribute of the instance that a path leads to. -/
def Syntax.Simple.sets (file : String) (path : List String) (key : String) :
    Simple → Option Value
  | .assign _ _ (.new _ _) => none
  | .assign target _ value =>
    if target.names = path ++ [key] then (value.read file).toOption else none
  | _ => none

/-- The names of the children that the statements of a block make. -/
def Definition.makes (d : Definition) : List String :=
  (simplesOf d.body).flatMap (·.makes d.path)

/-- The value that the last statement of a block for it gives to an attribute. -/
def Definition.sets (d : Definition) (path : List String) (key : String) : Option Value :=
  ((simplesOf d.body).filterMap (·.sets d.path path key)).getLast?

/-- The names of the children that the statements of a level make. -/
def Level.makes (l : Level) : List String := (l.definition.map Definition.makes).getD []

/-- The value that the statements of a level give to an attribute. -/
def Level.sets (l : Level) (path : List String) (key : String) : Option Value :=
  l.definition.bind (·.sets path key)

/-- The names of the children that an instance of a layer makes, one after the other. -/
def Layer.makes (l : Layer) : List String := l.reverse.flatMap Level.makes

/-- The value that the first level that has a statement for it gives to an attribute. -/
def Layer.sets (l : Layer) (path : List String) (key : String) : Option Value :=
  l.findSome? (·.sets path key)

/-! ### The attributes of a level -/

theorem Failure.gather_eq_ok {α : Type} {rs : List (Except Failure α)} {xs : List α}
    (h : gather rs = .ok xs) : xs = rs.filterMap Except.toOption := by
  unfold gather at h
  split at h
  · cases h
  · split at h
    · cases h
    · cases h
      rfl

/-- An assignment to one name gives a value to an attribute of the instance itself. -/
theorem bind_eq_sets (d : Definition) (key : String) (s : Simple) :
    (match s with
      | .assign ⟨_, []⟩ _ (.new _ _) => none
      | .assign ⟨name, []⟩ _ value => some ((value.read d.path).map fun v => (name.text, v))
      | _ => none : Option (Except Failure (String × Value))).bind
        (fun r => r.toOption.bind fun e => if e.1 = key then some e.2 else none) =
      s.sets d.path [] key := by
  have hvalue : ∀ (r : Except Failure Value) (name : String),
      ((r.map fun v => (name, v)).toOption).bind (fun e => if e.1 = key then some e.2 else none) =
        if name = key then r.toOption else none := by
    intro r name
    cases r with
    | error e => simp [Except.map, Except.toOption]
    | ok v => simp [Except.map, Except.toOption]
  cases s with
  | assign target mark value =>
    obtain ⟨head, tail⟩ := target
    cases tail with
    | nil =>
      cases value with
      | new word block => rfl
      | string t => simpa [Simple.sets, Path.names] using hvalue _ _
      | physical p => simpa [Simple.sets, Path.names] using hvalue _ _
    | cons t ts => cases value <;> simp [Simple.sets, Path.names]
  | _ => rfl

variable {d : Definition} {data : Table String Value} {l : Layer}

theorem Definition.values_eq_ok (h : d.values = .ok data) : ∃ found, data = Table.ofList found ∧
      ∀ key, (found.filterMap fun e => if e.1 = key then some e.2 else none) =
        (simplesOf d.body).filterMap (·.sets d.path [] key) := by
  unfold values at h
  split at h
  · cases h
  · cases hfound : Failure.gather (α := String × Value) _ with
    | error e =>
      rw [hfound] at h
      cases h
    | ok found =>
      rw [hfound] at h
      cases h
      refine ⟨found, rfl, fun key => ?_⟩
      rw [Failure.gather_eq_ok hfound, filterMap_filterMap, filterMap_filterMap]
      congr 1
      funext s
      exact bind_eq_sets d key s

theorem Definition.get?_of_values
    (h : d.values = .ok data) (key : String) : data.get? key = d.sets [] key := by
  obtain ⟨found, rfl, hfound⟩ := values_eq_ok h
  rw [get?_ofList, hfound, sets]

/-- A level that holds the attributes that its statements give to the instance itself, each
once. -/
structure Level.Proper (l : Level) : Prop where
  nodup : l.data.keys.Nodup
  data : ∀ key, l.data.get? key = l.sets [] key

/-- Levels that hold the attributes that their statements give to the instance itself. -/
def Layer.Proper (l : Layer) : Prop := ∀ v ∈ l, v.Proper

theorem Builtin.makes_layer (b : Builtin) : Layer.makes b.layer = [] := by cases b <;> rfl

theorem Builtin.sets_layer (b : Builtin) (path : List String) (key : String) :
    Layer.sets b.layer path key = none := by
  cases b <;> rfl

theorem Builtin.proper_layer (b : Builtin) : Layer.Proper b.layer := by
  have hlevel : ∀ c : Builtin, c.level.Proper := fun c => ⟨nodup_nil, fun _ => rfl⟩
  intro v hv
  rw [Builtin.layer, mem_cons] at hv
  rcases hv with rfl | hv
  · exact hlevel b
  · rw [Option.mem_toList, Option.map_eq_some_iff] at hv
    obtain ⟨c, -, rfl⟩ := hv
    exact hlevel c

theorem Library.IsLayer.proper {files : Files} {searched : List Route} {a : Address}
    (h : Library.IsLayer files searched a l) : Layer.Proper l := by
  induction h with
  | builtin _ => exact Builtin.proper_layer _
  | block _ _ _ hdata _ ih =>
    obtain ⟨found, hfound, -⟩ := Definition.values_eq_ok hdata
    refine forall_mem_cons.2 ⟨⟨?_, Definition.get?_of_values hdata⟩, ih⟩
    rw [hfound]
    exact keys_nodup_ofList found

theorem Layer.Proper.findSome?_data (h : l.Proper) (key : String) :
    l.findSome? (fun v => v.data.get? key) = l.sets [] key := by
  induction l with
  | nil => rfl
  | cons v l ih =>
    rw [Layer.Proper, forall_mem_cons] at h
    rw [findSome?_cons, h.1.data, ih h.2, sets, sets, findSome?_cons]

/-! ### All attributes of an instance -/

theorem Table.getLast?_entries {κ ν : Type} [BEq κ] [LawfulBEq κ] [DecidableEq κ] (t : Table κ ν)
    (ht : t.keys.Nodup) (k : κ) :
    (t.entries.filterMap fun e => if e.1 = k then some e.2 else none).getLast? = t.get? k := by
  obtain ⟨es⟩ := t
  induction es with
  | nil => rfl
  | cons e es ih =>
    rw [keys, map_cons, nodup_cons] at ht
    rw [get?, lookup_cons]
    by_cases hk : e.1 = k
    · have hnone : (es.filterMap fun e => if e.1 = k then some e.2 else none) = [] := by
        rw [filterMap_eq_nil_iff]
        intro x hx
        rw [if_neg]
        rintro rfl
        exact ht.1 (mem_map.2 ⟨x, hx, hk.symm⟩)
      simp [hk, hnone]
    · rw [filterMap_cons_none (by simp [hk]), ih ht.2, if_neg (by simpa using Ne.symm hk)]
      rfl

/-- An instance of proper levels for which each attribute is set from outside at most once. -/
structure Instance.Proper (i : Instance) : Prop where
  levels : i.levels.Proper
  override : i.override.keys.Nodup

/-- An attribute is the same whether it is looked up by itself or among all of them. -/
theorem Instance.Proper.get?_data {i : Instance} (h : i.Proper) (key : String) :
    i.data.get? key = i.get? key := by
  have hdata : ∀ l : Layer, l.Proper →
      ((l.reverse.flatMap fun v => v.data.entries).filterMap
        fun e => if e.1 = key then some e.2 else none).getLast? =
        l.findSome? fun v => v.data.get? key := by
    intro l hl
    induction l with
    | nil => rfl
    | cons v l ih =>
      rw [Layer.Proper, forall_mem_cons] at hl
      rw [reverse_cons, flatMap_append, filterMap_append, getLast?_append,
        ih hl.2, flatMap_singleton, getLast?_entries _ hl.1.nodup, findSome?_cons]
      cases v.data.get? key <;> rfl
  rw [Instance.data, get?_ofList, filterMap_append, getLast?_append,
    getLast?_entries _ h.override, hdata _ h.levels, Instance.get?]

end Boardwright
