import Boardwright.Proofs.Design.Retyping
import Boardwright.Proofs.Syntax.Unplaced

/-!
# A block and the block it extends, written as one

A block `e` that extends a block `d` can be written as one block `m`, in the same scopes, which
extends what `d` extends and has the statements of `d` and after them those of `e`. What the later
of two statements says counts, and so does what a block says against the block that it extends.
So the two ways of writing it give each attribute the same value, `Concatenates.sets`, and replace
each type by the same block, `Concatenates.replacement?`.
-/

namespace Boardwright

open Syntax List Failure

/-- A block `m` that is written like the block `d` and then the block `e`: names are looked up in
the same scopes, it extends what `d` extends, and its statements are those of the two, whatever
the positions of the tokens are. -/
structure Definition.Concatenates (m d e : Definition) : Prop where
  scopes : m.closure = d.closure
  scopes' : m.closure = e.closure
  base : m.lookup m.base = d.lookup d.base
  statements : (simplesOf m.body).map Simple.unplaced =
    (simplesOf d.body ++ simplesOf e.body).map Simple.unplaced

/-- The name and the value of an attribute that a statement gives to the instance itself. -/
def Syntax.Simple.value? (file : String) : Simple → Option (Except Failure (String × Value))
  | .assign ⟨_, []⟩ _ (.new _ _) => none
  | .assign ⟨name, []⟩ _ value => some ((value.read file).map fun v => (name.text, v))
  | _ => none

/-- The block that a statement puts in the place of the one of the instance that a path leads
to. -/
def Syntax.Simple.retypes (path : Reference) : Simple → Option Reference
  | .retype target _ block => if target.names = path then some block.names else none
  | _ => none

theorem Syntax.Simple.value?_carry {m : Failure → Failure} {file file' : String} {g : Pos → Pos}
    (hm : Moves m file file' g) (s : Simple) :
    (s.carry g).value? file' = (s.value? file).map fun r => r.mapError m := by
  cases s with
  | assign target mark value =>
    obtain ⟨name, tail⟩ := target
    cases tail with
    | nil =>
      have hread := (value.read_carry hm).map fun v => (name.text, v)
      cases value with
      | new word block => rfl
      | _ => exact congrArg some hread
    | cons t ts => cases value <;> rfl
  | _ => rfl

theorem Syntax.Simple.value?_unplaced (s : Simple) (file file' : String) :
    (s.unplaced.value? file').map Except.toOption = (s.value? file).map Except.toOption := by
  rw [value?_carry (moves_moved file file' default), Option.map_map]
  exact congrArg (Option.map · _) (funext fun r => (SameOk.mapError r _).symm)

theorem Syntax.Simple.retypes_unplaced (s : Simple) (path : Reference) :
    s.unplaced.retypes path = s.retypes path := by
  cases s with
  | retype target mark block => simp [Simple.retypes, Simple.carry]
  | _ => rfl

/-- The block that the last statement for it puts in the place of another one. -/
theorem block_replacementsOf (stmts : List Stmt) (path : Reference) :
    ((replacementsOf stmts).get? path).map Replacement.block =
      ((simplesOf stmts).filterMap (·.retypes path)).getLast? := by
  rw [replacementsOf, Table.get?_ofList, ← getLast?_map, filterMap_filterMap,
    map_filterMap]
  congr 2
  funext s
  cases s with
  | retype target mark block => by_cases h : target.names = path <;> simp [Simple.retypes, h]
  | _ => rfl

/-- Results that can be read one by one are read together. -/
theorem eq_map_ok_of_toOption {α : Type} {rs : List (Except Failure α)} {xs : List α}
    (h : rs.map Except.toOption = xs.map some) : rs = xs.map .ok := by
  induction rs generalizing xs with
  | nil => simpa using h.symm
  | cons r rs ih =>
    cases xs with
    | nil => cases h
    | cons x xs =>
      obtain ⟨hr, hrs⟩ := List.cons.inj h
      rw [eq_ok_of_toOption hr, ih hrs, map_cons]

theorem Library.replacement?_cons (v : Level) (rest : Layer) (path : Reference) :
    replacement? (v :: rest) path =
      (v.definition.bind fun d => (d.replacements.get? path).map (d, ·)).or
        (replacement? rest path) := by
  rw [replacement?, findSome?_cons, ← replacement?]
  cases v.definition.bind fun d => (d.replacements.get? path).map (d, ·) <;> rfl

namespace Definition

variable {m d e : Definition}

theorem values_eq_iff {data : Table String Value} :
    d.values = .ok data ↔ d.body ≠ [] ∧ ∃ found : List (String × Value),
      (simplesOf d.body).filterMap (·.value? d.path) = found.map .ok ∧
        data = Table.ofList found := by
  have hvalues : d.values = if d.body.isEmpty then .error (.fault .missingAttribute)
      else do
        let found ← Failure.gather ((simplesOf d.body).filterMap (·.value? d.path))
        return Table.ofList found := rfl
  have hsolid : ∀ g, .error g ∈ (simplesOf d.body).filterMap (·.value? d.path) → g.Solid := by
    intro g hg
    obtain ⟨s, -, hs⟩ := mem_filterMap.1 hg
    unfold Simple.value? at hs
    split at hs
    · cases hs
    · next value _ => exact (((value.only_read d.path).map _) g (Option.some.inj hs)).1
    · cases hs
  rw [hvalues]
  constructor
  · intro h
    split at h
    · cases h
    · next hbody =>
        cases hfound : Failure.gather ((simplesOf d.body).filterMap (·.value? d.path)) with
        | error g =>
          rw [hfound] at h
          cases h
        | ok found =>
          rw [hfound] at h
          cases h
          exact ⟨by simpa using hbody, found, eq_map_ok_of_gather hsolid hfound, rfl⟩
  · rintro ⟨hbody, found, hfound, rfl⟩
    rw [if_neg (by simpa using hbody), hfound, gather_map_ok]
    rfl

namespace Concatenates

/-- What does not depend on positions is collected from the two blocks one after the other. -/
theorem filterMap_simplesOf (h : m.Concatenates d e) {β : Type} {F f g k : Simple → Option β}
    (hf : ∀ s, F s.unplaced = f s) (hg : ∀ s, F s.unplaced = g s) (hk : ∀ s, F s.unplaced = k s) :
    (simplesOf m.body).filterMap f =
      (simplesOf d.body).filterMap g ++ (simplesOf e.body).filterMap k := by
  have hunplaced : ∀ {f : Simple → Option β}, (∀ s, F s.unplaced = f s) → ∀ ss : List Simple,
      ss.filterMap f = (ss.map Simple.unplaced).filterMap F := by
    intro f hf ss
    rw [filterMap_map]
    congr 1
    funext s
    exact (hf s).symm
  rw [hunplaced hf, h.statements, map_append, filterMap_append, ← hunplaced hg,
    ← hunplaced hk]

theorem sets (h : m.Concatenates d e) (path : List String) (key : String) :
    m.sets path key = (e.sets path key).or (d.sets path key) := by
  have hsets : ∀ file s, (s : Simple).unplaced.sets "" path key = s.sets file path key :=
    fun file s => s.sets_unplaced file "" path key
  rw [Definition.sets, h.filterMap_simplesOf (hsets _) (hsets _) (hsets _), getLast?_append]
  rfl

/-- The attributes of the block can be read if those of the two blocks can be. -/
theorem exists_values (h : m.Concatenates d e) {data data' : Table String Value}
    (hd : d.values = .ok data) (he : e.values = .ok data') (hbody : m.body ≠ []) :
    ∃ data, m.values = .ok data := by
  obtain ⟨-, found, hfound, -⟩ := values_eq_iff.1 hd
  obtain ⟨-, found', hfound', -⟩ := values_eq_iff.1 he
  have hvalue : ∀ file s, ((s : Simple).unplaced.value? "").map Except.toOption =
      (s.value? file).map Except.toOption := fun file s => s.value?_unplaced file ""
  refine ⟨_, values_eq_iff.2 ⟨hbody, found ++ found', eq_map_ok_of_toOption ?_, rfl⟩⟩
  rw [map_filterMap, h.filterMap_simplesOf (F := fun s => (s.value? "").map Except.toOption)
    (hvalue _) (hvalue _) (hvalue _), ← map_filterMap, ← map_filterMap, hfound, hfound']
  simp [Function.comp_def, Except.toOption]

theorem body_ne_nil (h : m.Concatenates d e) (he : e.body ≠ []) (hplain : blockNames e.body = []) :
    m.body ≠ [] := by
  intro hnil
  have hstatements := h.statements
  rw [hnil, map_append] at hstatements
  have hnone : simplesOf e.body = [] := by
    have hmap := (append_eq_nil_iff.1 hstatements.symm).2
    simpa using hmap
  cases hbody : e.body with
  | nil => exact he hbody
  | cons s ss =>
    rw [hbody] at hnone hplain
    cases s with
    | line l => cases hnone
    | block header b => simp [blockNames, eraseDups_cons] at hplain

theorem lookup_replacement? (h : m.Concatenates d e) (hm : m.replacements = replacementsOf m.body)
    (hd : d.replacements = replacementsOf d.body) (he : e.replacements = replacementsOf e.body)
    {u v w : Level} (hu : u.definition = some m) (hv : v.definition = some d)
    (hw : w.definition = some e) (rest : Layer) (path : Reference) :
    (Library.replacement? (u :: rest) path).map (fun r => r.1.lookup r.2.block) =
      (Library.replacement? (w :: v :: rest) path).map fun r => r.1.lookup r.2.block := by
  have hblock : ∀ (d : Definition) (r : Option Replacement),
      (r.map (d, ·)).map (fun r => r.1.lookup r.2.block) =
        (r.map Replacement.block).map d.lookup := by
    intro d r
    simp [Function.comp_def]
  have hretypes : ∀ s, (s : Simple).unplaced.retypes path = s.retypes path :=
    fun s => s.retypes_unplaced path
  have hlookup : m.lookup = d.lookup := by
    funext r
    rw [lookup, lookup, h.scopes]
  have hlookup' : m.lookup = e.lookup := by
    funext r
    rw [lookup, lookup, h.scopes']
  simp only [Library.replacement?_cons, hu, hv, hw, Option.bind_some, Option.map_or, hblock]
  rw [hm, hd, he, block_replacementsOf, block_replacementsOf, block_replacementsOf,
    h.filterMap_simplesOf hretypes hretypes hretypes, getLast?_append, Option.map_or, hlookup',
    ← hlookup, hlookup', Option.or_assoc]

end Concatenates

end Definition

end Boardwright
