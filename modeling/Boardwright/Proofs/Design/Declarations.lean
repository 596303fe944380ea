import Boardwright.Proofs.Design.Concatenation
import Boardwright.Proofs.Syntax.Rearranged

/-!
# What declarations say in any order

Two definitions are `Alike` if the body of one is the rearranged body of the other one, and what
they and the scopes around them declare is the same. Where names are looked up, and which
attributes a definition has, does not depend on the order of declarations then: `Alike.lookup`,
`Alike.values`.

What a body declares is read into tables. If its declarations are for different things, the tables
of a rearranged body hold the same: `replacementsOf_rearranged`, `Source.alike_scope`.
-/

namespace Boardwright

open Syntax List Table

variable {data : Table String Value}

/-! ### Tables made from lists in any order -/

namespace Table

variable {κ ν μ : Type} [BEq κ] [LawfulBEq κ]

theorem map_get?_ofList (f : ν → μ) (es : List (κ × ν)) (k : κ) :
    ((ofList es).get? k).map f = (ofList (es.map fun e => (e.1, f e.2))).get? k := by
  induction es using List.reverseRecOn with
  | nil => rfl
  | append_singleton es e ih =>
    rw [map_append, map_singleton, ofList_concat, ofList_concat, get?_set, get?_set,
      ← ih]
    split <;> rfl

/-- The order of entries with different keys does not count. -/
theorem get?_ofList_of_perm {es es' : List (κ × ν)} (h : es.Perm es') (hes : (es.map (·.1)).Nodup)
    (k : κ) : (ofList es).get? k = (ofList es').get? k := by
  have hes' : (es'.map (·.1)).Nodup := (h.map (·.1)).nodup_iff.1 hes
  ext v
  rw [get?_eq_some_iff (keys_nodup_ofList es), get?_eq_some_iff (keys_nodup_ofList es'),
    entries_ofList hes, entries_ofList hes', h.mem_iff]

end Table

/-! ### Scopes -/

/-- Scopes that declare the same blocks, and import the same under the same references. -/
structure Scope.Alike (s s' : Scope) : Prop where
  address : s.address = s'.address
  blocks : ∀ n, n ∈ s.blocks ↔ n ∈ s'.blocks
  imports : ∀ r, (s.imports.get? r).map Import.address = (s'.imports.get? r).map Import.address

namespace Scope.Alike

variable {s s' : Scope}

theorem mem_keys (h : s.Alike s') (r : Reference) : r ∈ s.imports.keys ↔ r ∈ s'.imports.keys := by
  rw [← get?_isSome_iff, ← get?_isSome_iff, ← Option.isSome_map, h.imports,
    Option.isSome_map]

theorem any_keys (h : s.Alike s') (p : Reference → Bool) :
    s.imports.keys.any p = s'.imports.keys.any p := by
  rw [Bool.eq_iff_iff, any_eq_true, any_eq_true]
  simp only [h.mem_keys]

theorem find_moved {m : Failure → Failure} {g : Pos → Pos} (h : s.Alike s')
    (hm : Failure.Moves m s.path s'.path g) (hpos : g s.pos = s'.pos) (r : Reference) :
    Moved m (s.find r) (s'.find r) := by
  cases r with
  | nil =>
    have hempty : ∀ t : Table Reference Import,
        t.entries.isEmpty = !t.keys.any fun _ => true := by
      rintro ⟨_ | _⟩ <;> rfl
    refine .ite ?_ (.ok _) (hm.moved_fault _)
    rw [hempty, hempty, h.any_keys]
  | cons n more =>
    have hblocks : s.blocks.contains n = s'.blocks.contains n := by
      rw [Bool.eq_iff_iff, contains_iff_mem, contains_iff_mem, h.blocks]
    refine .ite hblocks (.ite (h.any_keys _) ?_ ?_) ?_
    · rw [← hpos, ← h.address]
      exact hm.moved_located _ _ _
    · rw [h.address]
      exact .ite rfl (.ok _) (hm.moved_fault _)
    · rw [h.imports]
      exact .ok _

theorem find (h : s.Alike s') (r : Reference) : SameOk (s.find r) (s'.find r) :=
  (h.find_moved (Failure.moves_moved s.path s'.path s'.pos) rfl r).sameOk

end Scope.Alike

theorem lookupIn_alike {ss ss' : List Scope} (h : List.Forall₂ Scope.Alike ss ss') (r : Reference) :
    SameOk (lookupIn r ss) (lookupIn r ss') := by
  induction h with
  | nil => exact .refl _
  | cons hs _ ih =>
    refine (hs.find r).bind fun found => ?_
    cases found with
    | none => exact ih
    | some a => exact .refl _

/-! ### Definitions -/

/-- The attribute that a piece gives to an instance itself, if its value can be read. -/
def Syntax.Piece.value? (p : Piece) : Option (Option (String × Value)) :=
  p.simple?.bind fun s => (s.value? "").map Except.toOption

theorem Syntax.Piece.value?_outline (p : Piece) : p.outline.value? = p.value? := by
  cases p with
  | simple s => exact s.value?_unplaced "" ""
  | block header b => rfl

theorem Definition.values_congr {d d' : Definition}
    (hbody : pieces d.body = [] ↔ pieces d'.body = [])
    (hvalues : (pieces d.body).filterMap Piece.value? = (pieces d'.body).filterMap Piece.value?)
    (hd : d.values = .ok data) : d'.values = .ok data := by
  have hpieces : ∀ file ss, ((simplesOf ss).filterMap (·.value? file)).map Except.toOption =
      (pieces ss).filterMap Piece.value? := by
    intro file ss
    rw [simplesOf_eq_pieces, filterMap_filterMap, map_filterMap]
    congr 1
    funext p
    cases p with
    | simple s => exact (s.value?_unplaced file "").symm.trans (s.value?_unplaced "" "")
    | block header b => rfl
  rw [pieces_eq_nil_iff, pieces_eq_nil_iff] at hbody
  obtain ⟨hne, found, hfound, rfl⟩ := values_eq_iff.1 hd
  refine values_eq_iff.2 ⟨mt hbody.2 hne, found, eq_map_ok_of_toOption ?_, rfl⟩
  rw [hpieces, ← hvalues, ← hpieces d.path, hfound]
  simp [Function.comp_def, Except.toOption]

/-- Definitions that are the same but for positions and the order of declarations. -/
structure Definition.Alike (d d' : Definition) : Prop where
  scope : d.toScope.Alike d'.toScope
  base : d.base = d'.base
  closure : List.Forall₂ Scope.Alike d.closure d'.closure
  replacements : ∀ r, (d.replacements.get? r).map Replacement.block =
    (d'.replacements.get? r).map Replacement.block
  body : Rearranged (pieces d.body) (pieces d'.body)

namespace Definition.Alike

variable {d d' : Definition}

theorem lookup (h : d.Alike d') (r : Reference) : SameOk (d.lookup r) (d'.lookup r) :=
  lookupIn_alike h.closure r

/-- The attributes are assigned in the same order. -/
theorem values (h : d.Alike d') (hd : d.values = .ok data) : d'.values = .ok data := by
  refine values_congr h.body.eq_nil_iff (h.body.filterMap_eq Piece.value?_outline ?_) hd
  intro p hp
  cases p with
  | simple s => cases s <;> first | rfl | cases hp
  | block header b => rfl

end Definition.Alike

/-! ### What a body declares -/

def Syntax.Piece.replaces : Piece → Option (Reference × Reference)
  | .simple (.retype target _ instead) => some (target.names, instead.names)
  | _ => none

theorem Syntax.Piece.replaces_outline (p : Piece) : p.outline.replaces = p.replaces := by
  cases p with
  | simple s => cases s <;> simp [outline, replaces, Simple.carry]
  | block h b => rfl

@[simp]
theorem Syntax.Token.content_carry (g : Pos → Pos) (t : Token) : (t.carry g).content = t.content := rfl

@[simp]
theorem Syntax.Header.base_carry (g : Pos → Pos) (h : Header) : (h.carry g).base = h.base := by
  obtain ⟨word, name, _ | ⟨mark, p⟩, colon⟩ := h
  · rfl
  · exact p.names_carry

theorem Syntax.Header.base_eq {h h' : Header} (hh : h.unplaced = h'.unplaced) :
    h.base = h'.base := by
  simpa using congrArg base hh

theorem Syntax.Header.name_eq {h h' : Header} (hh : h.unplaced = h'.unplaced) :
    h.name.text = h'.name.text := congrArg (·.name.text) hh

/-- Which replacements a body asks for is read off its pieces. -/
theorem get?_replacementsOf (ss : List Stmt) (r : Reference) :
    ((replacementsOf ss).get? r).map Replacement.block =
      (Table.ofList ((pieces ss).filterMap Piece.replaces)).get? r := by
  rw [replacementsOf, map_get?_ofList, simplesOf_eq_pieces, filterMap_filterMap,
    map_filterMap]
  congr 3
  funext p
  cases p with
  | simple s => cases s <;> rfl
  | block header b => rfl

/-- The replacements that a body asks for do not depend on the order of its statements. -/
theorem replacementsOf_rearranged {ss ss' : List Stmt} (h : Rearranged (pieces ss) (pieces ss'))
    (hd : Distinct (pieces ss)) (r : Reference) :
    ((replacementsOf ss).get? r).map Replacement.block =
      ((replacementsOf ss').get? r).map Replacement.block := by
  rw [get?_replacementsOf, get?_replacementsOf]
  refine get?_ofList_of_perm (h.perm_filterMap Piece.replaces_outline) ?_ r
  have htargets : ((pieces ss).filterMap Piece.replaces).map (·.1) =
      (pieces ss).filterMap Piece.retyped? := by
    rw [map_filterMap]
    congr 1
    funext p
    cases p with
    | simple s => cases s <;> rfl
    | block header b => rfl
  rw [htargets]
  exact hd.retypes

namespace Source

variable {src src' : Source}

def brings (src : Source) : Piece → Option (Reference × Address)
  | .simple (.importing word what _ file) =>
    (src.imported word what file).toOption.map fun e => (e.1, e.2.address)
  | _ => none

/-- What an import brings in does not depend on where it stands. -/
theorem map_imported (src : Source) (word word' : Token) {file file' : Token} {what what' : Path}
    (hfile : file.unplaced = file'.unplaced) (hwhat : what.unplaced = what'.unplaced) :
    (src.imported word what file).toOption.map (fun e => (e.1, e.2.address)) =
      (src.imported word' what' file').toOption.map fun e => (e.1, e.2.address) := by
  have hcontent : file.content = file'.content := by simpa using congrArg Token.content hfile
  unfold imported
  rw [hcontent, Path.names_eq hwhat]
  cases src.locate? file'.content with
  | none => rfl
  | some r =>
    dsimp only
    cases (Address.mk r.text).addEntries what'.names <;> rfl

theorem brings_eq (hsrc : src.imported = src'.imported) : src.brings = src'.brings := by
  funext p
  unfold brings
  rw [hsrc]

theorem brings_outline (src : Source) (p : Piece) : src.brings p.outline = src.brings p := by
  cases p with
  | simple s =>
    cases s with
    | importing word what source file =>
      refine src.map_imported _ _ rfl ?_
      simp [Path.carry, Token.carry, Function.comp_def]
    | _ => rfl
  | block h b => rfl

theorem imported?_of_brings {p : Piece} {e : Reference × Address} (h : src.brings p = some e) :
    p.imported? = some e.1 := by
  cases p with
  | simple s =>
    cases s with
    | importing word what source file =>
      obtain ⟨x, hx, rfl⟩ := Option.map_eq_some_iff.1 h
      have hok := eq_ok_of_toOption hx
      unfold imported at hok
      split at hok
      · cases hok
      · split at hok
        · cases hok
          rfl
        · cases hok
    | _ => cases h
  | block header b => cases h

theorem nodup_brings {ps : List Piece} (hd : Distinct ps) :
    ((ps.filterMap src.brings).map (·.1)).Nodup := by
  refine List.Sublist.nodup ?_ hd.imports
  rw [map_filterMap]
  clear hd
  induction ps with
  | nil => exact .slnil
  | cons p ps ih =>
    rw [filterMap_cons, filterMap_cons]
    cases hp : src.brings p with
    | none =>
      cases p.imported? with
      | none => exact ih
      | some r => exact .cons _ ih
    | some e =>
      rw [imported?_of_brings hp]
      exact .cons_cons _ ih

/-- What a body imports is read off its pieces. -/
theorem get?_imports_scope (src : Source) (a : Address) (pos : Pos) (ss : List Stmt)
    (r : Reference) : ((src.scope a pos ss).imports.get? r).map Import.address =
      (Table.ofList ((pieces ss).filterMap src.brings)).get? r := by
  rw [scope, map_get?_ofList, importsOf, simplesOf_eq_pieces, filterMap_filterMap,
    filterMap_filterMap, map_filterMap]
  congr 3
  funext p
  cases p with
  | simple s => cases s <;> rfl
  | block header b => rfl

theorem alike_scope (hsrc : src.imported = src'.imported) {ss ss' : List Stmt}
    (h : Rearranged (pieces ss) (pieces ss')) (hd : Distinct (pieces ss)) (a : Address)
    (pos pos' : Pos) : (src.scope a pos ss).Alike (src'.scope a pos' ss') := by
  refine ⟨rfl, fun n => ?_, fun r => ?_⟩
  · simp only [scope, blockNames_eq_pieces, mem_eraseDups]
    exact (h.perm_filterMap Piece.name?_outline).mem_iff
  · rw [get?_imports_scope, get?_imports_scope, ← brings_eq hsrc]
    exact get?_ofList_of_perm (h.perm_filterMap src.brings_outline) (nodup_brings hd) r

end Source

end Boardwright
