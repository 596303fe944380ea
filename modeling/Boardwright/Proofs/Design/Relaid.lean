import Boardwright.Proofs.Design.Comparison
import Boardwright.Proofs.Design.Paired
import Boardwright.Proofs.Report.Carried

/-!
# Designs laid out anew

The statements of a file may stand on one line or on lines of their own, and those of a block behind
its header or below it. If the same pieces are laid out in another way, all that changes is where
they stand.
-/

namespace Boardwright

open Syntax List Table Work Failure

variable {X : Failure → Prop} {g : Pos → Pos}

theorem Accord.bind {α β γ δ : Type} {E : Failure → Failure → Prop} {Q : α → γ → Prop}
    {Q' : β → δ → Prop} {r : Except Failure α} {r' : Except Failure γ} {k : α → Except Failure β}
    {k' : γ → Except Failure δ} (h : Accord X E Q r r')
    (hk : ∀ x y, Q x y → Accord X E Q' (k x) (k' y)) : Accord X E Q' (r >>= k) (r' >>= k') := by
  cases h with
  | ok hxy => exact hk _ _ hxy
  | failed he => exact .failed he
  | excused he => exact .excused he

theorem Table.map_ofList {κ ν μ : Type} [BEq κ] (f : ν → μ) (es : List (κ × ν)) :
    (ofList es).map f = ofList (es.map fun e => (e.1, f e.2)) := by
  induction es using List.reverseRecOn with
  | nil => rfl
  | append_singleton es e ih =>
    rw [map_append, map_singleton, ofList_concat, ofList_concat, map_set, ih]

theorem Syntax.Simple.start_carry (g : Pos → Pos) (s : Simple) :
    (s.carry g).start = s.start.carry g := by
  cases s with
  | connect left mark right => cases left <;> rfl
  | _ => rfl

theorem Moved.accord {α : Type} {X : Failure → Prop} {m : Failure → Failure}
    {r r' : Except Failure α} (h : Moved m r r') : Accord X (fun e e' => m e = e') Eq r r' := by
  subst h
  cases r with
  | ok x => exact .ok rfl
  | error e => exact .failed rfl

theorem Deed.alike_mapError (m : Failure → Failure) (a : Deed) :
    a.Alike X (fun e e' => m e = e') (a.mapError m) := by
  cases a with
  | nothing => exact .nothing
  | new names block => exact .new names block
  | set names v => exact .set names (Moved.accord rfl)
  | connect x y => exact .connect (Moved.accord rfl) (Moved.accord rfl)
  | leaf x => exact .leaf (Moved.accord rfl)

/-! ### Definitions -/

def Import.carry (g : Pos → Pos) (i : Import) : Import := { i with pos := g i.pos }

def Replacement.carry (g : Pos → Pos) (r : Replacement) : Replacement := { r with pos := g r.pos }

def Scope.carry (σ : String → Pos → Pos) (s : Scope) : Scope :=
  { s with pos := σ s.path s.pos, imports := s.imports.map (Import.carry (σ s.path)) }

abbrev Syntax.Carried (g : Pos → Pos) : List Piece → List Piece → Prop :=
  Paired (fun s s' => s.carry g = s') fun h h' => h.carry g = h'

/-- Definitions that are the same but for the places in their file and the layout of the body. -/
structure Definition.Relaid (σ : String → Pos → Pos) (d d' : Definition) : Prop where
  scope : d.toScope.carry σ = d'.toScope
  base : d.base = d'.base
  replacements : d.replacements.map (Replacement.carry (σ d.path)) = d'.replacements
  closure : d.closure.map (Scope.carry σ) = d'.closure
  targets : ∀ r ∈ d.replacements.entries, r.1 ≠ []
  body : Carried (σ d.path) (pieces d.body) (pieces d'.body)

/-- A place in a file and where what stands there stands now. -/
abbrev MovedPlace (σ : String → Pos → Pos) (p p' : String × Pos) : Prop :=
  p.1 = p'.1 ∧ σ p.1 p.2 = p'.2

variable {σ : String → Pos → Pos} {d d' : Definition}

theorem Scope.find_carry (s : Scope) (r : Reference) :
    Moved (Failure.carry σ) (s.find r) ((s.carry σ).find r) := by
  have halike : s.Alike (s.carry σ) := by
    refine ⟨rfl, fun _ => Iff.rfl, fun r => ?_⟩
    rw [carry, get?_map, Option.map_map]
    rfl
  exact halike.find_moved (moves_carry s.path) rfl r

theorem lookupIn_carry (ss : List Scope) (r : Reference) :
    Moved (Failure.carry σ) (lookupIn r ss) (lookupIn r (ss.map (Scope.carry σ))) := by
  induction ss with
  | nil =>
    rw [map_nil, lookupIn]
    split <;> rfl
  | cons s ss ih =>
    refine (s.find_carry r).bind fun found => ?_
    cases found with
    | none => exact ih
    | some a => exact .ok _

theorem Syntax.Carried.simplesOf {g : Pos → Pos} {ss ss' : List Stmt}
    (h : Carried g (pieces ss) (pieces ss')) :
    (simplesOf ss).map (Simple.carry g) = Syntax.simplesOf ss' := by
  rw [← forall₂_eq_eq_eq, forall₂_map_left_iff]
  exact Paired.simplesOf h

namespace Definition.Relaid

theorem path (h : d.Relaid σ d') : d.path = d'.path := by
  rw [← h.scope]
  rfl

theorem pos (h : d.Relaid σ d') : σ d.path d.pos = d'.pos := by
  rw [← h.scope]
  rfl

theorem address (h : d.Relaid σ d') : d.address = d'.address := by
  rw [← h.scope]
  rfl

theorem lookup (h : d.Relaid σ d') (r : Reference) :
    Accord X (Failure.Carried σ) Eq (d.lookup r) (d'.lookup r) := by
  rw [Definition.lookup, Definition.lookup, ← h.closure]
  exact (lookupIn_carry d.closure r).accord

theorem values (hσ : ∀ path, Function.Injective (σ path)) (h : d.Relaid σ d') :
    Accord (fun _ => False) (Failure.Carried σ) Eq d.values d'.values := by
  have hfound : (simplesOf d'.body).filterMap (·.value? d'.path) =
      ((simplesOf d.body).filterMap (·.value? d.path)).map fun r => r.mapError (Failure.carry σ) := by
    rw [← Carried.simplesOf h.body, filterMap_map, map_filterMap, ← h.path]
    congr 1
    funext s
    exact s.value?_carry (moves_carry d.path)
  have hempty : d'.body.isEmpty = d.body.isEmpty := by
    rw [Bool.eq_iff_iff, List.isEmpty_iff, List.isEmpty_iff, ← pieces_eq_nil_iff,
      ← pieces_eq_nil_iff, h.body.eq_nil_iff]
  have hvalues : ∀ d : Definition, d.values = if d.body.isEmpty then .error (.fault .missingAttribute)
      else do
        let found ← Failure.gather ((simplesOf d.body).filterMap (·.value? d.path))
        return Table.ofList found := fun _ => rfl
  rw [hvalues, hvalues, hempty, hfound]
  split
  · exact .failed rfl
  · refine (Accord.gather (Q := Eq) (tracks_carry hσ) ?_).bind fun found found' h => ?_
    · rw [forall₂_map_right_iff]
      exact forall₂_same.2 fun r _ => Moved.accord rfl
    · rw [forall₂_eq_eq_eq] at h
      subst h
      exact .ok rfl

theorem coupled (h : d.Relaid σ d') :
    Definition.Coupled (fun _ => False) (Failure.Carried σ)
      (MovedPlace σ) (fun _ => True) d d' where
  place := ⟨h.path, h.pos⟩
  lookup := h.lookup
  statements := by
    refine (Paired.simplesOf h.body).imp fun v v' hv => ?_
    subst hv
    refine ⟨⟨h.path, by rw [Simple.start_carry]; rfl⟩, ?_, Deed.named_true _⟩
    rw [← h.path, v.deed_carry (moves_carry d.path)]
    exact Deed.alike_mapError _ _
  replacements := by
    rw [← h.replacements, Table.map, forall₂_map_right_iff]
    exact forall₂_same.2 fun r hr => ⟨rfl, rfl, h.targets r hr, fun _ _ => trivial⟩

end Definition.Relaid

namespace Source

variable {src src' : Source} {ps ps' : List Piece} {ss ss' : List Stmt}

theorem imported_carry (src : Source) (word file : Token) (what : Path) :
    src.imported (word.carry (σ src.route.text)) (what.carry (σ src.route.text))
        (file.carry (σ src.route.text)) =
      ((src.imported word what file).map fun i => (i.1, i.2.carry (σ src.route.text))).mapError
        (Failure.carry σ) := by
  rw [imported, imported, Token.content_carry, Path.names_carry]
  cases src.locate? file.content with
  | none => rfl
  | some r =>
    dsimp only
    cases (Address.mk r.text).addEntries what.names <;> rfl

theorem import?_carry (src : Source) (s : Simple) :
    src.import? (s.carry (σ src.route.text)) = (src.import? s).map fun r =>
      (r.map fun i => (i.1, i.2.carry (σ src.route.text))).mapError (Failure.carry σ) := by
  cases s with
  | importing word what source file => exact congrArg some (src.imported_carry word file what)
  | _ => rfl

theorem accord_imports (h : Carried (σ src.route.text) ps ps') :
    List.Forall₂ (Accord (fun _ => False) (Failure.Carried σ) fun _ _ => True)
      (ps.flatMap src.pieceImports) (ps'.flatMap src.pieceImports) := by
  induction h with
  | nil => exact .nil
  | @simple s _ _ _ hs _ ih =>
    subst hs
    refine rel_append ?_ ih
    rw [pieceImports_simple, pieceImports_simple, import?_carry]
    cases src.import? s with
    | none => exact .nil
    | some r =>
      refine .cons ?_ .nil
      cases r with
      | ok x => exact .ok trivial
      | error e => exact .failed rfl
  | block _ _ _ ihb ih =>
    refine rel_append ?_ ih
    rw [pieceImports, pieceImports, bodyImports_eq, bodyImports_eq]
    exact ihb

theorem blockNames_carried (h : Carried g (pieces ss) (pieces ss')) :
    blockNames ss = blockNames ss' := by
  rw [blockNames_eq_pieces, blockNames_eq_pieces]
  congr 1
  generalize pieces ss = ps at h
  generalize pieces ss' = ps' at h
  induction h with
  | nil => rfl
  | simple _ _ ih => exact ih
  | block hh _ _ _ ih =>
    subst hh
    exact congrArg (List.cons _) ih

theorem replacementsOf_carried (h : Carried g (pieces ss) (pieces ss')) :
    (replacementsOf ss).map (Replacement.carry g) = replacementsOf ss' := by
  rw [replacementsOf, replacementsOf, map_ofList, ← Carried.simplesOf h, filterMap_map,
    map_filterMap]
  congr 2
  funext s
  cases s with
  | retype target mark block =>
    simp only [Function.comp_apply, Simple.carry, Path.names_carry, Option.map_some]
    rfl
  | _ => rfl

theorem ne_nil_of_mem_replacementsOf {r : Reference × Replacement}
    (hr : r ∈ (replacementsOf ss).entries) : r.1 ≠ [] := by
  obtain ⟨s, -, hs⟩ := mem_filterMap.1 (mem_of_mem_ofList hr)
  cases s with
  | retype target mark block =>
    cases hs
    exact cons_ne_nil _ _
  | _ => cases hs

theorem scope_carried (hsrc : src.imported = src'.imported) (hroute : src.route = src'.route)
    (h : Carried (σ src.route.text) (pieces ss) (pieces ss')) (a : Address) (pos : Pos) :
    (src.scope a pos ss).carry σ = src'.scope a (σ src.route.text pos) ss' := by
  have himports : src'.importsOf ss' = (src.importsOf ss).map fun r =>
      (r.map fun i => (i.1, i.2.carry (σ src.route.text))).mapError (Failure.carry σ) := by
    have heq : ∀ ss, src'.importsOf ss = (simplesOf ss).filterMap src.import? := by
      intro ss
      rw [import?_congr hsrc]
      rfl
    rw [heq, ← Carried.simplesOf h, filterMap_map]
    change _ = List.map _ ((simplesOf ss).filterMap src.import?)
    rw [map_filterMap]
    congr 1
    funext s
    exact src.import?_carry s
  have hfound : ((src.importsOf ss).filterMap Except.toOption).map
      (fun i => (i.1, i.2.carry (σ src.route.text))) = (src'.importsOf ss').filterMap Except.toOption := by
    rw [himports, filterMap_map, map_filterMap]
    congr 1
    funext r
    cases r <;> rfl
  rw [scope, scope, Scope.carry, map_ofList, hfound, hroute, blockNames_carried h]

/-- Definitions of a file that is laid out anew. -/
theorem pairs_carried (hsrc : src.imported = src'.imported) (hroute : src.route = src'.route) :
    Pairs src src' (fun s s' => s.carry (σ src.route.text) = s')
      (fun h h' => h.carry (σ src.route.text) = h') (fun s s' => s.carry σ = s')
      fun d d' => d.path = src.route.text ∧ d.Relaid σ d' where
  name h := h ▸ rfl
  address h := h ▸ rfl
  scopes h := by
    refine .cons h.2.scope ?_
    rw [← forall₂_map_left_iff (f := Scope.carry σ), h.2.closure, forall₂_eq_eq_eq]
  body h := h.1 ▸ h.2.body
  block {closure closure' header header' b b'} a hclosure hh hb := by
    subst hh
    refine ⟨rfl, scope_carried hsrc hroute hb a _, (Header.base_carry _ header).symm,
      replacementsOf_carried hb, ?_, fun _ => ne_nil_of_mem_replacementsOf, hb⟩
    rw [← forall₂_eq_eq_eq, forall₂_map_left_iff]
    exact hclosure

/-- The definitions of a file that is laid out anew, or its failures. -/
theorem accord_definitions (hσ : ∀ path, Function.Injective (σ path))
    (hsrc : src.imported = src'.imported) (hroute : src.route = src'.route) {f f' : SourceFile}
    (hf : Carried (σ src.route.text) (pieces f.stmts) (pieces f'.stmts))
    (hstart : σ src.route.text f.start.pos = f'.start.pos) (a : Address) :
    Accord (fun _ => False) (Failure.Carried σ) (List.Forall₂ (Definition.Relaid σ))
      (src.definitions a f) (src'.definitions a f') := by
  rw [definitions_eq, definitions_eq, ← bodyImports_congr hsrc, bodyImports_eq, bodyImports_eq]
  refine (Accord.gather (tracks_carry hσ) (accord_imports hf)).bind fun _ _ _ => ?_
  have hmisplaced : misplaced f' = misplaced f := by
    rw [misplaced, ← replacementsOf_carried hf, Table.map, isEmpty_map]
    rfl
  rw [declared, declared, hmisplaced]
  cases hsome : misplaced f with
  | none =>
    have hscope := scope_carried hsrc hroute hf a f.start.pos
    rw [hstart] at hscope
    have hfile : (src.fileDefinition a f).Relaid σ (src'.fileDefinition a f') :=
      ⟨hscope, rfl, rfl, rfl, fun _ hr => absurd hr not_mem_nil, hf⟩
    exact .ok (((pairs_carried hsrc hroute).definitionsIn ⟨rfl, hfile⟩).imp fun _ _ hd => hd.2)
  | some e =>
    unfold misplaced at hsome
    split at hsome <;> cases hsome
    exact .failed rfl

end Source

/-! ### Files -/

/-- Texts that are read alike, with their places moved. -/
def CarriedText (g : Pos → Pos) (text text' : String) : Prop :=
  (∃ t, SourceFile.parse text = .error t ∧ SourceFile.parse text' = .error t ∧ g t.pos = t.pos) ∨
    ∃ f f', SourceFile.parse text = .ok f ∧ SourceFile.parse text' = .ok f' ∧
      Carried g (pieces f.stmts) (pieces f'.stmts) ∧ g f.start.pos = f'.start.pos

/-- The same files, with texts that are laid out anew. -/
structure Files.Carried (σ : String → Pos → Pos) (fs fs' : Files) : Prop where
  like : fs.Like (fun _ _ => True) fs'
  texts : ∀ {file text text'}, fs.find? (.ofText file) = some (.file text) →
    fs'.find? (.ofText file) = some (.file text') → CarriedText (σ (Route.ofText file).text) text text'

/-- Instances that are the same but for the places of their links and of their definitions. -/
structure Instance.Relaid (σ : String → Pos → Pos) (i j : Instance) : Prop where
  levels : i.levels.Like (Definition.Relaid σ) j.levels
  override : i.override = j.override
  links : i.links.map Link.ends = j.links.map Link.ends
  children : i.children = j.children

namespace Library

/-- Libraries that hold the same but for places, made from files that are laid out anew. -/
structure Relaid (σ : String → Pos → Pos) (s t : Library) : Prop where
  files : s.files.Carried σ t.files
  searched : s.searched = t.searched
  definitions : s.definitions.Matches (fun _ => Definition.Relaid σ) t.definitions
  layers : s.layers.Matches (fun _ => Layer.Like (Definition.Relaid σ)) t.layers
  instances : s.instances.Matches (fun _ => Instance.Relaid σ) t.instances
  replaced : ∀ a, s.replaced.get? a = t.replaced.get? a

variable {s t : Library} (hσ : ∀ path, Function.Injective (σ path))

include hσ

theorem Relaid.read (h : s.Relaid σ t) (file : String) :
    Accord (fun _ => False) (Failure.Carried σ) (List.Forall₂ (Definition.Relaid σ))
      (s.read file) (t.read file) := by
  have himported := h.files.like.imported s.searched (Route.ofText file)
  rw [Library.read, Library.read, ← h.searched]
  by_cases hfile : ∃ text text', s.files.find? (Route.ofText file) = some (.file text) ∧
      t.files.find? (Route.ofText file) = some (.file text')
  · obtain ⟨text, text', htext, htext'⟩ := hfile
    rw [htext, htext']
    rcases h.files.texts htext htext' with ⟨u, hu, hu', hpos⟩ | ⟨f, f', hf, hf', hff', hstart⟩
    · simp only [hu, hu']
      refine .failed ?_
      change Failure.group _ [Failure.carry σ (.report (badToken _ u))] = _
      rw [badToken, (moves_carry _).located, hpos]
      rfl
    · simp only [hf, hf']
      exact Source.accord_definitions hσ himported rfl hff' hstart _
  · have hfind : s.files.find? (Route.ofText file) = t.files.find? (Route.ofText file) := by
      rcases h.files.like.find? (Route.ofText file) with hfind | ⟨text, text', htext, htext', -⟩
      · exact hfind
      · exact absurd ⟨text, text', htext, htext'⟩ hfile
    rw [← hfind]
    rcases hnode : s.files.find? (Route.ofText file) with _ | text | _
    · exact .failed rfl
    · exact absurd ⟨text, text, hnode, hfind ▸ hnode⟩ hfile
    · exact .failed rfl

end Library

end Boardwright
