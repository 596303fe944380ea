import Boardwright.Proofs.Design.Comparison
import Boardwright.Proofs.Design.Paired
import Boardwright.Proofs.Syntax.Turned

/-!
# Designs with connections written the other way round

Files whose connections have been turned define the same blocks, in the same order: their
definitions are `Turned`. The two sides of a connection may each place a pin or a signal. In the
other order these come out as the same children in another order, and if both are of one name, the
last one stays; it is a pin or a signal in any case. So the trees of both are made of instances
that are `Turned`: the same children, and links that may point the other way.
-/

namespace Boardwright

open Syntax List Work

/-! ### Definitions -/

/-- Definitions that are the same but for positions and sides of connections. -/
structure Definition.Turned (d d' : Definition) : Prop where
  scope : d.toScope.Alike d'.toScope
  base : d.base = d'.base
  closure : List.Forall₂ Scope.Alike d.closure d'.closure
  replacements : ∀ r, (d.replacements.get? r).map Replacement.block =
    (d'.replacements.get? r).map Replacement.block
  body : Syntax.Turned (pieces d.body) (pieces d'.body)

/-- The attributes are assigned in the same order. -/
theorem Definition.Turned.values {d d' : Definition} (h : d.Turned d') {data : Table String Value}
    (hd : d.values = .ok data) : d'.values = .ok data :=
  values_congr h.body.eq_nil_iff (h.body.filterMap_eq Piece.value?_outline fun _ _ _ => rfl) hd

theorem replacementsOf_turned {ss ss' : List Stmt} (h : Turned (pieces ss) (pieces ss'))
    (r : Reference) : ((replacementsOf ss).get? r).map Replacement.block =
      ((replacementsOf ss').get? r).map Replacement.block := by
  rw [get?_replacementsOf, get?_replacementsOf,
    h.filterMap_eq Piece.replaces_outline fun _ _ _ => rfl]

namespace Source

variable {src src' : Source} {d d' : Definition} {ss ss' : List Stmt} {ps ps' : List Piece}

theorem turned_scope (hsrc : src.imported = src'.imported) (h : Turned (pieces ss) (pieces ss'))
    (a : Address) (pos pos' : Pos) : (src.scope a pos ss).Alike (src'.scope a pos' ss') := by
  refine ⟨rfl, fun n => ?_, fun r => ?_⟩
  · rw [scope, scope, blockNames_eq_pieces, blockNames_eq_pieces,
      h.filterMap_eq Piece.name?_outline fun _ _ _ => rfl]
  · rw [get?_imports_scope, get?_imports_scope, ← brings_eq hsrc,
      h.filterMap_eq src.brings_outline fun _ _ _ => rfl]

theorem pairs_turned (hsrc : src.imported = src'.imported) :
    Pairs src src' Simple.Turned (fun h h' => h.unplaced = h'.unplaced) Scope.Alike
      Definition.Turned where
  name := Header.name_eq
  address h := h.address
  scopes h := .cons h.scope h.closure
  body h := h.body
  block _ hclosure hh hb :=
    ⟨turned_scope hsrc hb _ _ _, Header.base_eq hh, hclosure, replacementsOf_turned hb, hb⟩

theorem findsImports_turned (h : Turned ps ps') (hok : ∀ p ∈ ps, src.FindsImports p) :
    ∀ p ∈ ps', src.FindsImports p := by
  induction h with
  | nil => exact hok
  | @simple s s' _ _ hs _ ih =>
    rw [forall_mem_cons] at hok ⊢
    refine ⟨?_, ih hok.2⟩
    rcases hs with hs | hs
    · exact hok.1.simple hs
    · refine FindsImports.simple hs ?_
      cases s with
      | connect left mark right => exact fun _ hr => absurd hr not_mem_nil
      | _ => exact hok.1
  | block _ _ _ ihb ih =>
    rw [forall_mem_cons] at hok ⊢
    exact ⟨findsImports_block.2 (ihb (findsImports_block.1 hok.1)), ih hok.2⟩

theorem exists_definitions_turned {f f' : SourceFile} (hsrc : src.imported = src'.imported)
    (hf : Turned (pieces f.stmts) (pieces f'.stmts)) {a : Address} {ds : List Definition}
    (h : src.definitions a f = .ok ds) :
    ∃ ds', src'.definitions a f' = .ok ds' ∧ List.Forall₂ Definition.Turned ds ds' := by
  obtain ⟨himports, hmisplaced, rfl⟩ := definitions_eq_ok_iff.1 h
  refine ⟨_, definitions_eq_ok_iff.2 ⟨?_, ?_, rfl⟩, (pairs_turned hsrc).definitionsIn ?_⟩
  · rw [exists_gather_bodyImports] at himports
    rw [← bodyImports_congr hsrc, exists_gather_bodyImports]
    exact findsImports_turned hf himports
  · refine Table.eq_empty_of_get? fun r => ?_
    have hblock := replacementsOf_turned hf r
    rw [hmisplaced] at hblock
    exact Option.map_eq_none_iff.1 hblock.symm
  · exact ⟨turned_scope hsrc hf _ _ _, rfl, .nil, fun _ => rfl, hf⟩

end Source

/-! ### Files -/

def TurnedText (text text' : String) : Prop :=
  text = text' ∨ ∃ f f', SourceFile.parse text = .ok f ∧ SourceFile.parse text' = .ok f' ∧
    Turned (pieces f.stmts) (pieces f'.stmts)

namespace TurnedText

variable {text text' : String}

theorem symm (h : TurnedText text text') : TurnedText text' text := by
  rcases h with h | ⟨f, f', hf, hf', hff'⟩
  · exact .inl h.symm
  · exact .inr ⟨f', f, hf', hf, hff'.symm⟩

theorem exists_parse (h : TurnedText text text') {f : SourceFile}
    (hf : SourceFile.parse text = .ok f) :
    ∃ f', SourceFile.parse text' = .ok f' ∧ Turned (pieces f.stmts) (pieces f'.stmts) := by
  rcases h with rfl | ⟨g, f', hg, hf', hgf'⟩
  · exact ⟨f, hf, .of_stmts (fun _ => .inl rfl) (by simp) f.stmts⟩
  · cases hf.symm.trans hg
    exact ⟨f', hf', hgf'⟩

theorem of_within {n : Nat}
    (h : ((SourceFile.parse text).toOption.bind fun f =>
      (SourceFile.parse text').toOption.map fun f' =>
        turnedWithin n (pieces f.stmts) (pieces f'.stmts)) = some true) :
    TurnedText text text' := by
  obtain ⟨f, hf, h⟩ := Option.bind_eq_some_iff.1 h
  obtain ⟨f', hf', h⟩ := Option.map_eq_some_iff.1 h
  exact .inr ⟨f, f', eq_ok_of_toOption hf, eq_ok_of_toOption hf', turned_of_within h⟩

end TurnedText

/-- The same files, with the sides of some connections swapped in their texts. -/
def Files.Turned (fs fs' : Files) : Prop := fs.Like TurnedText fs'

theorem Files.Turned.symm {fs fs' : Files} (h : fs.Turned fs') : fs'.Turned fs :=
  ⟨h.dirs.symm, h.cwd.symm, h.texts.symm fun _ _ _ => TurnedText.symm⟩

namespace Library

variable {files files' : Files} {searched : List Route} {a : Address} {d : Definition}

theorem exists_defined_turned (hfiles : files.Turned files')
    (h : defined files searched a = some d) :
    ∃ d', defined files' searched a = some d' ∧ d.Turned d' := by
  unfold defined at h
  split at h
  · next ds hds =>
      obtain ⟨text, f, htext, hf, hds⟩ := read_eq_ok_iff.1 hds
      obtain ⟨text', htext', hsame⟩ := Files.Like.exists_file hfiles (fun _ => .inl rfl) htext
      obtain ⟨f', hf', hff'⟩ := hsame.exists_parse hf
      have himported := Files.Like.imported hfiles searched (Route.ofText a.file)
      obtain ⟨ds', hds', hdefs⟩ := Source.exists_definitions_turned himported hff' hds
      rw [defined_of_read_eq_ok (read_eq_ok_iff.2 ⟨text', f', htext', hf', hds'⟩)]
      exact (matches_register (fun _ _ hd => hd.scope.address) (fun _ => .none) hdefs).exists_get? h
  · cases h

end Library

/-! ### Instances -/

/-- Links with the same ends, or with the same ends in the other order. -/
def Link.Turned (k k' : Link) : Prop := k.ends = k'.ends ∨ k.ends = k'.ends.swap

/-- Instances that are the same but for the order of their children and the direction of their
links. A pin may have become a signal, but nothing else, and is no interface in any case. -/
structure Instance.Turned (i j : Instance) : Prop where
  terminal : i.isAny [.pin, .signal] = j.isAny [.pin, .signal]
  interface : i.isAny [.interface] = j.isAny [.interface]
  apart : i.isAny [.pin, .signal] = true → i.isAny [.interface] = false
  children : i.children.Perm j.children
  links : List.Forall₂ Link.Turned i.links j.links

theorem Layer.Like.isAny {D : Definition → Definition → Prop} {l l' : Layer} (h : l.Like D l')
    (bs : List Builtin) :
    Instance.isAny ⟨l, ∅, [], []⟩ bs = Instance.isAny ⟨l', ∅, [], []⟩ bs := by
  have hisA : Instance.isA ⟨l, ∅, [], []⟩ = Instance.isA ⟨l', ∅, [], []⟩ := by
    funext b
    unfold Instance.isA
    induction h with
    | nil => rfl
    | cons hv _ ih =>
      dsimp only at ih ⊢
      rw [any_cons, any_cons, hv.address, ih]
  rw [Instance.isAny, Instance.isAny, hisA]

namespace Library

variable {files files' : Files} {searched : List Route} {a : Address} {l l' : Layer}

/-- A layer goes back to one built-in block, and no other block in it is a built-in one. -/
theorem IsLayer.exists_builtin (h : IsLayer files searched a l) :
    ∃ b : Builtin, ∀ c : Builtin, (l.any fun v => v.address == c.address) =
      b.layer.any fun v => v.address == c.address := by
  induction h with
  | @builtin _ b _ => exact ⟨b, fun _ => rfl⟩
  | @block a _ d _ _ ha hd _ _ _ ih =>
    obtain ⟨b, hb⟩ := ih
    refine ⟨b, fun c => ?_⟩
    have hne : d.address ≠ c.address := by
      rw [(sound_of_defined hd).2]
      rintro rfl
      revert ha
      cases c <;> decide
    rw [any_cons, hb, beq_eq_false_iff_ne.2 hne, Bool.false_or]

theorem IsLayer.apart (h : IsLayer files searched a l)
    (hl : Instance.isAny ⟨l, ∅, [], []⟩ [.pin, .signal] = true) :
    Instance.isAny ⟨l, ∅, [], []⟩ [.interface] = false := by
  obtain ⟨b, hb⟩ := h.exists_builtin
  simp only [Instance.isAny, any_cons, any_nil, Instance.isA, hb] at hl ⊢
  revert hl
  cases b <;> decide

theorem turned_placed (h : IsLayer files searched a l) (hlike : l.Like Definition.Turned l') :
    Instance.Turned ⟨l, ∅, [], []⟩ ⟨l', ∅, [], []⟩ where
  terminal := hlike.isAny _
  interface := hlike.isAny _
  apart := h.apart
  children := .nil
  links := .nil

def turned (hfiles : files.Turned files') (searched : List Route) : Comparison where
  files
  files'
  searched
  definitions := Definition.Turned
  instances := Instance.Turned
  exists_defined := exists_defined_turned hfiles
  address h := h.scope.address
  base h := h.base
  lookup h := lookupIn_alike h.closure
  values h := h.values
  replacements h := h.replacements
  placed h _ hlike := turned_placed h hlike
  child n h := ⟨h.terminal, h.interface, h.apart, perm_withChild h.children n, h.links⟩
  override _ _ h := ⟨h.terminal, h.interface, h.apart, h.children, h.links⟩
  link _ _ _ _ h := ⟨h.terminal, h.interface, h.apart, h.children,
    rel_append h.links (.cons (.inl rfl) .nil)⟩

end Library

/-! ### The two sides of a connection -/

namespace Library

variable {files files' : Files} {searched : List Route} {lib lib' s t : Library} {a here : Address}
  {x y : Side} {d d' : Definition} {extension : Nat}
  {create : Address → Layer → Work Library Unit} {left right : Connectable} {mark : Token}

theorem side_eq_ok {file : String} {k : Connectable} :
    (side file here k).outcome lib = (.ok a, lib') ↔ ∃ x, k.read file = .ok x ∧
      a = x.address here ∧ lib' = lib.withSide here x := by
  rw [side_eq, make, ofExcept_bind_eq_ok]
  simp only [outcome_modify_bind, outcome_pure, Prod.mk.injEq, Except.ok.injEq]
  refine exists_congr fun x => and_congr_right fun _ => and_congr ?_ ?_ <;> exact eq_comm

def withLink (here : Address) (x y : Side) (pos : Pos) (lib : Library) : Library :=
  { lib with instances := lib.instances.modify here fun i =>
      { i with links := i.links ++ [⟨x.address here, y.address here, pos⟩] } }

/-- A connection links what its sides refer to, if that stands once both have made what they
make. -/
theorem connect_eq_ok :
    (statement extension create here d (.connect left mark right)).outcome lib = (.ok (), lib') ↔
      ∃ x y, left.read d.path = .ok x ∧ right.read d.path = .ok y ∧
        (∃ i, ((lib.withSide here x).withSide here y).instances.get? (x.address here) = some i) ∧
        (∃ i, ((lib.withSide here x).withSide here y).instances.get? (y.address here) = some i) ∧
        lib' = ((lib.withSide here x).withSide here y).withLink here x y
          (Simple.connect left mark right).start.pos := by
  unfold statement
  dsimp only
  constructor
  · intro h
    obtain ⟨source, lib₁, hsource, h⟩ := bind_eq_ok.1 h
    obtain ⟨target, lib₂, htarget, h⟩ := bind_eq_ok.1 h
    obtain ⟨x, hx, rfl, rfl⟩ := side_eq_ok.1 hsource
    obtain ⟨y, hy, rfl, rfl⟩ := side_eq_ok.1 htarget
    obtain ⟨_, _, hpresent, h⟩ := bind_eq_ok.1 h
    obtain ⟨rfl, hi⟩ := present_eq_ok.1 hpresent
    obtain ⟨_, _, hpresent, h⟩ := bind_eq_ok.1 h
    obtain ⟨rfl, hj⟩ := present_eq_ok.1 hpresent
    cases h
    exact ⟨x, y, hx, hy, hi, hj, rfl⟩
  · rintro ⟨x, y, hx, hy, hi, hj, rfl⟩
    refine bind_eq_ok.2 ⟨_, _, side_eq_ok.2 ⟨x, hx, rfl, rfl⟩, ?_⟩
    refine bind_eq_ok.2 ⟨_, _, side_eq_ok.2 ⟨y, hy, rfl, rfl⟩, ?_⟩
    refine bind_eq_ok.2 ⟨(), _, present_eq_ok.2 ⟨rfl, hi⟩, ?_⟩
    exact bind_eq_ok.2 ⟨(), _, present_eq_ok.2 ⟨rfl, hj⟩, rfl⟩

section

variable {hfiles : files.Turned files'}

theorem turned_leaves {b b' : Builtin} (hb : b = .pin ∨ b = .signal)
    (hb' : b' = .pin ∨ b' = .signal) :
    Instance.Turned ⟨b.layer, ∅, [], []⟩ ⟨b'.layer, ∅, [], []⟩ := by
  refine ⟨?_, ?_, fun _ => ?_, .nil, .nil⟩ <;> rcases hb with rfl | rfl <;>
    rcases hb' with rfl | rfl <;> decide

/-- Two pins or signals that are placed in either order. If they have the same name, the last one
stays, and both are pins or signals. -/
theorem matches_leaves (h : s.instances.Matches (fun _ => Instance.Turned) t.instances)
    {b b' : Builtin} (hb : b = .pin ∨ b = .signal) (hb' : b' = .pin ∨ b' = .signal)
    (here : Address) (m n : String) :
    ((s.place (some here) (here.addInstance m) ⟨b.layer, ∅, [], []⟩).place (some here)
        (here.addInstance n) ⟨b'.layer, ∅, [], []⟩).instances.Matches (fun _ => Instance.Turned)
      ((t.place (some here) (here.addInstance n) ⟨b'.layer, ∅, [], []⟩).place (some here)
        (here.addInstance m) ⟨b.layer, ∅, [], []⟩).instances := by
  intro k
  simp only [get?_place _ (Address.Below.refl (here.addInstance m)).ne_of_child,
    get?_place _ (Address.Below.refl (here.addInstance n)).ne_of_child, if_true]
  have hk := h here
  split
  · generalize s.instances.get? here = i at hk
    generalize t.instances.get? here = j at hk
    cases hk with
    | none => exact .none
    | some hij =>
      refine .some ⟨hij.terminal, hij.interface, hij.apart, ?_, hij.links⟩
      exact (withChild_comm _ _ _).trans (perm_withChild (perm_withChild hij.children _) _)
  · by_cases hm : k = here.addInstance m <;> by_cases hn : k = here.addInstance n
    · rw [if_pos hn, if_pos hm]
      exact .some (turned_leaves hb' hb)
    · rw [if_pos hm, if_pos hm, if_neg hn]
      exact .some (turned_leaves hb hb)
    · rw [if_pos hn, if_pos hn, if_neg hm]
      exact .some (turned_leaves hb' hb')
    · rw [if_neg hn, if_neg hm, if_neg hm, if_neg hn]
      exact h k

/-- It makes no difference which side of a connection is looked at first. -/
theorem like_withSide (h : (turned hfiles searched).Like s t) (here : Address) (x y : Side) :
    (turned hfiles searched).Like ((s.withSide here x).withSide here y)
      ((t.withSide here y).withSide here x) := by
  have hlibraries := (turned hfiles searched).pointwise
  cases x with
  | path p =>
    cases y with
    | path q => exact h
    | leaf b hb n => exact hlibraries.place h (some here) _ (Comparison.layers_builtin _ b)
  | leaf b hb m =>
    cases y with
    | path q => exact hlibraries.place h (some here) _ (Comparison.layers_builtin _ b)
    | leaf b' hb' n =>
      have hboth := hlibraries.congr h (matches_leaves h.instances hb hb' here m n) h.replaced
      exact hboth

theorem inStep_connect {left' right' : Connectable} {mark' : Token}
    (hleft : left.unplaced = right'.unplaced) (hright : right.unplaced = left'.unplaced) :
    Work.InStep (fun _ => True) (turned hfiles searched).Like (fun _ _ => True)
      (statement extension create here d (.connect left mark right))
      (statement extension create here d' (.connect left' mark' right')) := by
  refine Work.Mirrored.inStep fun s t h _ s' hs => ?_
  obtain ⟨x, y, hx, hy, hi, hj, rfl⟩ := connect_eq_ok.1 hs
  have hsides := like_withSide h here x y
  have hthere : ∀ {k : Address}, (∃ i, ((s.withSide here x).withSide here y).instances.get? k =
      some i) → ∃ i, ((t.withSide here y).withSide here x).instances.get? k = some i := by
    rintro k ⟨i, hi⟩
    obtain ⟨j, hj, -⟩ := hsides.instances.exists_get? hi
    exact ⟨j, hj⟩
  refine ⟨(), _, connect_eq_ok.2 ⟨y, x, (Connectable.read_sameOk hright _ _).ok hy,
    (Connectable.read_sameOk hleft _ _).ok hx, hthere hj, hthere hi, rfl⟩, ?_, trivial⟩
  refine Pointwise.modify (Comparison.pointwise _) hsides here fun i j hij => ?_
  exact ⟨hij.terminal, hij.interface, hij.apart, hij.children,
    rel_append hij.links (.cons (.inr rfl) .nil)⟩

end

/-- The statements of turned bodies go in step. -/
theorem states_turned (hfiles : files.Turned files') (searched : List Route) :
    (turned hfiles searched).States := by
  intro extension create here d d' hcreate hd
  refine Work.Along.forM₂ (hd.body.simplesOf.imp fun v v' hv => ?_)
  rcases hv with hv | hv
  · exact Comparison.inStep_statement hcreate here hd hv
  · cases v with
    | connect left mark right =>
      cases v' with
      | connect left' mark' right' =>
        obtain ⟨hright, -, hleft⟩ := Simple.connect.inj hv
        exact inStep_connect hleft hright
      | _ => cases hv
    | _ => exact Comparison.inStep_statement hcreate here hd hv

end Library

end Boardwright
