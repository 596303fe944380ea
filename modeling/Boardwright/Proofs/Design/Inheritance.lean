import Boardwright.Proofs.Design.Concatenation
import Boardwright.Proofs.Design.Requires
import Boardwright.Proofs.Design.Whole

/-!
# Inheritance is concatenation

A block that extends another one makes the same tree as the one block that has the statements of
both, those of the extended block first: `treeWithin_concatenated`. The three ways in which a block
takes precedence over the one that it extends, in its attributes, in the types that it replaces
and in the order of its statements, agree in this.

The tree of the extending block is first moved to the address of the other one, which changes
nothing else. Then the two blocks are made at the same address in two libraries that are `Retold`:
the libraries hold the same, apart from what the root is made of, the positions of links, and the
layers that are known.
-/

namespace Boardwright

open Syntax List Work Option Layer

/-- Instances under the same address that are the same, apart from the positions of links and,
at the root, from what they are made of. -/
structure Instance.Retold (root : Address) (l l' : Layer) (k : Address) (i j : Instance) :
    Prop where
  levels : i.levels = j.levels ∨ k = root ∧ i.levels = l ∧ j.levels = l'
  override : i.override = j.override
  children : i.children = j.children
  links : i.links.map Link.ends = j.links.map Link.ends

/-- Instances that say the same, one seen from `c` and the other from `a`: they have the same
children in the same order, each attribute has the same value, and their links are between the
same paths in the same order. -/
structure Instance.Agrees (c a : Address) (i j : Instance) : Prop where
  children : i.children = j.children
  attributes : ∀ key, i.get? key = j.get? key
  links : ∃ ks : List (List String × List String), (∀ k ∈ ks, AreNames k.1 ∧ AreNames k.2) ∧
    i.links.map Link.ends = ks.map (fun k => (c.addInstances k.1, c.addInstances k.2)) ∧
      j.links.map Link.ends = ks.map fun k => (a.addInstances k.1, a.addInstances k.2)

namespace Library

variable {files : Files} {searched : List Route} {more extension extension' depth : Nat}
  {root : Address} {l l' rest : Layer} {s s' t t' : Library} {d e m : Definition}
  {q : List String} {n : String}

/-! ### Libraries that are the same apart from the root -/

/-- Libraries of the same files that hold the same, apart from what the root is made of, the
positions of links, and the layers that are known. -/
structure Retold (files : Files) (searched : List Route) (more : Nat) (root : Address)
    (l l' : Layer) (s t : Library) : Prop where
  alongside : Alongside files searched (fun _ => False) more s t
  instances : s.instances.Matches (Instance.Retold root l l') t.instances
  replaced : s.replaced.AgreeOn root.Below t.replaced

theorem eq_of_replaces {r r' : Option (Definition × Replacement)} {x x' : Option Address}
    (h : Option.Rel Replaces r x) (h' : Option.Rel Replaces r' x')
    (hsame : r'.map (fun r => r.1.lookup r.2.block) = r.map fun r => r.1.lookup r.2.block) :
    x = x' := by
  cases h with
  | none => cases h' with
    | none => rfl
    | some _ => cases hsame
  | some hx => cases h' with
    | none => cases hsame
    | some hx' =>
      have hlookup := hx'.symm.trans ((Option.some.inj hsame).trans hx)
      rw [Except.ok.inj hlookup]

namespace Retold

theorem congr (h : Retold files searched more root l l' s t) {i i' : Table Address Instance}
    {b b' : Table Address Address} (hi : i.Matches (Instance.Retold root l l') i')
    (hb : b.AgreeOn root.Below b') :
    Retold files searched more root l l' { s with instances := i, replaced := b }
      { t with instances := i', replaced := b' } :=
  ⟨h.alongside.congr nofun nofun, hi, hb⟩

theorem modify (h : Retold files searched more root l l' s t) (k : Address)
    {f g : Instance → Instance}
    (hfg : ∀ i j, i.Retold root l l' k j → (f i).Retold root l l' k (g j)) :
    Retold files searched more root l l' { s with instances := s.instances.modify k f }
      { t with instances := t.instances.modify k g } :=
  h.congr (h.instances.modify hfg) h.replaced

/-- A new child in both libraries. -/
theorem place (h : Retold files searched more root l l' s t) (p a : Address) (levels : Layer) :
    Retold files searched more root l l' (s.place (some p) a ⟨levels, ∅, [], []⟩)
      (t.place (some p) a ⟨levels, ∅, [], []⟩) := by
  have hnew : Instance.Retold root l l' a ⟨levels, ∅, [], []⟩ ⟨levels, ∅, [], []⟩ :=
    ⟨.inl rfl, rfl, rfl, rfl⟩
  refine (h.congr (h.instances.set hnew) h.replaced).modify p fun i j hij => ?_
  rw [hij.children]
  split
  · exact hij
  · exact ⟨hij.levels, hij.override, rfl, hij.links⟩

theorem placeRoot (h : Retold files searched more root l l' s t) :
    Retold files searched more root l l' (s.place none root ⟨l, ∅, [], []⟩)
      (t.place none root ⟨l', ∅, [], []⟩) :=
  h.congr (h.instances.set ⟨.inr ⟨rfl, rfl, rfl⟩, rfl, rfl, rfl⟩) h.replaced

theorem mirrored_layerWithin (extension : Nat) (x : Address) :
    Mirrored (Retold files searched more root l l') (fun v v' => v = v' ∧ Layer.Sound v)
      (layerWithin extension x) (layerWithin (extension + more) x) := by
  intro s t h v s' hv
  obtain ⟨v', t', hv', hside, rfl, hlayer⟩ :=
    (Alongside.inStep_layerWithin extension x).exists_ok h.alongside hv
  obtain ⟨hsi, hsr⟩ := frame_layerWithin hv
  obtain ⟨hti, htr⟩ := frame_layerWithin hv'
  refine ⟨v, t', hv', ⟨hside, ?_, ?_⟩, rfl, hlayer.sound⟩
  · rw [hsi, hti]
    exact h.instances
  · rw [hsr, htr]
    exact h.replaced

theorem mirrored_present (a : Address) (p p' : String × Pos) :
    Mirrored (Retold files searched more root l l') (fun _ _ => True) (present p.1 p.2 a)
      (present p'.1 p'.2 a) := by
  intro s t h u s' hs
  obtain ⟨rfl, i, hi⟩ := present_eq_ok.1 hs
  obtain ⟨j, hj, -⟩ := h.instances.exists_get? hi
  exact ⟨(), t, present_eq_ok.2 ⟨rfl, j, hj⟩, h, trivial⟩

/-- The libraries stay the same apart from the root while instances are made below it. -/
theorem coupled (files : Files) (searched : List Route) (more extension : Nat) (root : Address)
    (l l' : Layer) :
    Coupled (fun _ => True) Eq (fun _ _ => True) IsName (fun x y => x = y ∧ root.Below x) Same
      (Retold files searched more root l l') extension (extension + more) where
  leeway := .all _
  below h hn := ⟨by rw [h.1], h.2.addInstance hn⟩
  builtin := Builtin.layer_same
  layer x := (mirrored_layerWithin extension x).inStep
  place h hP _ hl := by
    rw [hP.1, hl.1]
    exact h.place _ _ _
  present hP _ := by
    rw [hP.1]
    exact (mirrored_present _ _ _).inStep
  override name value h hP := by
    rw [hP.1]
    exact h.modify _ fun i j hij => ⟨hij.levels, by rw [hij.override], hij.children, hij.links⟩
  link h hP hu hv _ := by
    rw [hP.1, hu.1, hv.1]
    exact h.modify _ fun i j hij =>
      ⟨hij.levels, hij.override, hij.children, by simp [hij.links, Link.ends]⟩
  forget he := absurd trivial he
  replaced h hP _ hq := by
    rw [← hP.1]
    exact h.replaced _ (hP.2.addInstances hq)
  ask b h hP := by
    rw [hP.1]
    exact h.congr h.instances (h.replaced.set _ b)
  drop h hP := by
    rw [hP.1]
    exact h.congr h.instances (h.replaced.erase _)

theorem inStep_child (depth : Nat) (hn : IsName n) {v v' : Layer} (hv : Same v v') :
    InStep (fun _ => True) (Retold files searched more root l l') (fun _ _ => True)
      (createWithin extension depth (some root) (root.addInstance n) v)
      (createWithin (extension + more) depth (some root) (root.addInstance n) v') := by
  refine (coupled files searched more extension root l l').along_createWithin
    (fun _ _ => Same.coupled fun _ => trivial) depth
    ⟨rfl, (Address.Below.refl root).addInstance hn⟩ hv fun _ _ h => ?_
  rw [hv.1]
  exact h.place _ _ v'

/-! ### The root -/

/-- Statements are worked on for the root in step with the same statements that stand
elsewhere. -/
theorem inStep_statements (hclosure : d.closure = m.closure) {vs vs' : List Simple}
    (hvs : vs.map Simple.unplaced = vs'.map Simple.unplaced) (hsound : ∀ v ∈ vs, v.Sound) :
    InStep (fun _ => True) (Retold files searched more root l l') (fun _ _ => True)
      (vs.forM (statement extension (createWithin extension depth (some root)) root d))
      (vs'.forM (statement (extension + more) (createWithin (extension + more) depth (some root))
        root m)) := by
  have hlookup : ∀ r, d.lookup r = m.lookup r := fun r => by
    rw [Definition.lookup, Definition.lookup, hclosure]
  rw [← forall₂_eq_eq_eq, forall₂_map_left_iff, forall₂_map_right_iff] at hvs
  induction hvs with
  | nil => exact .pure trivial
  | cons hv _ ih =>
    rw [forall_mem_cons] at hsound
    refine ((coupled files searched more extension root l l').along_statement ⟨rfl, .refl root⟩
      trivial (fun r => hlookup r ▸ .same _) trivial
      (Simple.deed_alike (fun _ => trivial) hv _ _) (Simple.Sound.named hsound.1 _)
      fun n _ _ hn hl => inStep_child depth hn hl).bind fun _ _ _ => ih hsound.2

theorem visits (h : Retold files searched more root l l' s t) (hm : m.Concatenates d e)
    {u v w : Level} (hu : u.definition = some m) (hv : v.definition = some d)
    (hw : w.definition = some e) (hsound : Layer.Sound (w :: v :: rest))
    (hok : ((w :: v :: rest).reverse.forM (visit extension (createWithin extension depth (some root))
      root)).outcome s = (.ok (), s')) :
    ∃ t', ((u :: rest).reverse.forM (visit (extension + more) (createWithin (extension + more) depth
      (some root)) root)).outcome t = (.ok (), t') ∧ Retold files searched more root l l' s' t' := by
  simp only [Spelled, forall_mem_cons] at hsound
  simp only [reverse_cons, append_assoc, forM_append_ok] at hok ⊢
  obtain ⟨s₁, hrest, s₂, hd, he⟩ := hok
  have hcoupled := Same.coupled (X := fun _ => True) (T := fun _ _ => True)
    (fun _ => trivial) ⟨rfl, hsound.2.2⟩
  obtain ⟨_, t₁, ht₁, h₁, -⟩ := (Along.forM₂ <| (rel_reverse hcoupled).imp fun v v' hv =>
    (coupled files searched more extension root l l').along_visit ⟨rfl, .refl root⟩ hv
      fun n _ _ hn hl => inStep_child depth hn hl).exists_ok h hrest
  obtain ⟨_, hd, hnil⟩ := forM_cons_ok.1 hd
  cases hnil
  obtain ⟨_, he, hnil⟩ := forM_cons_ok.1 he
  cases hnil
  -- the statements of the one block are cut where those of the two blocks meet
  obtain ⟨vs, vs', hbody, hvs, hvs'⟩ :=
    map_eq_append_iff.1 (hm.statements.trans (map_append ..))
  obtain ⟨_, t₂, ht₂, h₂, -⟩ := (inStep_statements hm.scopes.symm hvs.symm
    (hsound.2.1 d hv).statements).exists_ok h₁ ((visit_eq_ok _ hv).1 hd)
  obtain ⟨_, t₃, ht₃, h₃, -⟩ := (inStep_statements hm.scopes'.symm hvs'.symm
    (hsound.1 e hw).statements).exists_ok h₂ ((visit_eq_ok _ hw).1 he)
  refine ⟨t₃, ⟨t₁, ht₁, forM_cons_ok.2 ⟨t₃, (visit_eq_ok _ hu).2 ?_, rfl⟩⟩, h₃⟩
  rw [hbody]
  exact forM_append_ok.2 ⟨t₂, ht₂, ht₃⟩

theorem asked (h : Retold files searched more root l l' s t) (hs : s.replaced = ∅)
    (ht : t.replaced = ∅) (hl : Layer.Sound l) (hl' : Layer.Sound l')
    (hsame : ∀ path, (replacement? l' path).map (fun r => r.1.lookup r.2.block) =
      (replacement? l path).map fun r => r.1.lookup r.2.block) {as : List Address}
    (hask : (askReplacements root (replacementsIn l)).outcome s = (.ok as, s')) :
    ∃ as' t', (askReplacements root (replacementsIn l')).outcome t = (.ok as', t') ∧
      Retold files searched more root l l' s' t' := by
  have hknown := fun q hq => replaced_of_unknown (q := q) hl hq hask (by rw [hs]; rfl)
  have hask' : ∃ as' t', (askReplacements root (replacementsIn l')).outcome t = (.ok as', t') := by
    refine exists_asked fun path d r hfirst _ => ?_
    have hpath := (areNames_of_mem_replacementsIn hl' (mem_of_firstFor hfirst)).1
    rw [firstFor_replacementsIn] at hfirst
    obtain ⟨x, hx, hlookup⟩ := map_eq_some_iff.1 ((hsame path).symm.trans (by rw [hfirst]; rfl))
    have hrel := hknown path hpath
    rw [hx] at hrel
    generalize s'.replaced.get? (root.addInstances path) = b at hrel
    cases hrel with
    | some hb => exact ⟨_, hlookup.symm.trans hb⟩
  obtain ⟨as', t', hask'⟩ := hask'
  refine ⟨as', t', hask', ?_⟩
  rw [frame_askReplacements hask, frame_askReplacements hask']
  refine h.congr h.instances ?_
  rintro k ⟨q, hq, rfl⟩
  exact eq_of_replaces (hknown q hq) (replaced_of_unknown hl' hq hask' (by rw [ht]; rfl)) (hsame q)

theorem createRoot {u v w : Level} (hm : m.Concatenates d e) (hu : u.definition = some m)
    (hv : v.definition = some d) (hw : w.definition = some e)
    (h : Retold files searched more root (w :: v :: rest) (u :: rest) s t) (hs : s.replaced = ∅)
    (ht : t.replaced = ∅) (hl : Layer.Sound (w :: v :: rest)) (hl' : Layer.Sound (u :: rest))
    (hsame : ∀ path, (replacement? (u :: rest) path).map (fun r => r.1.lookup r.2.block) =
      (replacement? (w :: v :: rest) path).map fun r => r.1.lookup r.2.block)
    (hok : (createWithin extension depth none root (w :: v :: rest)).outcome s = (.ok (), s')) :
    ∃ t', (createWithin (extension + more) depth none root (u :: rest)).outcome t = (.ok (), t') ∧
      s'.instances.Matches (Instance.Retold root (w :: v :: rest) (u :: rest)) t'.instances := by
  cases depth with
  | zero => cases hok
  | succ depth =>
    obtain ⟨as, s₁, s₂, hask, hvisits, rfl⟩ := createWithin_eq_ok hok
    obtain ⟨as', t₁, hask', h₁⟩ := h.placeRoot.asked (by rw [replaced_place, hs])
      (by rw [replaced_place, ht]) hl hl' hsame hask
    obtain ⟨t₂, hvisits', h₂⟩ := h₁.visits hm hu hv hw hl hvisits
    exact ⟨_, createWithin_of_visits hask' hvisits', h₂.instances⟩

end Retold

/-! ### The same tree -/

/-- The tree below `c` in one library and the tree below `a` in another one say the same: the
same paths lead to instances below them, and where a path leads to are instances that agree. They
are made of the same levels, apart from the two roots. -/
structure AgreeingTree (s : Library) (c : Address) (t : Library) (a : Address) : Prop where
  leads : ∀ q, s.Leads c q ↔ t.Leads a q
  instances : ∀ q, s.Leads c q → ∃ i j, s.instances.get? (c.addInstances q) = some i ∧
    t.instances.get? (a.addInstances q) = some j ∧ i.Agrees c a j ∧
      (q ≠ [] → i.levels = j.levels)

/-- A block of the files that is no built-in one, and its definition. -/
structure IsBlock (files : Files) (searched : List Route) (a : Address) (d : Definition) :
    Prop where
  ofAddress? : Builtin.ofAddress? a = none
  defined : defined files searched a = some d

variable {a b b' c : Address}

theorem IsBlock.exists_layer (h : IsBlock files searched a d) (hl : IsLayer files searched a l) :
    ∃ base data rest, d.lookup d.base = .ok base ∧ d.values = .ok data ∧
      IsLayer files searched base rest ∧ l = ⟨d.address, some d, data⟩ :: rest := by
  cases hl with
  | builtin hb =>
    rw [h.ofAddress?] at hb
    cases hb
  | block ha hd hbase hdata hrest =>
    cases Option.some.inj (h.defined.symm.trans hd)
    exact ⟨_, _, _, hbase, hdata, hrest, rfl⟩

theorem IsBlock.replacements (h : IsBlock files searched a d) :
    d.replacements = replacementsOf d.body := by
  obtain ⟨_, -, hmakes⟩ := makes_of_defined h.defined
  exact hmakes.replacements

theorem exists_layers (ha : IsBlock files searched a d) (hb : IsBlock files searched b e)
    (hb' : IsBlock files searched b' m) (hbase : e.lookup e.base = .ok a) (hm : m.Concatenates d e)
    (hplain : blockNames e.body = []) (hl : IsLayer files searched b l) :
    ∃ u v w rest, u.definition = some m ∧ v.definition = some d ∧ w.definition = some e ∧
      l = w :: v :: rest ∧ IsLayer files searched b' (u :: rest) := by
  obtain ⟨_, data', _, hbase', hdata', hl, rfl⟩ := hb.exists_layer hl
  cases Except.ok.inj (hbase.symm.trans hbase')
  obtain ⟨base, data, rest, hbase, hdata, hrest, rfl⟩ := ha.exists_layer hl
  have hbody := hm.body_ne_nil (Definition.values_eq_iff.1 hdata').1 hplain
  obtain ⟨values, hvalues⟩ := hm.exists_values hdata hdata' hbody
  exact ⟨⟨m.address, some m, values⟩, _, _, rest, rfl, rfl, rfl, rfl,
    .block hb'.ofAddress? hb'.defined (hm.base.trans hbase) hvalues hrest⟩

theorem findSome?_concatenated {u v w : Level} (hm : m.Concatenates d e)
    (hu : u.definition = some m) (hv : v.definition = some d) (hw : w.definition = some e)
    (hl : Proper (w :: v :: rest)) (hl' : Proper (u :: rest)) (key : String) :
    (w :: v :: rest).findSome? (fun v => v.data.get? key) =
      (u :: rest).findSome? fun v => v.data.get? key := by
  rw [hl.findSome?_data, hl'.findSome?_data]
  simp only [Layer.sets, findSome?_cons, Level.sets, hu, hv, hw, bind_some, hm.sets]
  cases e.sets [] key <;> cases d.sets [] key <;> rfl

theorem leads_of_get? (h : ∀ k i, s.instances.get? k = some i →
    ∃ j, t.instances.get? k = some j ∧ i.children = j.children) (hq : s.Leads a q) :
    t.Leads a q := by
  induction hq with
  | here => exact .here
  | child _ hi hn ih =>
    obtain ⟨j, hj, hchildren⟩ := h _ _ hi
    exact ih.child hj (hchildren ▸ hn)

theorem addInstances_ne_self (a : Address) (hq : q ≠ []) : a.addInstances q ≠ a := by
  cases q with
  | nil => exact absurd rfl hq
  | cons n q =>
    intro he
    have hle := Address.length_le_addInstances (a.addInstance n) q
    rw [← Address.addInstances_cons, he] at hle
    exact absurd hle (Nat.not_le_of_lt (Address.length_lt_addInstance a n))

theorem SameTree.agreeingTree (h : SameTree s c t root)
    (hmatch : t.instances.Matches (Instance.Retold root l l') t'.instances)
    (hdata : ∀ key, l.findSome? (fun v => v.data.get? key) =
      l'.findSome? fun v => v.data.get? key) : AgreeingTree s c t' root := by
  constructor
  · intro q
    rw [h.leads q]
    constructor
    · refine leads_of_get? fun k i hi => ?_
      obtain ⟨j, hj, hij⟩ := hmatch.exists_get? hi
      exact ⟨j, hj, hij.children⟩
    · refine leads_of_get? fun k j hj => ?_
      obtain ⟨i, hi, hij⟩ := hmatch.exists_get?' hj
      exact ⟨i, hi, hij.children.symm⟩
  · intro q hq
    obtain ⟨i, j, hi, hj, halike, hget⟩ := h.instances q hq
    obtain ⟨j', hj', hjj'⟩ := hmatch.exists_get? hj
    obtain ⟨ks, hks, hlinks, hlinks'⟩ := halike.links
    refine ⟨i, j', hi, hj', ⟨halike.children.trans hjj'.children, fun key => ?_, ?_⟩, fun hne => ?_⟩
    · rw [hget key, Instance.get?, Instance.get?, hjj'.override]
      rcases hjj'.levels with hlevels | ⟨-, hlevels, hlevels'⟩
      · rw [hlevels]
      · rw [hlevels, hlevels', hdata key]
    · refine ⟨ks.map fun k => (k.1, k.2.1), ?_, ?_, ?_⟩
      · intro k hk
        obtain ⟨k', hk', rfl⟩ := mem_map.1 hk
        exact hks k' hk'
      · simp [hlinks, Function.comp_def, Link.between, Link.ends]
      · rw [← hjj'.links]
        simp [hlinks', Function.comp_def, Link.between, Link.ends]
    · rcases hjj'.levels with hlevels | ⟨hroot, -, -⟩
      · exact halike.levels.trans hlevels
      · exact absurd hroot (addInstances_ne_self root hne)

theorem createWithin_moved (hl : IsLayer files searched b l) (root : Address)
    {fresh made : Library} (hfresh : Settled files searched fresh) (hnone : fresh.instances = ∅)
    (hempty : fresh.replaced = ∅)
    (hok : (createWithin extension depth none b l).outcome fresh = (.ok (), made)) :
    ∃ moved, (createWithin extension depth none root l).outcome fresh = (.ok (), moved) ∧
      SameTree made b moved root := by
  have htwin : Twin files searched b root fresh fresh := by
    refine ⟨hfresh, hfresh, fun _ _ h => h, ?_, ?_⟩
    · rw [hnone]
      exact fun _ _ _ h => nomatch h
    · rw [hempty]
      exact fun _ _ _ => rfl
  have hplace : ∀ s t, Twin files searched b root s t →
      Twin files searched b root (s.place none b ⟨l, ∅, [], []⟩)
        (t.place none root ⟨l, ∅, [], []⟩) :=
    fun _ _ h => h.set areNames_nil l
  obtain ⟨_, moved, hmoved, htwin, -⟩ :=
    ((Twin.coupled files searched extension b root).along_createWithin
      (fun _ _ => Same.coupled fun _ => rfl) depth ⟨[], areNames_nil, rfl, rfl⟩
      ⟨rfl, hl.sound⟩ hplace).exists_ok htwin hok
  refine ⟨moved, hmoved, htwin.sameTree ?_⟩
  have hlevels := levels_of_createWithin hfresh hl.sound hok
  rw [← isSome_map, hlevels]
  rfl

/-- A layer and those that are looked for on the way to it are no longer than it is. -/
theorem length_le_of_layerWithin (hs : Settled files searched s)
    (hbound : ∀ x v, s.layers.get? x = some v → v.length ≤ more)
    (hl : IsLayer files searched a l) (hlength : l.length ≤ more)
    (h : (layerWithin depth a).outcome s = (.ok l, s')) :
    ∀ x v, s'.layers.get? x = some v → v.length ≤ more := by
  induction depth generalizing a l s s' with
  | zero => cases h
  | succ depth ih =>
    by_cases hknown : ∃ l, s.HasLayer a l
    · obtain ⟨l', hl'⟩ := hknown
      rw [layerWithin_of_hasLayer hl'] at h
      cases h
      exact hbound
    · obtain ⟨hb, hget⟩ := not_hasLayer hknown
      rw [outcome_layerWithin hb hget] at h
      obtain ⟨d, s₁, hd, h⟩ := bind_eq_ok.1 h
      obtain ⟨hs₁, hlayers, -⟩ := hs.definition hd
      obtain ⟨base, hbase, h⟩ := ofExcept_bind_eq_ok.1 h
      obtain ⟨rest, s₂, hrest, h⟩ := bind_eq_ok.1 h
      obtain ⟨data, hdata, h⟩ := ofExcept_bind_eq_ok.1 h
      cases h
      rw [← hlayers] at hbound
      have hrest' := (Settled.keeps_layerWithin files searched depth base).result hs₁ hrest
      have hbound' := ih hs₁ hbound hrest' (Nat.le_of_succ_le hlength) hrest
      intro x v hv
      dsimp only at hv
      rw [Table.get?_set] at hv
      split at hv
      · cases hv
        exact hlength
      · exact hbound' x v hv

theorem retold_of_layers (root : Address) (hl : IsLayer files searched b l)
    (hs : (layerWithin extension b).outcome { files, searched } = (.ok l, s))
    (ht : (layerWithin extension' b').outcome { files, searched } = (.ok l', t)) :
    Retold files searched l.length root l l' s t := by
  obtain ⟨hsettled, -, -⟩ := settled_fresh.layerWithin hs
  obtain ⟨hsettled', -, -⟩ := settled_fresh.layerWithin ht
  obtain ⟨hinstances, hreplaced⟩ := frame_layerWithin hs
  obtain ⟨hinstances', hreplaced'⟩ := frame_layerWithin ht
  refine ⟨⟨hsettled, hsettled', fun x v hx => .inr ?_, nofun, nofun⟩, ?_, ?_⟩
  · exact length_le_of_layerWithin settled_fresh nofun hl le_rfl hs x v hx
  · rw [hinstances, hinstances']
    exact fun _ => .none
  · rw [hreplaced, hreplaced']
    exact fun _ _ => rfl

/-- A block that extends another one makes the same tree as the one block that has the statements
of both, if the tree of the former can be made. The latter may have to look for more blocks that
extend one another, since the former knows two of them already. -/
theorem treeWithin_concatenated (ha : IsBlock files searched a d) (hb : IsBlock files searched b e)
    (hb' : IsBlock files searched b' m) (hbase : e.lookup e.base = .ok a) (hm : m.Concatenates d e)
    (hplain : blockNames e.body = []) :
    ∃ more, ∀ extension nesting made,
      (treeWithin extension nesting b).outcome { files, searched } = (.ok (), made) →
        ∃ made', (treeWithin (extension + more) nesting b').outcome { files, searched } =
          (.ok (), made') ∧ AgreeingTree made b made' b' := by
  by_cases hlayer : ∃ l, IsLayer files searched b l
  · obtain ⟨l, hl⟩ := hlayer
    obtain ⟨u, v, w, rest, hu, hv, hw, rfl, hl'⟩ := exists_layers ha hb hb' hbase hm hplain hl
    refine ⟨(w :: v :: rest).length, fun extension nesting made hok => ?_⟩
    obtain ⟨hc, -⟩ | ⟨-, l, s, hs, hcreate⟩ := treeWithin_eq_ok hok
    · cases hc
    have hkeep := Settled.keeps_layerWithin files searched extension b
    cases (hkeep.result settled_fresh hs).unique hl
    obtain ⟨hinstances, hreplaced⟩ := frame_layerWithin hs
    obtain ⟨moved, hmoved, hsame⟩ := createWithin_moved hl b' (hkeep.state settled_fresh hs)
      hinstances hreplaced hcreate
    obtain ⟨t, ht⟩ : ∃ t, (layerWithin (extension + (w :: v :: rest).length) b').outcome
        { files, searched } = (.ok (u :: rest), t) :=
      hl'.layerWithin settled_fresh (by simp; omega)
    have hretold := retold_of_layers b' hl hs ht
    obtain ⟨made', hmade', hmatch⟩ := hretold.createRoot hm hu hv hw hreplaced
      (frame_layerWithin ht).2 hl.sound hl'.sound (hm.lookup_replacement? hb'.replacements
        ha.replacements hb.replacements hu hv hw rest) hmoved
    refine ⟨made', ?_, hsame.agreeingTree hmatch
      (findSome?_concatenated hm hu hv hw hl.proper hl'.proper)⟩
    unfold treeWithin
    rw [if_neg (by simp [hl'.isRoot.isInstance_eq_false]), Work.outcome_get_bind, if_neg nofun]
    exact Work.bind_eq_ok.2 ⟨_, t, ht, hmade'⟩
  · refine ⟨0, fun extension nesting made hok => ?_⟩
    obtain ⟨hc, -⟩ | ⟨-, l, s, hs, -⟩ := treeWithin_eq_ok hok
    · cases hc
    · exact absurd ⟨l, (Settled.keeps_layerWithin files searched extension b).result settled_fresh
        hs⟩ hlayer

/-- A module that extends another one and replaces the type of a child of it, and a module with
the statements of both. -/
def concatenated : Files where
  texts := ⟨[(["f"], "module D:pin 1\nmodule A:x=new MODULE\nmodule B from A:x->D\nmodule E:x=new MODULE;x->D\n")]⟩

/-- The definitions of the three modules. -/
theorem exists_concatenated :
    ∃ d e m, IsBlock concatenated [] ⟨"f:A"⟩ d ∧ IsBlock concatenated [] ⟨"f:B"⟩ e ∧
      IsBlock concatenated [] ⟨"f:E"⟩ m ∧ e.lookup e.base = .ok ⟨"f:A"⟩ ∧ m.Concatenates d e ∧
      blockNames e.body = [] := by
  have hfacts : ((defined concatenated [] ⟨"f:A"⟩).bind fun d =>
      (defined concatenated [] ⟨"f:B"⟩).bind fun e => (defined concatenated [] ⟨"f:E"⟩).map fun m =>
        ((e.lookup e.base).toOption, blockNames e.body, decide (m.base = d.base),
          decide (m.closure = d.closure), decide (m.closure = e.closure),
          decide ((simplesOf m.body).map Simple.unplaced =
            (simplesOf d.body ++ simplesOf e.body).map Simple.unplaced))) =
      some (some ⟨"f:A"⟩, [], true, true, true, true) := by
    decide +kernel
  obtain ⟨d, hd, hfacts⟩ := bind_eq_some_iff.1 hfacts
  obtain ⟨e, he, hfacts⟩ := bind_eq_some_iff.1 hfacts
  obtain ⟨m, hm, hfacts⟩ := map_eq_some_iff.1 hfacts
  simp only [Prod.mk.injEq, decide_eq_true_eq] at hfacts
  obtain ⟨hbase, hplain, hsuper, hscopes, hscopes', hbody⟩ := hfacts
  have hlookup : m.lookup m.base = d.lookup d.base := by
    rw [Definition.lookup, Definition.lookup, hscopes, hsuper]
  exact ⟨d, e, m, ⟨by decide, hd⟩, ⟨by decide, he⟩, ⟨by decide, hm⟩,
    eq_ok_of_toOption hbase, ⟨hscopes, hscopes', hlookup, hbody⟩, hplain⟩

/-- The pin of the block that replaces the child stands below both modules. -/
theorem treeWithin_concatenated_retyped :
    ∃ d e m more made made', IsBlock concatenated [] ⟨"f:A"⟩ d ∧ IsBlock concatenated [] ⟨"f:B"⟩ e ∧
      IsBlock concatenated [] ⟨"f:E"⟩ m ∧ e.lookup e.base = .ok ⟨"f:A"⟩ ∧ m.Concatenates d e ∧
      blockNames e.body = [] ∧
      (treeWithin 3 2 ⟨"f:B"⟩).outcome { files := concatenated } = (.ok (), made) ∧
      (treeWithin (3 + more) 2 ⟨"f:E"⟩).outcome { files := concatenated } = (.ok (), made') ∧
      AgreeingTree made ⟨"f:B"⟩ made' ⟨"f:E"⟩ ∧ made'.Leads ⟨"f:E"⟩ ["x", "1"] := by
  obtain ⟨d, e, m, hd, he, hm, hbase, hconcat, hplain⟩ := exists_concatenated
  obtain ⟨more, htree⟩ := treeWithin_concatenated hd he hm hbase hconcat hplain
  have hfacts : (fun o : Except Failure Unit × Library => (o.1.toOption,
      (o.2.instances.get? ⟨"f:B"⟩).map Instance.children,
      (o.2.instances.get? (Address.addInstances ⟨"f:B"⟩ ["x"])).map Instance.children))
        ((treeWithin 3 2 ⟨"f:B"⟩).outcome { files := concatenated }) =
      (some (), some ["x"], some ["1"]) := by decide +kernel
  rcases hmade : (treeWithin 3 2 ⟨"f:B"⟩).outcome { files := concatenated } with ⟨r, made⟩
  rw [hmade] at hfacts
  simp only [Prod.mk.injEq, Option.map_eq_some_iff] at hfacts
  obtain ⟨hr, ⟨i, hi, hx⟩, j, hj, hpin⟩ := hfacts
  obtain rfl : r = .ok () := eq_ok_of_toOption hr
  obtain ⟨made', hmade', hagree⟩ := htree 3 2 made hmade
  refine ⟨d, e, m, more, made, made', hd, he, hm, hbase, hconcat, hplain, rfl, hmade', hagree,
    (hagree.leads _).1 ?_⟩
  exact (Leads.here.child hi (by simp [hx])).child hj (by simp [hpin])

end Library

end Boardwright
