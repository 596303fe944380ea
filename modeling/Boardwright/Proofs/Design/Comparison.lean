import Boardwright.Proofs.Design.Concatenation
import Boardwright.Proofs.Design.Whole

/-!
# Designs that are compared

Two lots of files describe the same design in other words. A `Comparison` says which of their
definitions and which instances count as the same, and that the parts of making an instance cannot
tell them apart. Then libraries of the two stay `Like` each other while the same is asked of both:
layers are made of the same definitions, the same instances stand under the same addresses, and
the same replacements are known.

Only the statements of a body are left open, since they may be written in other words or in another
order. If those of the same definitions go in step, so does the making of trees:
`Comparison.inStep_treeWithin`.
-/

namespace Boardwright

open Syntax List Table Work Option

variable {asked : List Address} {extension : Nat} {rs : List (Definition × Reference × Replacement)}

section

variable {D : Definition → Definition → Prop}

/-- Levels of definitions that count as the same, with the same attributes. -/
structure Level.Like (D : Definition → Definition → Prop) (v v' : Level) : Prop where
  address : v.address = v'.address
  data : v.data = v'.data
  definition : Option.Rel D v.definition v'.definition

def Layer.Like (D : Definition → Definition → Prop) (l l' : Layer) : Prop :=
  List.Forall₂ (Level.Like D) l l'

theorem Builtin.layer_like (b : Builtin) : Layer.Like D b.layer b.layer :=
  forall₂_same.2 fun v hv => ⟨rfl, rfl, by
    rw [Builtin.definition_of_mem_layer hv]
    exact .none⟩

theorem Builtin.isLayer (b : Builtin) (files : Files) (searched : List Route) :
    Library.IsLayer files searched b.address b.layer := by
  refine .builtin ?_
  cases b <;> decide

end

namespace Library

/-! ### What stands under each address -/

/-- A relation of libraries that is read off each address: the instances under it are related by `I`
and the replacements for it are the same. Instances stay related under what is done with them. -/
structure Pointwise (I : Instance → Instance → Prop) (L : Layer → Layer → Prop)
    (R : Library → Library → Prop) : Prop where
  instances : ∀ {s t}, R s t → s.instances.Matches (fun _ => I) t.instances
  replaced : ∀ {s t}, R s t → ∀ k, s.replaced.get? k = t.replaced.get? k
  congr : ∀ {s t i i' b b'}, R s t → i.Matches (fun _ => I) i' → (∀ k, b.get? k = b'.get? k) →
    R { s with instances := i, replaced := b } { t with instances := i', replaced := b' }
  placed : ∀ {l l'}, L l l' → I ⟨l, ∅, [], []⟩ ⟨l', ∅, [], []⟩
  child : ∀ {i j} n, I i j → I { i with children := withChild n i.children }
    { j with children := withChild n j.children }
  override : ∀ {i j} name value, I i j →
    I { i with override := i.override.set name value } { j with override := j.override.set name value }
  link : ∀ {i j} x y pos pos', I i j → I { i with links := i.links ++ [⟨x, y, pos⟩] }
    { j with links := j.links ++ [⟨x, y, pos'⟩] }

namespace Pointwise

variable {I : Instance → Instance → Prop} {L : Layer → Layer → Prop}
  {R : Library → Library → Prop} {s t : Library} {l l' : Layer} {X : Failure → Prop}
  {E : Failure → Failure → Prop} {T : String × Pos → String × Pos → Prop}

theorem modify (hR : Pointwise I L R) (h : R s t) (k : Address) {f g : Instance → Instance}
    (hfg : ∀ i j, I i j → I (f i) (g j)) : R { s with instances := s.instances.modify k f }
      { t with instances := t.instances.modify k g } :=
  hR.congr h ((hR.instances h).modify hfg) (hR.replaced h)

theorem place (hR : Pointwise I L R) (h : R s t) (parent : Option Address) (a : Address)
    (hl : L l l') : R (s.place parent a ⟨l, ∅, [], []⟩) (t.place parent a ⟨l', ∅, [], []⟩) := by
  have hset := hR.congr h ((hR.instances h).set (k := a) (hR.placed hl)) (hR.replaced h)
  cases parent with
  | none => exact hset
  | some p =>
    refine hR.modify hset p fun i j hij => ?_
    rw [ite_contains_children, ite_contains_children]
    exact hR.child _ hij

/-- Instances are made side by side under the same addresses, if layers are. -/
theorem coupled (hR : Pointwise I L R) (hX : Leeway X E T)
    (hbuiltin : ∀ b : Builtin, L b.layer b.layer)
    (hlayer : ∀ x, Along X E R L (layerWithin extension x)
      (layerWithin extension x)) : Coupled X E T (fun _ => True) Eq L R extension extension where
  leeway := hX
  below h _ := by rw [h]
  builtin := hbuiltin
  layer := hlayer
  place h hP _ hl := by
    rw [hP]
    exact hR.place h _ _ hl
  present hP hT := by
    refine hP ▸ Along.get.bind fun s t h => ?_
    rw [contains_eq_isSome, contains_eq_isSome, (hR.instances h).isSome]
    split
    · exact .pure trivial
    · exact (hX.located _ _ hT).elim (fun he _ _ _ => .excused he) .failed
  override name value h hP := by
    rw [hP]
    exact hR.modify h _ fun _ _ => hR.override name value
  link h hP hu hv _ := by
    rw [hP, hu, hv]
    exact hR.modify h _ fun _ _ => hR.link _ _ _ _
  forget _ h hP := by
    rw [hP]
    exact hR.congr h ((hR.instances h).erase _) (hR.replaced h)
  replaced h hP _ _ := by
    rw [hP]
    exact hR.replaced h _
  ask b h hP := by
    rw [hP]
    refine hR.congr h (hR.instances h) fun k => ?_
    rw [get?_set, get?_set, hR.replaced h]
  drop h hP := by
    rw [hP]
    refine hR.congr h (hR.instances h) fun k => ?_
    rw [get?_erase, get?_erase, hR.replaced h]

end Pointwise

/-! ### Two lots of files -/

/-- Two lots of files, and which of their definitions and instances count as the same. Each
definition of the first files has its counterpart; the same definitions declare the same; and
instances stay the same under what is done with them. -/
structure Comparison where
  files : Files
  files' : Files
  searched : List Route
  definitions : Definition → Definition → Prop
  instances : Instance → Instance → Prop
  exists_defined : ∀ {a d}, defined files searched a = some d →
    ∃ d', defined files' searched a = some d' ∧ definitions d d'
  address : ∀ {d d'}, definitions d d' → d.address = d'.address
  base : ∀ {d d'}, definitions d d' → d.base = d'.base
  lookup : ∀ {d d'}, definitions d d' → ∀ r, SameOk (d.lookup r) (d'.lookup r)
  values : ∀ {d d' data}, definitions d d' → d.values = .ok data → d'.values = .ok data
  replacements : ∀ {d d'}, definitions d d' → ∀ r,
    (d.replacements.get? r).map Replacement.block = (d'.replacements.get? r).map Replacement.block
  placed : ∀ {b b' l l'}, IsLayer files searched b l → IsLayer files' searched b' l' →
    Layer.Like definitions l l' → instances ⟨l, ∅, [], []⟩ ⟨l', ∅, [], []⟩
  child : ∀ {i j} n, instances i j → instances { i with children := withChild n i.children }
    { j with children := withChild n j.children }
  override : ∀ {i j} name value, instances i j →
    instances { i with override := i.override.set name value }
      { j with override := j.override.set name value }
  link : ∀ {i j} x y pos pos', instances i j →
    instances { i with links := i.links ++ [⟨x, y, pos⟩] }
      { j with links := j.links ++ [⟨x, y, pos'⟩] }

namespace Comparison

variable {c : Comparison} {s s' t t' : Library} {a : Address} {d d' : Definition} {l l' : Layer}

/-- Libraries of the two lots of files that hold the same. -/
structure Like (c : Comparison) (s t : Library) : Prop where
  settled : Settled c.files c.searched s
  settled' : Settled c.files' c.searched t
  layers : s.layers.Matches (fun _ => Layer.Like c.definitions) t.layers
  instances : s.instances.Matches (fun _ => c.instances) t.instances
  replaced : ∀ k, s.replaced.get? k = t.replaced.get? k

/-- A layer of the first files and one of the second files that count as the same. -/
structure Layers (c : Comparison) (l l' : Layer) : Prop where
  like : Layer.Like c.definitions l l'
  left : ∃ b, IsLayer c.files c.searched b l
  right : ∃ b, IsLayer c.files' c.searched b l'

theorem layers_builtin (c : Comparison) (b : Builtin) : c.Layers b.layer b.layer :=
  ⟨b.layer_like, ⟨_, b.isLayer _ _⟩, ⟨_, b.isLayer _ _⟩⟩

theorem Layers.sound (h : c.Layers l l') : Layer.Sound l ∧ Layer.Sound l' := by
  obtain ⟨-, ⟨_, hl⟩, ⟨_, hl'⟩⟩ := h
  exact ⟨hl.sound, hl'.sound⟩

theorem pointwise (c : Comparison) : Pointwise c.instances c.Layers c.Like where
  instances h := h.instances
  replaced h := h.replaced
  congr h hi hb := ⟨h.settled.congr _ _, h.settled'.congr _ _, h.layers, hi, hb⟩
  placed hl := by
    obtain ⟨hlike, ⟨_, hleft⟩, ⟨_, hright⟩⟩ := hl
    exact c.placed hleft hright hlike
  child := c.child
  override := c.override
  link := c.link

namespace Like

theorem fresh (c : Comparison) :
    c.Like { files := c.files, searched := c.searched }
      { files := c.files', searched := c.searched } :=
  ⟨settled_fresh, settled_fresh, fun _ => .none, fun _ => .none, fun _ => rfl⟩

/-! ### Definitions and layers -/

theorem exists_hasLayer (h : c.Like s t) {x : Address} (hl : s.HasLayer x l) :
    ∃ l', t.HasLayer x l' ∧ Layer.Like c.definitions l l' := by
  unfold HasLayer at hl ⊢
  split at hl
  · next b _ => exact ⟨l, hl, hl ▸ b.layer_like⟩
  · exact h.layers.exists_get? hl

theorem lookup_base (hd : c.definitions d d') (ha : d.lookup d.base = .ok a) :
    d'.lookup d'.base = .ok a := by
  rw [← c.base hd]
  exact (c.lookup hd d.base).ok ha

theorem setLayer (h : c.Like s t) {x base : Address} (hx : Builtin.ofAddress? x = none)
    (hsame : c.definitions d d') (hd : defined c.files c.searched x = some d)
    (hd' : defined c.files' c.searched x = some d') (hbase : d.lookup d.base = .ok base)
    {data : Table String Value} (hdata : d.values = .ok data) {rest rest' : Layer}
    (hrest : s.HasLayer base rest) (hrest' : t.HasLayer base rest')
    (hlike : Layer.Like c.definitions rest rest') :
    c.Like { s with layers := s.layers.set x (⟨d.address, some d, data⟩ :: rest) }
      { t with layers := t.layers.set x (⟨d'.address, some d', data⟩ :: rest') } where
  settled := (h.settled.setLayer hx hd hbase hdata hrest).1
  settled' := (h.settled'.setLayer hx hd' (lookup_base hsame hbase) (c.values hsame hdata) hrest').1
  layers := h.layers.set (.cons ⟨c.address hsame, rfl, .some hsame⟩ hlike)
  instances := h.instances
  replaced := h.replaced

theorem mirrored_definition (c : Comparison) (x : Address) :
    Mirrored c.Like c.definitions (definition x) (definition x) := by
  intro s t h d s' hd
  obtain ⟨hs', hlayers, hdef⟩ := h.settled.definition hd
  obtain ⟨d', hd', hsame⟩ := c.exists_defined ((hdef d).1 rfl)
  rcases ht : (definition x).outcome t with ⟨o, t'⟩
  obtain ⟨ht', hlayers', hdef'⟩ := h.settled'.definition ht
  obtain rfl := (hdef' d').2 hd'
  refine ⟨d', t', rfl, ⟨hs', ht', ?_, ?_, ?_⟩, hsame⟩
  · rw [hlayers, hlayers']
    exact h.layers
  · rw [(frame_definition hd).1, (frame_definition ht).1]
    exact h.instances
  · rw [(frame_definition hd).2, (frame_definition ht).2]
    exact h.replaced

theorem mirrored_layerWithin (c : Comparison) (depth : Nat) (x : Address) :
    Mirrored c.Like (Layer.Like c.definitions) (layerWithin depth x)
      (layerWithin depth x) := by
  induction depth generalizing x with
  | zero =>
    intro s t h l s' hl
    cases hl
  | succ depth ih =>
    intro s t h l s' hs
    by_cases hknown : ∃ l, s.HasLayer x l
    · obtain ⟨v, hv⟩ := hknown
      rw [layerWithin_of_hasLayer hv] at hs
      cases hs
      obtain ⟨l', hl', hlike⟩ := h.exists_hasLayer hv
      exact ⟨l', t, layerWithin_of_hasLayer hl', h, hlike⟩
    · obtain ⟨hb, hget⟩ := not_hasLayer hknown
      have hget' : t.layers.get? x = none := by
        have hsome := h.layers.isSome x
        rw [hget] at hsome
        exact isNone_iff_eq_none.1 (isSome_eq_false_iff.1 hsome.symm)
      rw [outcome_layerWithin hb hget] at hs
      rw [outcome_layerWithin hb hget']
      obtain ⟨d, s₁, hd, hs⟩ := bind_eq_ok.1 hs
      obtain ⟨base, hbase, hs⟩ := ofExcept_bind_eq_ok.1 hs
      obtain ⟨rest, s₂, hrest, hs⟩ := bind_eq_ok.1 hs
      obtain ⟨data, hdata, hs⟩ := ofExcept_bind_eq_ok.1 hs
      cases hs
      obtain ⟨d', t₁, hd', h₁, hsame⟩ := mirrored_definition c x s t h d s₁ hd
      obtain ⟨rest', t₂, hrest', h₂, hlike⟩ := ih base s₁ t₁ h₁ rest s₂ hrest
      have hlayer := h₂.setLayer hb hsame (((h.settled.definition hd).2.2 d).1 rfl)
        (((h.settled'.definition hd').2.2 d').1 rfl) hbase hdata
        ((h₁.settled.layerWithin hrest).2.2 rest rfl)
        ((h₁.settled'.layerWithin hrest').2.2 rest' rfl) hlike
      refine ⟨⟨d'.address, some d', data⟩ :: rest', _, ?_, hlayer,
        .cons ⟨c.address hsame, rfl, .some hsame⟩ hlike⟩
      refine bind_eq_ok.2 ⟨d', t₁, hd', ofExcept_bind_eq_ok.2 ⟨base, ?_, ?_⟩⟩
      · exact lookup_base hsame hbase
      · exact bind_eq_ok.2 ⟨rest', t₂, hrest',
          ofExcept_bind_eq_ok.2 ⟨data, c.values hsame hdata, rfl⟩⟩

theorem inStep_layerWithin (c : Comparison) (extension : Nat) (x : Address) :
    InStep (fun _ => True) c.Like c.Layers (layerWithin extension x)
      (layerWithin extension x) := by
  refine Mirrored.inStep fun s t h l s' hl => ?_
  obtain ⟨l', t', hl', h', hlike⟩ := mirrored_layerWithin c extension x s t h l s' hl
  refine ⟨l', t', hl', h', hlike, ⟨x, ?_⟩, ⟨x, ?_⟩⟩
  · exact (Settled.keeps_layerWithin c.files c.searched extension x).result h.settled hl
  · exact (Settled.keeps_layerWithin c.files' c.searched extension x).result h.settled' hl'

end Like

end Comparison

/-! ### Replacements -/

/-- The replacements that are made known are those that were not known before. -/
theorem asked_cases {s s' : Library} {a : Address}
    (h : (askReplacements a rs).outcome s = (.ok asked, s')) (k : Address) :
    (k ∈ asked ∧ (∃ r ∈ rs, k = a.addInstances r.2.1) ∧ s.replaced.get? k = none ∧
      (s'.replaced.get? k).isSome) ∨ k ∉ asked ∧ s'.replaced.get? k = s.replaced.get? k := by
  induction rs generalizing s asked with
  | nil =>
    cases h
    exact .inr ⟨not_mem_nil, rfl⟩
  | cons r rs ih =>
    rw [askReplacements, outcome_get_bind] at h
    split at h
    · rcases ih h with ⟨hk, ⟨r', hr', hkr⟩, hnone⟩ | hk
      · exact .inl ⟨hk, ⟨r', mem_cons_of_mem _ hr', hkr⟩, hnone⟩
      · exact .inr hk
    · next hc =>
        obtain ⟨b, -, hrest⟩ := ofExcept_bind_eq_ok.1 h
        rw [outcome_modify_bind] at hrest
        obtain ⟨more, _, hmore, hend⟩ := bind_eq_ok.1 hrest
        cases hend
        by_cases hkr : k = a.addInstances r.2.1
        · subst hkr
          refine .inl ⟨mem_cons_self, ⟨r, mem_cons_self, rfl⟩, ?_, ?_⟩
          · simpa [contains_eq_isSome] using hc
          · rcases ih hmore with ⟨-, -, hnone, -⟩ | ⟨-, hsame⟩
            · simp at hnone
            · simp [hsame]
        · have hother := ih hmore
          dsimp only at hother
          rw [get?_set_of_ne _ _ hkr] at hother
          rcases hother with ⟨hk, ⟨r', hr', hkr'⟩, hnone⟩ | ⟨hk, hsame⟩
          · exact .inl ⟨mem_cons_of_mem _ hk, ⟨r', mem_cons_of_mem _ hr', hkr'⟩, hnone⟩
          · exact .inr ⟨by simp [hkr, hk], hsame⟩

theorem mem_asked_iff {s s' : Library} {a : Address}
    (h : (askReplacements a rs).outcome s = (.ok asked, s')) {k : Address} :
    k ∈ asked ↔ s.replaced.get? k = none ∧ (s'.replaced.get? k).isSome := by
  rcases asked_cases h k with ⟨hk, -, hnew⟩ | ⟨hk, hsame⟩
  · exact ⟨fun _ => hnew, fun _ => hk⟩
  · rw [hsame]
    refine ⟨fun hk' => absurd hk' hk, fun ⟨hnone, hsome⟩ => ?_⟩
    rw [hnone] at hsome
    cases hsome

theorem eq_of_replaces_sameOk {r r' : Option (Definition × Replacement)} {x x' : Option Address}
    (hr : Option.Rel (fun r r' => SameOk (r.1.lookup r.2.block) (r'.1.lookup r'.2.block)) r r')
    (h : Option.Rel Replaces r x) (h' : Option.Rel Replaces r' x') : x = x' := by
  cases hr with
  | none =>
    cases h
    cases h'
    rfl
  | some hr =>
    cases h with
    | some hx =>
      cases h' with
      | some hx' => rw [Except.ok.inj ((hr.ok hx).symm.trans hx')]

namespace Comparison

variable {c : Comparison} {s s' t t' : Library} {a : Address} {d d' : Definition} {l l' : Layer}

theorem replacement? (h : Layer.Like c.definitions l l') (path : Reference) :
    Option.Rel (fun r r' => SameOk (r.1.lookup r.2.block) (r'.1.lookup r'.2.block))
      (Library.replacement? l path) (Library.replacement? l' path) := by
  induction h with
  | nil => exact .none
  | @cons v v' l l' hv _ ih =>
    rw [Library.replacement?_cons, Library.replacement?_cons]
    have hdef := hv.definition
    generalize v.definition = o at hdef
    generalize v'.definition = o' at hdef
    cases hdef with
    | none => exact ih
    | @some d d' hd =>
      have hblock := c.replacements hd path
      rw [bind_some, bind_some]
      cases hr : d.replacements.get? path with
      | none =>
        rw [hr, map_none, eq_comm, map_eq_none_iff] at hblock
        rwa [hblock]
      | some r =>
        rw [hr, map_some, eq_comm] at hblock
        obtain ⟨r', hr', hsame⟩ := map_eq_some_iff.1 hblock
        rw [hr']
        refine .some ?_
        rw [hsame]
        exact c.lookup hd r.block

namespace Like

theorem exists_asked (h : c.Like s t) (hl : c.Layers l l')
    (hask : (askReplacements a (replacementsIn l)).outcome s = (.ok asked, s')) :
    ∃ asked' t', (askReplacements a (replacementsIn l')).outcome t = (.ok asked', t') := by
  refine Library.exists_asked fun path d' r' hfirst hnone => ?_
  have hpath := (areNames_of_mem_replacementsIn hl.sound.2 (mem_of_firstFor hfirst)).1
  rw [← h.replaced] at hnone
  have hknown := replaced_of_unknown hl.sound.1 hpath hask hnone
  have hsame := replacement? hl.like path
  rw [firstFor_replacementsIn] at hfirst
  rw [hfirst] at hsame
  generalize Library.replacement? l path = r at hsame hknown
  generalize s'.replaced.get? (a.addInstances path) = b at hknown
  cases hsame with
  | some hsame =>
    cases hknown with
    | some hb => exact ⟨_, hsame.ok hb⟩

variable {asked' : List Address}

theorem ask (h : c.Like s t) (hl : c.Layers l l')
    (hask : (askReplacements a (replacementsIn l)).outcome s = (.ok asked, s'))
    (hask' : (askReplacements a (replacementsIn l')).outcome t = (.ok asked', t')) :
    c.Like s' t' := by
  rw [frame_askReplacements hask, frame_askReplacements hask']
  refine c.pointwise.congr h h.instances fun k => ?_
  have hnew : ∀ q, AreNames q → s.replaced.get? (a.addInstances q) = none →
      s'.replaced.get? (a.addInstances q) = t'.replaced.get? (a.addInstances q) := by
    intro q hq hnone
    have hnone' : t.replaced.get? (a.addInstances q) = none := by rw [← h.replaced, hnone]
    exact eq_of_replaces_sameOk (replacement? hl.like q)
      (replaced_of_unknown hl.sound.1 hq hask hnone)
      (replaced_of_unknown hl.sound.2 hq hask' hnone')
  -- an address that neither list is about keeps what was known of it
  rcases asked_cases hask k with ⟨-, ⟨r, hr, rfl⟩, hnone, -⟩ | ⟨-, hsame⟩
  · exact hnew _ (areNames_of_mem_replacementsIn hl.sound.1 hr).1 hnone
  · rcases asked_cases hask' k with ⟨-, ⟨r, hr, rfl⟩, hnone, -⟩ | ⟨-, hsame'⟩
    · exact hnew _ (areNames_of_mem_replacementsIn hl.sound.2 hr).1 ((h.replaced _).trans hnone)
    · rw [hsame, hsame', h.replaced]

theorem drop (h : c.Like s t) {s₁ t₁ : Library} (h₁ : c.Like s₁ t₁) {s₂ t₂ : Library}
    (h₂ : c.Like s₂ t₂) {rs' : List (Definition × Reference × Replacement)}
    (hask : (askReplacements a rs).outcome s = (.ok asked, s₁))
    (hask' : (askReplacements a rs').outcome t = (.ok asked', t₁)) :
    c.Like (dropReplacements asked s₂) (dropReplacements asked' t₂) := by
  refine c.pointwise.congr h₂ h₂.instances fun k => ?_
  have hmem : asked.contains k = asked'.contains k := by
    rw [Bool.eq_iff_iff, contains_iff_mem, contains_iff_mem, mem_asked_iff hask,
      mem_asked_iff hask', h.replaced, h₁.replaced]
  rw [get?_foldl_erase, get?_foldl_erase, hmem, h₂.replaced]

end Like

/-! ### Statements -/

/-- The libraries stay like each other under each step that instances are made in. -/
theorem coupled (c : Comparison) (extension : Nat) :
    Coupled (fun _ => True) Eq (fun _ _ => True) (fun _ => True) Eq c.Layers c.Like extension
      extension :=
  c.pointwise.coupled (.all _) c.layers_builtin (Like.inStep_layerWithin c extension)

/-- Children of layers that count as the same are made in step. -/
def Creates (c : Comparison) (create : Address → Layer → Work Library Unit) : Prop :=
  ∀ x l l', c.Layers l l' →
    InStep (fun _ => True) c.Like (fun _ _ => True) (create x l) (create x l')

/-- A statement and one that stands elsewhere do the same for an instance. -/
theorem inStep_statement {create : Address → Layer → Work Library Unit} (hcreate : c.Creates create)
    (here : Address) (hd : c.definitions d d') {v v' : Simple} (hv : v.unplaced = v'.unplaced) :
    InStep (fun _ => True) c.Like (fun _ _ => True) (statement extension create here d v)
      (statement extension create here d' v') :=
  (c.coupled extension).along_statement rfl trivial
    (fun r => (c.lookup hd r).accord fun _ _ => trivial) trivial
    (Simple.deed_alike (fun _ => trivial) hv _ _) (Deed.named_true _)
    fun _ l l' _ hl => hcreate _ l l' hl

/-! ### Trees -/

/-- The statements of definitions that count as the same go in step, if the making of children
does. -/
def States (c : Comparison) : Prop :=
  ∀ extension create here d d', c.Creates create → c.definitions d d' →
    InStep (fun _ => True) c.Like (fun _ _ => True)
      ((simplesOf d.body).forM (statement extension create here d))
      ((simplesOf d'.body).forM (statement extension create here d'))

theorem inStep_visit (hc : c.States) {depth : Nat} (here : Address)
    (hcreate : c.Creates (createWithin extension depth (some here))) {v v' : Level}
    (hv : v.Like c.definitions v') :
    InStep (fun _ => True) c.Like (fun _ _ => True)
      (visit extension (createWithin extension depth (some here)) here v)
      (visit extension (createWithin extension depth (some here)) here v') := by
  refine Mirrored.inStep fun s t h _ s' hs => ?_
  have hdef := hv.definition
  cases hd : v.definition with
  | none =>
    rw [hd] at hdef
    generalize hd' : v'.definition = o at hdef
    cases hdef
    unfold visit at hs ⊢
    rw [hd] at hs
    cases hs
    rw [hd']
    exact ⟨(), t, rfl, h, trivial⟩
  | some d =>
    rw [hd] at hdef
    generalize hd' : v'.definition = o at hdef
    cases hdef with
    | @some _ d' hsame =>
      obtain ⟨_, t', ht, h', -⟩ := (hc extension _ here d d' hcreate hsame).exists_ok h
        ((visit_eq_ok _ hd).1 hs)
      exact ⟨(), t', (visit_eq_ok _ hd').2 ht, h', trivial⟩

/-- An instance is made in both libraries, if it can be made in the first one. -/
theorem inStep_createWithin (hc : c.States) (extension depth : Nat) (parent : Option Address)
    (x : Address) (hl : c.Layers l l') :
    InStep (fun _ => True) c.Like (fun _ _ => True)
      (createWithin extension depth parent x l) (createWithin extension depth parent x l') := by
  induction depth generalizing parent x l l' with
  | zero => exact .throw _
  | succ depth ih =>
    refine Mirrored.inStep fun s t h _ s' hs => ?_
    obtain ⟨asked, s₁, s₂, hask, hvisits, rfl⟩ := createWithin_eq_ok hs
    have h₀ := c.pointwise.place h parent x hl
    -- the two lists of replacements may differ in their order, but not in what they make known
    obtain ⟨asked', t₁, hask'⟩ := h₀.exists_asked hl hask
    have h₁ := h₀.ask hl hask hask'
    have hlevels : List.Forall₂ (Level.Like c.definitions) l.reverse l'.reverse :=
      rel_reverse hl.like
    obtain ⟨_, t₂, hvisits', h₂, -⟩ := (Along.forM₂ (hlevels.imp fun v v' hv =>
      inStep_visit hc x (fun y l l' => ih (some x) y) hv)).exists_ok h₁ hvisits
    exact ⟨(), _, createWithin_of_visits hask' hvisits', h₀.drop h₁ h₂ hask hask', trivial⟩

theorem inStep_treeWithin (hc : c.States) (extension nesting : Nat) (x : Address) :
    InStep (fun _ => True) c.Like (fun _ _ => True) (treeWithin extension nesting x)
      (treeWithin extension nesting x) := by
  unfold treeWithin
  split
  · exact .throw _
  · refine Along.get.bind fun s t h => ?_
    rw [contains_eq_isSome, contains_eq_isSome, h.instances.isSome]
    split
    · exact .pure trivial
    · exact (Like.inStep_layerWithin c extension x).bind fun l l' hl =>
        inStep_createWithin hc extension nesting none x hl

end Comparison

end Library

end Boardwright
