import Boardwright.Proofs.Design.Alongside
import Boardwright.Proofs.Design.Coupled
import Boardwright.Proofs.Design.Progress

/-!
# An instance is the tree of its block

The tree of a block that is made by itself and an instance of the same block that is made as a
child of another one are the same apart from the addresses that they stand under, whatever the
library holds at that time: `createWithin_sameTree`.

The two are made in step. `Twin` relates the library in which the block is made by itself to
the one in which it is made as a child. It asks of each instance of the first that one stands
in the same place in the second and is `Alike`; the second may hold more, such as what an
earlier attempt has left behind. Each step keeps the two related, so whatever succeeds in the
first library succeeds in the second.
-/

namespace Boardwright

open Syntax List Table Option Address

/-! ### Trees that are the same -/

def Link.between (a : Address) (k : List String × List String × Pos) : Link :=
  ⟨a.addInstances k.1, a.addInstances k.2.1, k.2.2⟩

/-- Instances that are the same, one seen from `c` and the other from `a`: they are made of the
same levels, the same attributes were set, they have the same children in the same order, and
their links are between the same paths in the same order. -/
structure Instance.Alike (c a : Address) (i j : Instance) : Prop where
  levels : i.levels = j.levels
  override : i.override = j.override
  children : i.children = j.children
  links : ∃ ks : List (List String × List String × Pos),
    (∀ k ∈ ks, AreNames k.1 ∧ AreNames k.2.1) ∧
      i.links = ks.map (Link.between c) ∧ j.links = ks.map (Link.between a)

namespace Library

/-- The names of a path lead from an instance to one below it, from child to child. -/
inductive Leads (lib : Library) (a : Address) : List String → Prop
  | here : Leads lib a []
  | child {q : List String} {n : String} {i : Instance} (h : Leads lib a q)
    (hi : lib.instances.get? (a.addInstances q) = some i) (hn : n ∈ i.children) :
    Leads lib a (q ++ [n])

/-- The tree below `c` in one library and the tree below `a` in another one are the same: the
same paths lead to instances below them, and where a path leads to are instances that are
alike. -/
structure SameTree (s : Library) (c : Address) (t : Library) (a : Address) : Prop where
  leads : ∀ q, s.Leads c q ↔ t.Leads a q
  instances : ∀ q, s.Leads c q → ∃ i j, s.instances.get? (c.addInstances q) = some i ∧
    t.instances.get? (a.addInstances q) = some j ∧ i.Alike c a j ∧ ∀ key, i.get? key = j.get? key

variable {files : Files} {searched : List Route} {lib s s' t : Library} {a c p : Address}
  {q : List String} {n : String} {levels : Layer} {extension : Nat}

/-! ### Libraries in step -/

/-- Two libraries of the same files, of which the second holds below `a` what the first one
holds below `c`. -/
structure Twin (files : Files) (searched : List Route) (c a : Address) (s t : Library) :
    Prop where
  settled : Settled files searched s
  settled' : Settled files searched t
  layers : s.KnowsLayers t
  instances : ∀ q, AreNames q → ∀ i, s.instances.get? (c.addInstances q) = some i →
    (∃ j, t.instances.get? (a.addInstances q) = some j ∧ i.Alike c a j) ∧
      ∀ n ∈ i.children, IsName n ∧ (s.instances.get? (c.addInstances (q ++ [n]))).isSome
  replaced : ∀ q, AreNames q → q ≠ [] →
    s.replaced.get? (c.addInstances q) = t.replaced.get? (a.addInstances q)

theorem addInstances_ne {q' : List String} (hq : AreNames q) (hq' : AreNames q') (h : q' ≠ q)
    (a : Address) : a.addInstances q' ≠ a.addInstances q :=
  fun he => h (addInstances_injective hq' hq he)

namespace Twin

theorem set (h : Twin files searched c a s t) (hq : AreNames q) (levels : Layer) :
    Twin files searched c a
      { s with instances := s.instances.set (c.addInstances q) ⟨levels, ∅, [], []⟩ }
      { t with instances := t.instances.set (a.addInstances q) ⟨levels, ∅, [], []⟩ } := by
  refine ⟨h.settled.congr _ s.replaced, h.settled'.congr _ t.replaced, h.layers, ?_, h.replaced⟩
  intro q' hq' i hi
  dsimp only at hi ⊢
  by_cases hqq : q' = q
  · subst hqq
    rw [get?_set_self] at hi ⊢
    cases hi
    exact ⟨⟨_, rfl, rfl, rfl, rfl, [], by simp, rfl, rfl⟩, by simp⟩
  · rw [get?_set_of_ne _ _ (addInstances_ne hq hq' hqq c)] at hi
    rw [get?_set_of_ne _ _ (addInstances_ne hq hq' hqq a)]
    obtain ⟨hj, hchildren⟩ := h.instances q' hq' i hi
    refine ⟨hj, fun n hn => ⟨(hchildren n hn).1, ?_⟩⟩
    rw [get?_set]
    split
    · rfl
    · exact (hchildren n hn).2

theorem modify (h : Twin files searched c a s t) (hq : AreNames q) {f g : Instance → Instance}
    (hfg : ∀ i j, i.Alike c a j → (f i).Alike c a (g j))
    (hchildren : ∀ i, ∀ n ∈ (f i).children, n ∈ i.children ∨
      IsName n ∧ (s.instances.get? (c.addInstances (q ++ [n]))).isSome) :
    Twin files searched c a { s with instances := s.instances.modify (c.addInstances q) f }
      { t with instances := t.instances.modify (a.addInstances q) g } := by
  refine ⟨h.settled.congr _ s.replaced, h.settled'.congr _ t.replaced, h.layers, ?_, h.replaced⟩
  have hsome : ∀ k, (s.instances.get? k).isSome →
      ((s.instances.modify (c.addInstances q) f).get? k).isSome := by
    intro k hk
    rw [get?_modify]
    split
    · rwa [isSome_map]
    · exact hk
  intro q' hq' i hi
  dsimp only at hi ⊢
  by_cases hqq : q' = q
  · subst hqq
    rw [get?_modify_self] at hi ⊢
    obtain ⟨i', hi', rfl⟩ := map_eq_some_iff.1 hi
    obtain ⟨⟨j, hj, halike⟩, hold⟩ := h.instances q' hq' i' hi'
    rw [hj]
    refine ⟨⟨g j, rfl, hfg i' j halike⟩, fun n hn => ?_⟩
    have hn := (hchildren i' n hn).elim (hold n) id
    exact ⟨hn.1, hsome _ hn.2⟩
  · rw [get?_modify_of_ne _ _ (addInstances_ne hq hq' hqq c)] at hi
    rw [get?_modify_of_ne _ _ (addInstances_ne hq hq' hqq a)]
    obtain ⟨hj, hold⟩ := h.instances q' hq' i hi
    exact ⟨hj, fun n hn => ⟨(hold n hn).1, hsome _ (hold n hn).2⟩⟩

theorem place (h : Twin files searched c a s t) (hq : AreNames q) (hn : IsName n)
    (levels : Layer) :
    Twin files searched c a
      (s.place (some (c.addInstances q)) ((c.addInstances q).addInstance n) ⟨levels, ∅, [], []⟩)
      (t.place (some (a.addInstances q)) ((a.addInstances q).addInstance n)
        ⟨levels, ∅, [], []⟩) := by
  have hqn : AreNames (q ++ [n]) := hq.concat hn
  have hset := h.set hqn levels
  unfold Library.place
  dsimp only
  rw [name_addInstance _ hn, name_addInstance _ hn, ← addInstances_concat,
    ← addInstances_concat]
  refine hset.modify hq (fun i j hij => ?_) fun i m hm => ?_
  · rw [hij.children]
    split
    · exact hij
    · exact ⟨hij.levels, hij.override, rfl, hij.links⟩
  · split at hm
    · exact Or.inl hm
    · refine (mem_append.1 hm).imp id fun hm => ?_
      cases mem_singleton.1 hm
      exact ⟨hn, by simp⟩

theorem placeRoot (h : Twin files searched c (p.addInstance n) s t) (levels : Layer) :
    Twin files searched c (p.addInstance n) (s.place none c ⟨levels, ∅, [], []⟩)
      (t.place (some p) (p.addInstance n) ⟨levels, ∅, [], []⟩) := by
  have hset := h.set areNames_nil levels
  refine ⟨hset.settled, hset.settled'.congr _ t.replaced, hset.layers, ?_, hset.replaced⟩
  intro q hq i hi
  obtain ⟨hj, hchildren⟩ := hset.instances q hq i hi
  refine ⟨?_, hchildren⟩
  -- the parent has a shorter address than all that stands below the child
  have hne : (p.addInstance n).addInstances q ≠ p := by
    intro he
    have hlt := length_lt_addInstance p n
    have hle := length_le_addInstances (p.addInstance n) q
    rw [he] at hle
    exact absurd hle (Nat.not_le_of_lt hlt)
  unfold Library.place
  dsimp only
  rw [get?_modify_of_ne _ _ hne]
  exact hj

theorem override (h : Twin files searched c a s t) (hq : AreNames q) (name : String)
    (value : Value) :
    Twin files searched c a
      { s with instances := s.instances.modify (c.addInstances q) fun i =>
        { i with override := i.override.set name value } }
      { t with instances := t.instances.modify (a.addInstances q) fun i =>
        { i with override := i.override.set name value } } :=
  h.modify hq (fun _ _ hij => ⟨hij.levels, by rw [hij.override], hij.children, hij.links⟩)
    fun _ _ hn => Or.inl hn

theorem link (h : Twin files searched c a s t) (hq : AreNames q) {x y : List String}
    (hx : AreNames x) (hy : AreNames y) (pos : Pos) :
    Twin files searched c a
      { s with instances := s.instances.modify (c.addInstances q) fun i =>
        { i with links := i.links ++ [⟨c.addInstances x, c.addInstances y, pos⟩] } }
      { t with instances := t.instances.modify (a.addInstances q) fun i =>
        { i with links := i.links ++ [⟨a.addInstances x, a.addInstances y, pos⟩] } } := by
  refine h.modify hq (fun i j hij => ⟨hij.levels, hij.override, hij.children, ?_⟩) fun _ _ hn =>
    Or.inl hn
  obtain ⟨ks, hks, hi, hj⟩ := hij.links
  refine ⟨ks ++ [(x, y, pos)], ?_, ?_, ?_⟩
  · intro k hk
    rcases mem_append.1 hk with hk | hk
    · exact hks k hk
    · cases mem_singleton.1 hk
      exact ⟨hx, hy⟩
  · rw [map_append, ← hi]
    rfl
  · rw [map_append, ← hj]
    rfl

/-- A replacement that becomes known in both libraries, at the same place. -/
theorem replace (h : Twin files searched c a s t) (hq : AreNames q) (b : Address) :
    Twin files searched c a { s with replaced := s.replaced.set (c.addInstances q) b }
      { t with replaced := t.replaced.set (a.addInstances q) b } := by
  refine ⟨h.settled.congr s.instances _, h.settled'.congr t.instances _, h.layers, h.instances, ?_⟩
  intro q' hq' hne
  by_cases hqq : q' = q
  · subst hqq
    simp
  · dsimp only
    rw [get?_set_of_ne _ _ (addInstances_ne hq hq' hqq c),
      get?_set_of_ne _ _ (addInstances_ne hq hq' hqq a)]
    exact h.replaced q' hq' hne

theorem drop (h : Twin files searched c a s t) (hq : AreNames q) :
    Twin files searched c a { s with replaced := s.replaced.erase (c.addInstances q) }
      { t with replaced := t.replaced.erase (a.addInstances q) } := by
  refine ⟨h.settled.congr s.instances _, h.settled'.congr t.instances _, h.layers,
    h.instances, ?_⟩
  intro q' hq' hne
  dsimp only
  rw [get?_erase, get?_erase, h.replaced q' hq' hne]
  by_cases hqq : q' = q
  · simp [hqq]
  · simp [addInstances_ne hq hq' hqq]

end Twin

/-! ### Work in step -/

theorem mirrored_layerWithin (extension : Nat) (x : Address) :
    Work.Mirrored (Twin files searched c a) (fun l l' => l = l' ∧ Layer.Sound l)
      (layerWithin extension x) (layerWithin extension x) := by
  intro s t h l s' hl
  have hside : Alongside files searched (fun _ => False) 0 s t :=
    ⟨h.settled, h.settled', fun x l hl => .inl (h.layers x l hl), nofun, nofun⟩
  obtain ⟨l', t', hl', hside', rfl, hlayer⟩ :=
    (Alongside.inStep_layerWithin extension x).exists_ok hside hl
  obtain ⟨hsi, hsr⟩ := frame_layerWithin hl
  obtain ⟨hti, htr⟩ := frame_layerWithin hl'
  refine ⟨l, t', hl', ?_, rfl, hlayer.sound⟩
  refine ⟨hside'.settled, hside'.settled', hside'.knowsLayers, ?_, ?_⟩
  · rw [hsi, hti]
    exact h.instances
  · rw [hsr, htr]
    exact h.replaced

theorem mirrored_present (hq : AreNames q) (p p' : String × Pos) :
    Work.Mirrored (Twin files searched c a) (fun _ _ => True)
      (present p.1 p.2 (c.addInstances q)) (present p'.1 p'.2 (a.addInstances q)) := by
  intro s t h u s' hs
  obtain ⟨rfl, i, hi⟩ := present_eq_ok.1 hs
  obtain ⟨⟨j, hj, -⟩, -⟩ := h.instances q hq i hi
  exact ⟨(), t, present_eq_ok.2 ⟨rfl, j, hj⟩, h, trivial⟩

/-- Twins stay twins while an instance is made in both, as long as nothing fails. -/
theorem Twin.coupled (files : Files) (searched : List Route) (extension : Nat) (c a : Address) :
    Coupled (fun _ => True) Eq Eq IsName (SamePlace c a) Layer.Same (Twin files searched c a)
      extension extension where
  leeway := .all _
  below := .below
  builtin := Builtin.layer_same
  layer x := (mirrored_layerWithin extension x).inStep
  place h hP hn hl := by
    obtain ⟨q, hq, rfl, rfl⟩ := hP
    rw [hl.1]
    exact h.place hq hn _
  present hP _ := by
    obtain ⟨q, hq, rfl, rfl⟩ := hP
    exact (mirrored_present hq _ _).inStep
  override name value h hP := by
    obtain ⟨q, hq, rfl, rfl⟩ := hP
    exact h.override hq name value
  link h hP hu hv hT := by
    obtain ⟨q, hq, rfl, rfl⟩ := hP
    obtain ⟨x, hx, rfl, rfl⟩ := hu
    obtain ⟨y, hy, rfl, rfl⟩ := hv
    rw [hT]
    exact h.link hq hx hy _
  forget he := absurd trivial he
  replaced h hP hne hq' := by
    obtain ⟨q, hq, rfl, rfl⟩ := hP
    rw [← addInstances_append, ← addInstances_append]
    exact h.replaced _ (forall_mem_append.2 ⟨hq, hq'⟩) (append_ne_nil_of_right_ne_nil _ hne)
  ask b h hP := by
    obtain ⟨q, hq, rfl, rfl⟩ := hP
    exact h.replace hq b
  drop h hP := by
    obtain ⟨q, hq, rfl, rfl⟩ := hP
    exact h.drop hq

/-- Making an instance as a child goes along with making its block by itself. -/
theorem mirrored_createRoot (extension depth : Nat) (p : Address) (n : String)
    (hl : Layer.Sound levels) :
    Work.Mirrored (Twin files searched c (p.addInstance n)) (fun _ _ => True)
      (createWithin extension depth none c levels)
      (createWithin extension depth (some p) (p.addInstance n) levels) :=
  ((Twin.coupled files searched extension c (p.addInstance n)).along_createWithin
    (fun _ _ => Layer.Same.coupled fun _ => rfl) depth ⟨[], areNames_nil, rfl, rfl⟩ ⟨rfl, hl⟩
    fun _ _ h => h.placeRoot levels).mirrored

/-! ### The same tree -/

theorem Twin.exists_of_leads (h : Twin files searched c a s t)
    (hroot : (s.instances.get? c).isSome) (hq : s.Leads c q) :
    AreNames q ∧ ∃ i, s.instances.get? (c.addInstances q) = some i := by
  induction hq with
  | here => exact ⟨areNames_nil, isSome_iff_exists.1 hroot⟩
  | child _ hi hn ih =>
    obtain ⟨hname, hsome⟩ := (h.instances _ ih.1 _ hi).2 _ hn
    exact ⟨ih.1.concat hname, isSome_iff_exists.1 hsome⟩

theorem Twin.sameTree (h : Twin files searched c a s t) (hroot : (s.instances.get? c).isSome) :
    SameTree s c t a := by
  refine ⟨fun q => ⟨fun hq => ?_, fun hq => ?_⟩, fun q hq => ?_⟩
  · induction hq with
    | here => exact .here
    | child hq hi hn ih =>
      obtain ⟨⟨j, hj, halike⟩, -⟩ := h.instances _ (h.exists_of_leads hroot hq).1 _ hi
      exact ih.child hj (halike.children ▸ hn)
  · induction hq with
    | here => exact .here
    | child _ hj hn ih =>
      obtain ⟨hnames, i, hi⟩ := h.exists_of_leads hroot ih
      obtain ⟨⟨j, hj', halike⟩, -⟩ := h.instances _ hnames i hi
      cases Option.some.inj (hj.symm.trans hj')
      exact ih.child hi (halike.children ▸ hn)
  · obtain ⟨hnames, i, hi⟩ := h.exists_of_leads hroot hq
    obtain ⟨⟨j, hj, halike⟩, -⟩ := h.instances q hnames i hi
    refine ⟨i, j, hi, hj, halike, fun key => ?_⟩
    unfold Instance.get?
    rw [halike.levels, halike.override]

/-- If the tree of a block can be made in a fresh library, then an instance of the block can be
made as a child of any other one, in each library that work can pass through, unless a
replacement is known of something below the child; and it is the same tree. -/
theorem createWithin_sameTree {nesting : Nat} {alone : Library}
    (halone : (treeWithin extension nesting c).outcome { files, searched } = (.ok (), alone))
    (hlib : Underway files searched lib)
    (hfree : ∀ q, AreNames q → q ≠ [] →
      lib.replaced.get? ((p.addInstance n).addInstances q) = none) :
    ∃ within, (layerWithin extension c >>=
        createWithin extension nesting (some p) (p.addInstance n)).outcome lib = (.ok (), within) ∧
      SameTree alone c within (p.addInstance n) := by
  have hroot := contains_of_treeWithin settled_fresh halone
  have htwin : Twin files searched c (p.addInstance n) { files, searched } lib :=
    ⟨settled_fresh, hlib.settled, nofun, (fun _ _ _ h => nomatch h),
      fun q hq hne => (hfree q hq hne).symm⟩
  obtain ⟨hc, -⟩ | ⟨-, l, s, hl, hcreate⟩ := treeWithin_eq_ok halone
  · cases hc
  · obtain ⟨_, t, hl', htwin, rfl, hsound⟩ := mirrored_layerWithin extension c _ _ htwin l s hl
    obtain ⟨_, within, hwithin, htwin, -⟩ :=
      mirrored_createRoot extension nesting p n hsound s t htwin () alone hcreate
    exact ⟨within, Work.bind_eq_ok.2 ⟨l, t, hl', hwithin⟩, htwin.sameTree hroot⟩

/-- A module with a signal, and one with an instance of it. -/
def nested : Files where
  texts := ⟨[(["f"], "module C:\n  signal s\nmodule M:\n  x = new C\n")]⟩

/-- The instance is made again while its parent is, with the one of an earlier tree still
there. -/
theorem createWithin_sameTree_again :
    ∃ alone within, (treeWithin 2 2 ⟨"f:C"⟩).outcome { files := nested } = (.ok (), alone) ∧
      (layerWithin 2 ⟨"f:C"⟩ >>=
          createWithin 2 2 (some ⟨"f:M"⟩) (Address.addInstance ⟨"f:M"⟩ "x")).outcome
        (((treeWithin 2 3 ⟨"f:M"⟩).outcome { files := nested }).2.place none ⟨"f:M"⟩
          ⟨[], ∅, [], []⟩) = (.ok (), within) ∧
      SameTree alone ⟨"f:C"⟩ within (Address.addInstance ⟨"f:M"⟩ "x") ∧
      within.Leads (Address.addInstance ⟨"f:M"⟩ "x") ["s"] := by
  have halone := Work.outcome_eq_ok_of_toOption (w := treeWithin 2 2 ⟨"f:C"⟩)
    (s := { files := nested }) (x := ()) (by decide +kernel)
  have hlib : Underway nested [] _ :=
    (Underway.start (.tree .fresh 2 3 ⟨"f:M"⟩)).place none ⟨"f:M"⟩ []
  have hempty : ((treeWithin 2 3 ⟨"f:M"⟩).outcome { files := nested }).2.replaced = ∅ := by
    decide +kernel
  obtain ⟨within, hwithin, hsame⟩ := createWithin_sameTree (n := "x") (p := ⟨"f:M"⟩) halone hlib
    fun q _ _ => by
      rw [replaced_place, hempty]
      rfl
  have hchildren : (((treeWithin 2 2 ⟨"f:C"⟩).outcome { files := nested }).2.instances.get?
      ⟨"f:C"⟩).map Instance.children = some ["s"] := by decide +kernel
  obtain ⟨i, hi, hs⟩ := Option.map_eq_some_iff.1 hchildren
  refine ⟨_, within, halone, hwithin, hsame, (hsame.leads ["s"]).1 ?_⟩
  exact Leads.here.child hi (by simp [hs])

end Library

end Boardwright
