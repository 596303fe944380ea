import Boardwright.Proofs.Design.Compositional
import Boardwright.Proofs.Design.Elsewhere

/-!
# Trees without gaps

A tree is `Whole` if each child that an instance of it names stands in the library, under a name
of its own. An instance that could be made is the root of a whole tree, whatever stood below its
address before: it starts without children, each statement adds a child that is there, and a
failure ends the making of all instances around it. So in a library that work has led to, each
root stands for a whole tree: `Reached.whole`.
-/

namespace Boardwright

open Syntax List Table Work

variable {ns : List String}

namespace Library

variable {files : Files} {searched : List Route} {lib lib' : Library} {a p r : Address}
  {m n : String} {q : List String} {levels : Layer} {i : Instance} {extension depth : Nat}
  {parent : Option Address}

def childrenAt (lib : Library) (k : Address) : Option (List String) :=
  (lib.instances.get? k).map Instance.children

/-- Wherever names of children lead from an instance, there is an instance, and its children have
names of their own. -/
def Whole (lib : Library) (a : Address) : Prop :=
  ∀ q, lib.Leads a q → AreNames q ∧ ∃ ns, lib.childrenAt (a.addInstances q) = some ns ∧ ns.Nodup

theorem childrenAt_eq_some {k : Address} :
    lib.childrenAt k = some ns ↔ ∃ i, lib.instances.get? k = some i ∧ i.children = ns :=
  Option.map_eq_some_iff

theorem Leads.concat (h : lib.Leads a q) (hns : lib.childrenAt (a.addInstances q) = some ns)
    (hn : n ∈ ns) : lib.Leads a (q ++ [n]) := by
  obtain ⟨i, hi, rfl⟩ := childrenAt_eq_some.1 hns
  exact h.child hi hn

/-! ### Going down from a child -/

theorem Leads.of_child (hns : lib.childrenAt a = some ns) (hn : n ∈ ns)
    (h : lib.Leads (a.addInstance n) q) : lib.Leads a (n :: q) := by
  induction h with
  | here => exact Leads.here.concat (q := []) hns hn
  | child _ hi hm ih => exact ih.child hi hm

theorem Leads.exists_child (h : lib.Leads a (n :: q)) :
    (∃ ns, lib.childrenAt a = some ns ∧ n ∈ ns) ∧ lib.Leads (a.addInstance n) q := by
  generalize hp : n :: q = p at h
  induction h generalizing q with
  | here => cases hp
  | @child p m i h hi hm ih =>
    cases p with
    | nil =>
      cases hp
      exact ⟨⟨_, childrenAt_eq_some.2 ⟨i, hi, rfl⟩, hm⟩, .here⟩
    | cons n' p =>
      cases hp
      obtain ⟨hchild, hleads⟩ := ih rfl
      exact ⟨hchild, hleads.child hi hm⟩

theorem Leads.of_prefix {q' : List String} (h : lib.Leads a (q ++ q')) :
    lib.Leads (a.addInstances q) q' := by
  induction q generalizing a with
  | nil => exact h
  | cons n q ih => exact ih h.exists_child.2

/-- A tree is whole if the trees of the children of its root are. -/
theorem whole_iff : lib.Whole a ↔ ∃ ns, lib.childrenAt a = some ns ∧ ns.Nodup ∧
    ∀ n ∈ ns, IsName n ∧ lib.Whole (a.addInstance n) := by
  constructor
  · intro h
    obtain ⟨-, ns, hns, hnodup⟩ := h [] .here
    refine ⟨ns, hns, hnodup, fun n hn => ⟨?_, fun q hq => ?_⟩⟩
    · exact areNames_singleton.1 (h [n] (Leads.here.of_child hns hn)).1
    · obtain ⟨hnames, hthere⟩ := h (n :: q) (hq.of_child hns hn)
      exact ⟨(areNames_cons.1 hnames).2, hthere⟩
  · rintro ⟨ns, hns, hnodup, hchildren⟩ q hq
    cases q with
    | nil => exact ⟨areNames_nil, ns, hns, hnodup⟩
    | cons n q =>
      obtain ⟨⟨ns', hns', hn⟩, hq⟩ := hq.exists_child
      cases hns.symm.trans hns'
      obtain ⟨hname, hwhole⟩ := hchildren n hn
      obtain ⟨hnames, hthere⟩ := hwhole q hq
      exact ⟨areNames_cons.2 ⟨hname, hnames⟩, hthere⟩

/-- Being whole depends only on the children of the instances below an address. -/
theorem Whole.congr (h : lib.Whole a) (hsame : ∀ k, a.Below k → lib'.childrenAt k = lib.childrenAt k) :
    lib'.Whole a := by
  have hleads : ∀ q, lib'.Leads a q → lib.Leads a q := by
    intro q hq
    induction hq with
    | here => exact .here
    | @child q n i _ hi hn ih =>
      have hk := hsame _ ⟨q, (h q ih).1, rfl⟩
      exact ih.concat (hk ▸ childrenAt_eq_some.2 ⟨i, hi, rfl⟩) hn
  intro q hq
  obtain ⟨hnames, hthere⟩ := h q (hleads q hq)
  rw [hsame _ ⟨q, hnames, rfl⟩]
  exact ⟨hnames, hthere⟩

/-! ### Statements keep a tree whole -/

def withChild (n : String) (ns : List String) : List String := if n ∈ ns then ns else ns ++ [n]

theorem mem_withChild : m ∈ withChild n ns ↔ m ∈ ns ∨ m = n := by
  unfold withChild
  split
  · next h =>
      refine ⟨Or.inl, fun hm => hm.elim id ?_⟩
      rintro rfl
      exact h
  · simp

theorem nodup_withChild (h : ns.Nodup) : (withChild n ns).Nodup := by
  unfold withChild
  split
  · exact h
  · next hn => exact (perm_append_singleton n ns).nodup_iff.2 (nodup_cons.2 ⟨hn, h⟩)

theorem perm_withChild {ms : List String} (h : ms.Perm ns) (n : String) :
    (withChild n ms).Perm (withChild n ns) := by
  unfold withChild
  simp only [h.mem_iff]
  split
  · exact h
  · exact h.append_right [n]

/-- The order in which children come changes nothing but their order. -/
theorem withChild_comm (m n : String) (ns : List String) :
    (withChild m (withChild n ns)).Perm (withChild n (withChild m ns)) := by
  by_cases hmn : m = n
  · rw [hmn]
  · unfold withChild
    by_cases hm : m ∈ ns <;> by_cases hn : n ∈ ns <;> simp [hm, hn, hmn, Ne.symm hmn]
    exact .append_left ns (.swap m n [])

theorem ite_contains_children (i : Instance) (n : String) :
    (if i.children.contains n then i else { i with children := i.children ++ [n] }) =
      { i with children := withChild n i.children } := by
  unfold withChild
  simp only [contains_iff_mem]
  split <;> rfl

/-- An instance that is placed becomes a child of its parent, and nothing else changes. -/
theorem get?_place (lib : Library) (hne : a ≠ p) (i : Instance) (k : Address) :
    (lib.place (some p) a i).instances.get? k =
      if k = p then (lib.instances.get? p).map fun j =>
        { j with children := withChild a.name j.children }
      else if k = a then some i else lib.instances.get? k := by
  unfold Library.place
  dsimp only
  split
  · next hk =>
      rw [hk, get?_modify_self, get?_set_of_ne _ _ hne.symm]
      simp only [ite_contains_children]
  · next hk =>
      rw [get?_modify_of_ne _ _ hk, get?_set]
      simp only [beq_iff_eq]

theorem childrenAt_place (lib : Library) (p : Address) (hn : IsName n) (i : Instance)
    (k : Address) :
    (lib.place (some p) (p.addInstance n) i).childrenAt k =
      if k = p.addInstance n then some i.children
      else if k = p then (lib.childrenAt p).map (withChild n) else lib.childrenAt k := by
  have hne := (Address.Below.refl (p.addInstance n)).ne_of_child
  unfold childrenAt
  rw [get?_place _ hne, Address.name_addInstance p hn]
  by_cases hk : k = p.addInstance n
  · rw [if_neg (hk ▸ hne), if_pos hk, if_pos hk, Option.map_some]
  · rw [if_neg hk, if_neg hk]
    split
    · rw [Option.map_map, Option.map_map]
      rfl
    · rfl

theorem Whole.place (h : lib.Whole a) (hn : IsName n) (levels : Layer) :
    (lib.place (some a) (a.addInstance n) ⟨levels, ∅, [], []⟩).Whole a := by
  have hne := (Address.Below.refl (a.addInstance n)).ne_of_child
  obtain ⟨ns, hns, hnodup, hchildren⟩ := whole_iff.1 h
  refine whole_iff.2 ⟨withChild n ns, ?_, nodup_withChild hnodup, fun m hm => ?_⟩
  · simp [childrenAt_place _ _ hn, hne.symm, hns]
  · by_cases hmn : m = n
    · subst hmn
      refine ⟨hn, whole_iff.2 ⟨[], ?_, nodup_nil, by simp⟩⟩
      simp [childrenAt_place _ _ hn]
    · obtain ⟨hname, hwhole⟩ := hchildren m ((mem_withChild.1 hm).resolve_right hmn)
      refine ⟨hname, hwhole.congr fun k hk => ?_⟩
      have hkn : k ≠ a.addInstance n := by
        rintro rfl
        exact hmn (hk.name_eq hname hn (.refl _))
      rw [childrenAt_place _ _ hn, if_neg hkn, if_neg hk.ne_of_child]

theorem childrenAt_modify {f : Instance → Instance} (hf : ∀ i, (f i).children = i.children)
    (lib : Library) (p k : Address) :
    childrenAt { lib with instances := lib.instances.modify p f } k = lib.childrenAt k := by
  unfold childrenAt
  dsimp only
  rw [get?_modify]
  split
  · rw [Option.map_map]
    congr 1
    exact funext hf
  · rfl

theorem childrenAt_eq (h : lib'.instances = lib.instances) (k : Address) :
    lib'.childrenAt k = lib.childrenAt k := by
  rw [childrenAt, h]
  rfl

/-- Each step of a statement keeps the tree of the instance whole that it is for. -/
theorem steady_whole (files : Files) (searched : List Route) (a : Address) :
    Steady (· = a) fun lib => Settled files searched lib ∧ lib.Whole a where
  layer depth x := by
    refine (Settled.keeps_layerWithin_of And.left ?_ depth x).imp fun _ h => h.sound
    exact fun h hs hi _ => ⟨hs, h.2.congr fun k _ => childrenAt_eq hi k⟩
  place levels h hp hn := by
    subst hp
    exact ⟨h.1.congr _ _, h.2.place hn levels⟩
  override name value h _ _ := by
    refine ⟨h.1.congr _ _, h.2.congr fun k _ => childrenAt_modify (fun i => ?_) _ _ k⟩
    rfl
  link pos h _ _ _ := by
    refine ⟨h.1.congr _ _, h.2.congr fun k _ => childrenAt_modify (fun i => ?_) _ _ k⟩
    rfl

/-! ### Making an instance -/

theorem instances_dropReplacements (asked : List Address) (lib : Library) :
    (dropReplacements asked lib).instances = lib.instances := rfl

/-- Once an instance is placed, the making of it changes nothing but what stands below it. -/
theorem sameElsewhere_createWithin (hs : Settled files searched lib) (hl : Layer.Sound levels)
    (h : (createWithin extension depth parent a levels).outcome lib = (.ok (), lib')) :
    Settled files searched lib' ∧
      SameElsewhere a.Below lib' (lib.place parent a ⟨levels, ∅, [], []⟩) := by
  have hstable := stable_sameElsewhere files searched (lib.place parent a ⟨levels, ∅, [], []⟩)
    (A := a.Below) Address.Below.addInstances
  exact hstable.of_createWithin (.refl a) hl ⟨hs.place _ _ _, .refl _ _⟩ h

theorem Whole.child (hwhole : lib.Whole a) (hn : IsName n) (levels : Layer)
    (hsame : SameElsewhere (a.addInstance n).Below lib'
      (lib.place (some a) (a.addInstance n) ⟨levels, ∅, [], []⟩))
    (hchild : lib'.Whole (a.addInstance n)) : lib'.Whole a := by
  obtain ⟨ns, hns, hnodup, hchildren⟩ := whole_iff.1 (hwhole.place hn levels)
  have hother : ∀ k, ¬(a.addInstance n).Below k → lib'.childrenAt k =
      (lib.place (some a) (a.addInstance n) ⟨levels, ∅, [], []⟩).childrenAt k := by
    intro k hk
    rw [childrenAt, childrenAt, hsame.instances k hk]
  refine whole_iff.2 ⟨ns, ?_, hnodup, fun m hm => ?_⟩
  · rw [hother a fun h => h.ne_of_child rfl, hns]
  · obtain ⟨hname, hwhole⟩ := hchildren m hm
    by_cases hmn : m = n
    · exact ⟨hname, hmn ▸ hchild⟩
    · exact ⟨hname, hwhole.congr fun k hk => hother k fun h => hmn (hk.name_eq hname hn h)⟩

theorem frame_askReplacements {here : Address} {rs : List (Definition × Reference × Replacement)}
    {o : Except Failure (List Address)} (h : (askReplacements here rs).outcome lib = (o, lib')) :
    lib' = { lib with replaced := lib'.replaced } := by
  have hkeep : ∀ rs : List (Definition × Reference × Replacement),
      Guards (fun m => m = { lib with replaced := m.replaced }) (askReplacements here rs) := by
    intro rs
    induction rs with
    | nil => exact .pure trivial
    | cons r rs ih =>
      refine Keeps.get.bind fun m _ => ?_
      split
      · exact ih
      · refine .ofExcept_bind fun b => ?_
        refine (Keeps.modify fun m hm => ?_).bind fun _ _ => ih.bind fun _ _ => .pure trivial
        rw [hm]
  exact (hkeep rs).state rfl h

theorem whole_createWithin
    (hparent : parent = none ∨ ∃ p n, parent = some p ∧ IsName n ∧ a = p.addInstance n)
    (hs : Settled files searched lib) (hl : Layer.Sound levels)
    (h : (createWithin extension depth parent a levels).outcome lib = (.ok (), lib')) :
    lib'.Whole a := by
  induction depth generalizing a levels lib lib' parent with
  | zero => cases h
  | succ depth ih =>
    obtain ⟨asked, lib₁, lib₂, hask, hvisits, rfl⟩ := createWithin_eq_ok h
    have hplaced : (lib.place parent a ⟨levels, ∅, [], []⟩).childrenAt a = some [] := by
      rcases hparent with rfl | ⟨p, n, rfl, hn, rfl⟩
      · simp [childrenAt, Library.place]
      · simp [childrenAt_place _ _ hn]
    have hasked : Settled files searched lib₁ ∧ lib₁.Whole a := by
      rw [frame_askReplacements hask]
      exact ⟨(hs.place _ _ _).congr _ _,
        whole_iff.2 ⟨[], hplaced, nodup_nil, by simp⟩⟩
    have hcreate : ∀ n l, IsName n → Layer.Sound l →
        Upholds (fun lib => Settled files searched lib ∧ lib.Whole a)
          (createWithin extension depth (some a) (a.addInstance n) l) := by
      intro n l hn hl' lib _ lib' ⟨hs, hwhole⟩ hok
      obtain ⟨hs', hsame⟩ := sameElsewhere_createWithin hs hl' hok
      have hchild := ih (.inr ⟨a, n, rfl, hn, rfl⟩) hs hl' hok
      exact ⟨hs', hwhole.child hn l hsame hchild⟩
    have hdone := Upholds.forM (fun v hv => upholds_visit fun d hd s hs =>
      (steady_whole files searched a).upholds_statement rfl
        ((hl v (mem_reverse.1 hv) d hd).statements s hs) hcreate) _ _ _ hasked hvisits
    exact hdone.2.congr fun k _ => childrenAt_eq (instances_dropReplacements _ _) k

theorem Reached.whole (h : Reached files searched lib) (hr : r.IsRoot)
    (hthere : (lib.instances.get? r).isSome) : lib.Whole r := by
  induction h with
  | fresh => cases hthere
  | @definition lib h a ih =>
    rcases hout : (Library.definition a).outcome lib with ⟨o, lib'⟩
    rw [hout] at hthere
    rw [(frame_definition hout).1] at hthere
    exact (ih hthere).congr fun k _ => childrenAt_eq (frame_definition hout).1 k
  | @layer lib h extension a ih =>
    rcases hout : (layerWithin extension a).outcome lib with ⟨o, lib'⟩
    rw [hout] at hthere
    rw [(frame_layerWithin hout).1] at hthere
    exact (ih hthere).congr fun k _ => childrenAt_eq (frame_layerWithin hout).1 k
  | @tree lib h extension nesting a ih =>
    have hs := h.sound.settled
    by_cases hc : lib.instances.contains a
    · rw [treeWithin_of_contains hc] at hthere ⊢
      exact ih hthere
    have hsame := sameElsewhere_treeWithin hs extension nesting a
    rcases hout : (treeWithin extension nesting a).outcome lib with ⟨o, lib'⟩
    rw [hout] at hthere hsame
    by_cases har : a = r
    · subst har
      cases o with
      | error e =>
        rw [get?_of_failed hout, ← contains_eq_isSome] at hthere
        exact absurd hthere hc
      | ok u =>
        obtain ⟨hc', -⟩ | ⟨-, l, lib₁, hl, hcreate⟩ := treeWithin_eq_ok hout
        · exact absurd hc' hc
        · have hkeep := Settled.keeps_layerWithin files searched extension a
          exact whole_createWithin (.inl rfl) (hkeep.state hs hl) (hkeep.result hs hl).sound
            hcreate
    · have hother : ∀ k, r.Below k → lib'.instances.get? k = lib.instances.get? k :=
        fun k hk => hsame.instances k fun hak => har (hak.eq_of_tree ⟨hr, hk⟩)
      rw [hother r (.refl r)] at hthere
      exact (ih hthere).congr fun k hk => by rw [childrenAt, hother k hk]; rfl

end Library

end Boardwright
