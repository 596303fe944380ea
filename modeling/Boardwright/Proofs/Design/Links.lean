import Boardwright.Net.Basic
import Boardwright.Proofs.Design.Attributes

/-!
# Where links end

A link is made between two instances that stand in the library at that time. Nothing that stands
goes away while a tree is made, but an instance whose name is made once more is replaced, and what
was below it stands on without being reached from the root. So a link of an instance of the tree
ends in the tree, or below a name that an instance of the tree makes at least twice:
`link_ends_within`.

Two properties are kept by each step of a statement: links end at something that stands, `Linked`,
and what stands is reached or was replaced, `Traced`.
-/

namespace Boardwright

open Syntax List Table

variable {f : Instance → Instance}

namespace Library

variable {files : Files} {searched : List Route} {lib lib' lib₁ : Library} {a k x : Address}
  {m n : String} {p q ms ns : List String} {levels l : Layer} {extension depth : Nat}
  {create : Address → Layer → Work Library Unit} {d : Definition} {parent : Option Address}

/-! ### Links end at something that stands -/

def linksAt (lib : Library) (k : Address) : List Link :=
  ((lib.instances.get? k).map Instance.links).getD []

def Stands (lib : Library) (k : Address) : Prop := ∃ i, lib.instances.get? k = some i

def Linked (lib : Library) : Prop :=
  ∀ k, ∀ l ∈ lib.linksAt k, lib.Stands l.source ∧ lib.Stands l.target

theorem Stands.modify (h : lib.Stands k) :
    Stands { lib with instances := lib.instances.modify a f } k := by
  obtain ⟨i, hi⟩ := h
  refine ⟨if k == a then f i else i, (get?_modify _ _ _ _).trans ?_⟩
  split <;> simp [hi]

theorem Stands.set (h : lib.Stands k) (i : Instance) :
    Stands { lib with instances := lib.instances.set a i } k := by
  obtain ⟨j, hj⟩ := h
  by_cases hka : k = a
  · exact ⟨i, hka ▸ get?_set_self _ _ _⟩
  · exact ⟨j, (get?_set_of_ne _ _ hka).trans hj⟩

theorem mem_linksAt {l : Link} :
    l ∈ lib.linksAt k ↔ ∃ i, lib.instances.get? k = some i ∧ l ∈ i.links := by
  unfold linksAt
  cases lib.instances.get? k <;> simp

/-- Links end at something that stands, if what stood stands on and each new link is made
between instances that stand. -/
theorem Linked.of_forall (h : lib.Linked) (hstands : ∀ k, lib.Stands k → lib'.Stands k)
    (hlinks : ∀ k, ∀ l ∈ lib'.linksAt k,
      l ∈ lib.linksAt k ∨ lib.Stands l.source ∧ lib.Stands l.target) : lib'.Linked := by
  intro k l hl
  have hends : lib.Stands l.source ∧ lib.Stands l.target := (hlinks k l hl).elim (h k l) id
  exact ⟨hstands _ hends.1, hstands _ hends.2⟩

theorem Linked.congr (h : lib.Linked) (hsame : lib'.instances = lib.instances) : lib'.Linked := by
  unfold Linked Stands linksAt at h ⊢
  rwa [hsame]

theorem Linked.modify (h : lib.Linked) (hf : ∀ i, lib.instances.get? a = some i → ∀ l ∈ (f i).links,
      l ∈ i.links ∨ lib.Stands l.source ∧ lib.Stands l.target) :
    Linked { lib with instances := lib.instances.modify a f } := by
  refine h.of_forall (fun k hk => hk.modify) fun k l hl => ?_
  obtain ⟨j, hj, hl⟩ := mem_linksAt.1 hl
  by_cases hka : k = a
  · subst hka
    obtain ⟨i, hi, rfl⟩ := Option.map_eq_some_iff.1 ((get?_modify_self _ _ _).symm.trans hj)
    exact (hf i hi l hl).imp_left fun h => mem_linksAt.2 ⟨i, hi, h⟩
  · exact .inl (mem_linksAt.2 ⟨j, (get?_modify_of_ne _ _ hka).symm.trans hj, hl⟩)

theorem Linked.place (h : lib.Linked) (parent : Option Address) (a : Address) (levels : Layer) :
    (lib.place parent a ⟨levels, ∅, [], []⟩).Linked := by
  have hset : Linked { lib with instances := lib.instances.set a ⟨levels, ∅, [], []⟩ } := by
    refine h.of_forall (fun k hk => hk.set _) fun k l hl => ?_
    obtain ⟨j, hj, hl⟩ := mem_linksAt.1 hl
    by_cases hka : k = a
    · subst hka
      cases (get?_set_self _ _ _).symm.trans hj
      exact absurd hl not_mem_nil
    · exact .inl (mem_linksAt.2 ⟨j, (get?_set_of_ne _ _ hka).symm.trans hj, hl⟩)
  cases parent with
  | none => exact hset
  | some p =>
    refine hset.modify fun i _ l hl => .inl ?_
    split at hl <;> exact hl

theorem advances_linked (hcreate : ∀ n l, IsName n → Layer.Sound l →
      Work.Upholds (fun lib => Settled files searched lib ∧ lib.Linked)
        (create (a.addInstance n) l)) :
    Advances extension create a fun _ _ lib => Settled files searched lib ∧ lib.Linked where
  child h hn hl hmake := by
    have hkeep := Settled.keeps_layerWithin files searched extension
    refine hcreate _ _ hn ((hkeep _).result h.1 hl).sound _ _ _ ⟨(hkeep _).state h.1 hl, ?_⟩ hmake
    exact h.2.congr (frame_layerWithin hl).1
  leaf h _ _ := ⟨h.1.place _ _ _, h.2.place _ _ _⟩
  set h _ _ _ _ := ⟨h.1.congr _ _, h.2.modify fun _ _ _ hl => .inl hl⟩
  link h _ _ hi hj _ := by
    refine ⟨h.1.congr _ _, h.2.modify fun i _ l hl => ?_⟩
    rcases mem_append.1 hl with hl | hl
    · exact .inl hl
    · cases mem_singleton.1 hl
      exact .inr ⟨⟨_, hi⟩, ⟨_, hj⟩⟩
  regive h _ := h

theorem upholds_linked_createWithin (files : Files) (searched : List Route)
    (hl : Layer.Sound levels) :
    Work.Upholds (fun lib => Settled files searched lib ∧ lib.Linked)
      (createWithin extension depth parent a levels) := by
  intro lib _ lib' hlib h
  induction depth generalizing a levels lib lib' parent with
  | zero => cases h
  | succ depth ih =>
    have hplaced := (hlib.1.place parent a ⟨levels, ∅, [], []⟩)
    have hchildren : Advances extension (createWithin extension depth (some a)) a
        fun _ _ lib => Settled files searched lib ∧ lib.Linked :=
      advances_linked fun n l _ hl' lib _ lib' hlib h => ih hl' lib lib' hlib h
    obtain ⟨lib₁, hdone, hsame⟩ := hchildren.of_createWithin hl
      (fun _ => ⟨hplaced.congr _ _, hlib.2.place parent a levels⟩) h
    exact ⟨(sameElsewhere_createWithin hlib.1 hl h).1, hdone.2.congr hsame⟩

/-! ### What stands is reached, or was replaced -/

/-- A path from an instance along which one comes to an instance that makes two children of
the next name. -/
def Remade (lib : Library) (a : Address) (q : List String) : Prop :=
  ∃ p n r, q = p ++ n :: r ∧ lib.Leads a p ∧ 2 ≤ (lib.levelsAt (a.addInstances p)).makes.count n

/-- What stands below an address is reached from there by going to children, or stands below
the name of two children of one instance. -/
def Traced (lib : Library) (a : Address) : Prop :=
  ∀ q ns, AreNames q → lib.childrenAt (a.addInstances q) = some ns →
    lib.Leads a q ∨ lib.Remade a q

theorem Leads.congr (hq : AreNames q) (h : lib.Leads a q)
    (hsame : ∀ k, a.Below k → lib'.childrenAt k = lib.childrenAt k) : lib'.Leads a q := by
  induction h with
  | here => exact .here
  | @child q n i _ hi hn ih =>
    have hinit := (areNames_append.1 hq).1
    have hchildren := childrenAt_eq_some.2 ⟨i, hi, rfl⟩
    rw [← hsame _ ⟨q, hinit, rfl⟩] at hchildren
    exact (ih hinit).concat hchildren hn

theorem Traced.congr (h : lib.Traced a)
    (hchildren : ∀ k, a.Below k → lib'.childrenAt k = lib.childrenAt k)
    (hlevels : ∀ k, a.Below k → lib'.levelsAt k = lib.levelsAt k) : lib'.Traced a := by
  intro q ns hq hns
  rw [hchildren _ ⟨q, hq, rfl⟩] at hns
  rcases h q ns hq hns with hleads | ⟨p, n, r, rfl, hleads, hcount⟩
  · exact .inl (hleads.congr hq hchildren)
  · have hp := (areNames_append.1 hq).1
    refine .inr ⟨p, n, r, rfl, hleads.congr hp hchildren, ?_⟩
    rwa [hlevels _ ⟨p, hp, rfl⟩]

theorem Remade.of_child (h : lib.Remade (a.addInstance n) q) (hns : lib.childrenAt a = some ns)
    (hn : n ∈ ns) : lib.Remade a (n :: q) := by
  obtain ⟨p, m, r, rfl, hleads, hcount⟩ := h
  exact ⟨n :: p, m, r, rfl, hleads.of_child hns hn, hcount⟩

/-- While an instance is made, with the children `ms` so far: below it stands only what is below
one of these, and a child that was made once is a child of it with all that stands below. -/
structure Growing (files : Files) (searched : List Route) (lib : Library) (a : Address)
    (ms : List String) : Prop where
  settled : Settled files searched lib
  here : ∃ ns, lib.childrenAt a = some ns
  made : lib.Makes a ms
  once : ∀ n, IsName n → ms.count n = 1 →
    (∃ ns, lib.childrenAt a = some ns ∧ n ∈ ns) ∧ lib.Traced (a.addInstance n)

namespace Growing

section

variable (h : Growing files searched lib a ms)

include h

theorem congr (hs : Settled files searched lib')
    (hchildren : ∀ k, lib'.childrenAt k = lib.childrenAt k)
    (hlevels : ∀ k, lib'.levelsAt k = lib.levelsAt k) : Growing files searched lib' a ms where
  settled := hs
  here := hchildren a ▸ h.here
  made n q i hq hi := by
    have hns := hchildren _ ▸ childrenAt_eq_some.2 ⟨i, hi, rfl⟩
    obtain ⟨j, hj, -⟩ := childrenAt_eq_some.1 hns
    exact h.made n q j hq hj
  once n hn hcount := by
    obtain ⟨hchild, htraced⟩ := h.once n hn hcount
    rw [hchildren]
    exact ⟨hchild, htraced.congr (fun k _ => hchildren k) fun k _ => hlevels k⟩

theorem child (hn : IsName n) (hs : Settled files searched lib')
    (hsame : SameElsewhere (a.addInstance n).Below lib'
      (lib.place (some a) (a.addInstance n) ⟨l, ∅, [], []⟩))
    (hchild : lib.Clear (a.addInstance n) → lib'.Traced (a.addInstance n)) :
    Growing files searched lib' a (ms ++ [n]) := by
  obtain ⟨ns, hns⟩ := h.here
  have hchildren : lib'.childrenAt a = some (withChild n ns) := by
    rw [childrenAt, hsame.instances a fun h => h.ne_of_child rfl, ← childrenAt,
      childrenAt_place _ _ hn, if_neg (Address.Below.refl (a.addInstance n)).ne_of_child.symm,
      if_pos rfl, hns]
    rfl
  refine ⟨hs, ⟨_, hchildren⟩, h.made.child hn hsame, fun m hm hcount => ?_⟩
  by_cases hmn : m = n
  · -- the name of the new child was not made before
    subst hmn
    have hnew : m ∉ ms := by
      rw [count_append, count_singleton_self] at hcount
      exact count_eq_zero.1 (by omega)
    exact ⟨⟨_, hchildren, mem_withChild.2 (.inr rfl)⟩, hchild (h.made.clear hn hnew)⟩
  · have hcount' : ms.count m = 1 := by
      rwa [count_append, count_singleton, if_neg (by simpa using Ne.symm hmn)] at hcount
    have hother := fun k => get?_below_other (k := k) hm hn hmn hsame
    obtain ⟨⟨ns', hns', hmem⟩, htraced⟩ := h.once m hm hcount'
    cases hns.symm.trans hns'
    refine ⟨⟨_, hchildren, mem_withChild.2 (.inl hmem)⟩, htraced.congr (fun k hk => ?_)
      fun k hk => levelsAt_congr (hother k hk)⟩
    rw [childrenAt, hother k hk, ← childrenAt]

/-- Once all steps are done, what stands below is reached, or was replaced. -/
theorem traced (hms : ms = (lib.levelsAt a).makes) : lib.Traced a := by
  subst hms
  intro q ns hq hns
  cases q with
  | nil => exact .inl .here
  | cons n q =>
    have hnames := areNames_cons.1 hq
    obtain ⟨i, hi, -⟩ := childrenAt_eq_some.1 hns
    have hpos := count_pos_iff.2 (h.made n q i hq hi)
    by_cases htwo : 2 ≤ (lib.levelsAt a).makes.count n
    · exact .inr ⟨[], n, q, rfl, .here, htwo⟩
    · obtain ⟨⟨ns', hns', hmem⟩, htraced⟩ := h.once n hnames.1 (by omega)
      rcases htraced q ns hnames.2 hns with hleads | hremade
      · exact .inl (hleads.of_child hns' hmem)
      · exact .inr (hremade.of_child hns' hmem)

theorem modify (hchildren : ∀ i, (f i).children = i.children)
    (hlevels : ∀ i, (f i).levels = i.levels) :
    Growing files searched { lib with instances := lib.instances.modify k f } a ms :=
  h.congr (h.settled.congr _ _) (childrenAt_modify hchildren lib k)
    (levelsAt_modify hlevels lib k)

end

theorem completes (files : Files) (searched : List Route) :
    Completes files searched (fun a ms _ lib => Growing files searched lib a ms) Traced where
  bears _ :=
    { set := fun h _ _ _ _ => h.modify (fun _ => rfl) fun _ => rfl
      link := fun h _ _ _ _ _ => h.modify (fun _ => rfl) fun _ => rfl
      regive := fun h _ => h }
  settled h := h.settled
  congr h hs hsame := h.congr hs (childrenAt_eq hsame) fun k => levelsAt_congr (hsame ▸ rfl)
  place {lib a levels parent} hparent hs hclear _ := by
    refine ⟨hs.place _ _ _, ⟨[], ?_⟩, .place hparent hclear _, nofun⟩
    rw [childrenAt, get?_place_self _ _ _ (hparent a (.refl a))]
    rfl
  child h hn hs hsame hchild := h.child hn hs hsame hchild
  finish h hms _ := h.traced hms

end Growing

/-- In a tree that is made in a fresh library, each end of a link is reached from the instance that
has the link, and so from the root, unless it stands below a name that an instance of the tree
makes twice. -/
theorem link_ends_within {nesting : Nat} {root e : Address} {made : Library} {l : Link}
    (hmade : (treeWithin extension nesting root).outcome { files, searched } = (.ok (), made))
    (ha : made.Within root a) (hl : l ∈ made.linksAt a) (he : e = l.source ∨ e = l.target) :
    (made.Within root e ∧ made.Within a e) ∨
      ∃ p n, made.Within root p ∧ 2 ≤ (made.levelsAt p).makes.count n ∧
        (p.addInstance n).Below e := by
  have hfresh : Settled files searched { files, searched } := settled_fresh
  obtain ⟨hc, -⟩ | ⟨-, levels, lib₁, hlevels, hcreate⟩ := treeWithin_eq_ok hmade
  · cases hc
  have hkeep := Settled.keeps_layerWithin files searched extension root
  have hs := hkeep.state hfresh hlevels
  have hlayer := hkeep.result hfresh hlevels
  have hnone : lib₁.instances = ∅ := (frame_layerWithin hlevels).1
  -- both ends stand when the link is made, and stand on
  have hlinked : lib₁.Linked := by
    intro k l hl
    rw [linksAt, hnone] at hl
    exact absurd hl List.not_mem_nil
  have hends := (upholds_linked_createWithin files searched hlayer.sound _ _ _ ⟨hs, hlinked⟩
    hcreate).2 a l hl
  obtain ⟨j, hj⟩ : made.Stands e := by
    rcases he with rfl | rfl
    · exact hends.1
    · exact hends.2
  -- they are below the instance, and it is below the root
  have hsound : Sound files searched made :=
    (Sound.keeps_treeWithin extension nesting root).state sound_fresh hmade
  obtain ⟨y, hy, rfl⟩ : a.Below e := by
    obtain ⟨i, hi, hl⟩ := mem_linksAt.1 hl
    obtain ⟨x, y, hx, hy, hsource, htarget⟩ := (hsound.instances a i hi).2.links l hl
    rcases he with rfl | rfl
    · exact ⟨x, hx, hsource⟩
    · exact ⟨y, hy, htarget⟩
  obtain ⟨x, hx, rfl⟩ := ha.below hsound
  rw [← Address.addInstances_append] at hj ⊢
  -- what stands there is reached, or was replaced
  have htraced := (Growing.completes files searched).of_treeWithin hmade
  have hnames := areNames_append.2 ⟨hx, hy⟩
  rcases htraced _ _ hnames (childrenAt_eq_some.2 ⟨j, hj, rfl⟩) with
    hleads | ⟨p, n, r, hp, hleads, hcount⟩
  · refine .inl ⟨within_iff_leads.2 ⟨_, hleads, rfl⟩, within_iff_leads.2 ⟨y, hleads.of_prefix, ?_⟩⟩
    rw [Address.addInstances_append]
  · rw [hp] at hnames ⊢
    refine .inr ⟨_, n, within_iff_leads.2 ⟨p, hleads, rfl⟩, hcount, r, ?_, ?_⟩
    · exact (areNames_cons.1 (areNames_append.1 hnames).2).2
    · rw [Address.addInstances_append, Address.addInstances_cons]

/-- A link between signals that stand one and two steps below the instance that has it. -/
def linkedBelow : Files where
  texts := ⟨[(["f"], "module Y:\n signal t\nmodule X:\n y=new Y\n signal s\n" ++
    "module M:\n x=new X\n x.y.t~x.s\n")]⟩

theorem link_ends_within_linkedBelow :
    ∃ made l, (treeWithin 3 4 ⟨"f:M"⟩).outcome { files := linkedBelow } = (.ok (), made) ∧
      l ∈ made.linksAt ⟨"f:M"⟩ ∧ l.source = ⟨"f:M::x.y.t"⟩ ∧ made.Within ⟨"f:M"⟩ l.source := by
  -- the run is named, so that it is gone through once for all facts about it
  obtain ⟨run, hrun⟩ : ∃ run, (treeWithin 3 4 ⟨"f:M"⟩).outcome { files := linkedBelow } = run :=
    ⟨_, rfl⟩
  have hfacts : run.1.toOption = some () ∧
      (∀ k ∈ run.2.instances.keys, (run.2.levelsAt k).makes.Nodup) ∧
      ⟨"f:M::x.y.t"⟩ ∈ (run.2.linksAt ⟨"f:M"⟩).map Link.source := by
    rw [← hrun]
    decide +kernel
  obtain ⟨hok, hkeys, hlinks⟩ := hfacts
  obtain ⟨e | u, made⟩ := run
  · cases hok
  · obtain ⟨l, hl, hsource⟩ := List.mem_map.1 hlinks
    refine ⟨made, l, hrun, hl, hsource, ?_⟩
    rcases link_ends_within hrun .refl hl (.inl rfl) with hwithin | ⟨p, n, hp, hcount, hbelow⟩
    · exact hwithin.1
    · -- no instance makes two children of one name
      have hone := List.nodup_iff_count_le_one.1 (tidy_of_keys hkeys p p (.refl p)) n
      exact absurd hcount (Nat.not_le_of_lt (Nat.lt_succ_of_le hone))

/-- A child that is made twice, and a link to what only the first one has. -/
def replacedChild : Files where
  texts := ⟨[(["f"], "module X:\n signal s\nmodule Y:\n signal t\n" ++
    "module M:\n signal p\n a=new X\n a=new Y\n a.s~p\n")]⟩

theorem link_ends_outside_replacedChild :
    ∃ made l, (treeWithin 3 4 ⟨"f:M"⟩).outcome { files := replacedChild } = (.ok (), made) ∧
      l ∈ made.linksAt ⟨"f:M"⟩ ∧ ¬made.Within ⟨"f:M"⟩ l.source ∧
      ((Net.below ⟨"f:M"⟩).outcome made).1.toOption = none := by
  obtain ⟨run, hrun⟩ : ∃ run, (treeWithin 3 4 ⟨"f:M"⟩).outcome { files := replacedChild } = run :=
    ⟨_, rfl⟩
  have hfacts : run.1.toOption = some () ∧ run.2.instances.contains ⟨"f:M"⟩ ∧
      ⟨"f:M::a.s"⟩ ∈ (run.2.linksAt ⟨"f:M"⟩).map Link.source ∧
      ((descendantsWithin 4 ⟨"f:M"⟩).outcome run.2).1.toOption =
        some [⟨"f:M::p"⟩, ⟨"f:M::a.t"⟩, ⟨"f:M::a"⟩, ⟨"f:M"⟩] ∧
      ((Net.below ⟨"f:M"⟩).outcome run.2).1.toOption = none := by
    rw [← hrun]
    decide +kernel
  obtain ⟨hok, hthere, hlinks, hfound, hnets⟩ := hfacts
  obtain ⟨e | u, made⟩ := run
  · cases hok
  · obtain ⟨l, hl, hsource⟩ := List.mem_map.1 hlinks
    have hsound := (Sound.keeps_treeWithin 3 4 _).state sound_fresh hrun
    have hroot : Address.IsEntry ⟨"f:M"⟩ := ⟨['f'], ['M'], by decide⟩
    have hmem := (descendantsWithin_eq_ok hsound hroot hthere (q := []) areNames_nil
      (Work.outcome_eq_ok_of_toOption hfound)).2
    refine ⟨made, l, hrun, hl, fun hwithin => ?_, hnets⟩
    have hlisted := (hmem _).2 hwithin
    rw [hsource] at hlisted
    exact absurd hlisted (by decide)

end Library

end Boardwright
