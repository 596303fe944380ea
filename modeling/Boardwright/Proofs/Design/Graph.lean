import Boardwright.Proofs.Design.Walk

/-!
# Instances as nodes

An instance may also be seen as a node of its own, which holds its children themselves and not
only their names. A node that was made stays what it is; another one may be put in its place. A
`Graph` is a library together with all nodes that were made, numbered as they came, and the node
that is current under each address. It changes in the same steps as the library does: a new
instance is a new node, which becomes current and is put among the children of the node that is
current for its parent; a forgotten instance leaves its node behind.

Going from node to node and going from address to address is the same below each root:
`walk_agrees`. The node that a path of children leads to is the current one of the address that
the names of the path make.
-/

open Option

namespace Boardwright

namespace Library

/-- An instance as a node, with the numbers of its children. -/
structure Node where
  address : Address
  children : Table String Nat

/-- A library, the nodes that were made, and the number of the node under each address. -/
structure Graph where
  library : Library
  nodes : List Node
  current : Table Address Nat

namespace Graph

/-- A node whose child of a name is the node of a number. -/
def adopt (n : String) (c : Nat) (v : Node) : Node := { v with children := v.children.set n c }

/-- A new node under an address, which is a child of the current node of its parent. -/
def place (g : Graph) (parent : Option Address) (a : Address) (i : Instance) : Graph where
  library := g.library.place parent a i
  nodes := (match parent.bind g.current.get? with
    | some c => g.nodes.modify c (adopt a.name g.nodes.length)
    | none => g.nodes) ++ [⟨a, ∅⟩]
  current := g.current.set a g.nodes.length

def forget (g : Graph) (a : Address) : Graph :=
  ⟨g.library.forget a, g.nodes, g.current.erase a⟩

def reach (g : Graph) (c : Nat) : List String → Option Nat
  | [] => some c
  | n :: q => do
    let v ← g.nodes[c]?
    g.reach (← v.children.get? n) q

/-- A graph that comes about by the steps that the making of instances consists of. -/
inductive Grown (files : Files) (searched : List Route) : Graph → Prop
  | fresh : Grown files searched ⟨{ files, searched }, [], ∅⟩
  | root {g : Graph} (h : Grown files searched g) {a : Address} (ha : a.IsRoot) (levels : Layer) :
    Grown files searched (g.place none a ⟨levels, ∅, [], []⟩)
  | child {g : Graph} (h : Grown files searched g) {p : Address} {n : String} (hp : p.IsPlace)
    (hn : IsName n) (levels : Layer) :
    Grown files searched (g.place (some p) (p.addInstance n) ⟨levels, ∅, [], []⟩)
  | forget {g : Graph} (h : Grown files searched g) (a : Address) :
    Grown files searched (g.forget a)
  | other {g : Graph} (h : Grown files searched g) {lib : Library}
    (hlib : ∀ k, lib.childrenAt k = g.library.childrenAt k) :
    Grown files searched { g with library := lib }

variable {files : Files} {searched : List Route} {g : Graph} {lib : Library} {a k p r : Address}
  {c c' : Nat} {n : String} {q ns : List String} {v : Node}

/-! ### What is current -/

/-- The node of a number stands for the instance under an address: the children have the same
names, and where one is current under the address of a child, it is that child. -/
structure Shows (g : Graph) (k : Address) (c : Nat) (v : Node) (ns : List String) : Prop where
  place : k.IsPlace
  node : g.nodes[c]? = some v
  address : v.address = k
  names : g.library.childrenAt k = some ns
  children : ∀ n, n ∈ ns ↔ (v.children.get? n).isSome
  current : ∀ n c', v.children.get? n = some c' → IsName n ∧
    ∀ c'', g.current.get? (k.addInstance n) = some c'' → c'' = c'

/-- Nodes are current under the addresses of the instances, and stand for them. -/
structure Faithful (g : Graph) : Prop where
  current : ∀ k c, g.current.get? k = some c → ∃ v ns, g.Shows k c v ns
  there : ∀ k, (g.library.childrenAt k).isSome → (g.current.get? k).isSome

/-- Nodes that are current under different addresses are different. -/
theorem Faithful.injective (h : g.Faithful) (hk : g.current.get? k = some c)
    (hp : g.current.get? p = some c) : k = p := by
  obtain ⟨v, _, hv⟩ := h.current k c hk
  obtain ⟨w, _, hw⟩ := h.current p c hp
  have hvw := Option.some.inj (hv.node.symm.trans hw.node)
  rw [← hv.address, ← hw.address, hvw]

theorem Shows.lt (h : g.Shows k c v ns) : c < g.nodes.length :=
  (List.getElem?_eq_some_iff.1 h.node).1

/-- The nodes after a new one has come: the parent has adopted it, and all others are as they
were. -/
theorem getElem?_place (g : Graph) (parent : Option Address) (a : Address) (i : Instance)
    (hc : c < g.nodes.length) :
    (g.place parent a i).nodes[c]? = (g.nodes[c]?).map fun v =>
      if parent.bind g.current.get? = some c then adopt a.name g.nodes.length v else v := by
  unfold place
  dsimp only
  cases hp : parent.bind g.current.get? with
  | none => simp [List.getElem?_append_left hc]
  | some d =>
    dsimp only
    rw [List.getElem?_append_left (by simpa using hc), List.getElem?_modify]
    congr 1
    funext v
    simp [eq_comm]

theorem getElem?_place_self (g : Graph) (parent : Option Address) (a : Address) (i : Instance) :
    (g.place parent a i).nodes[g.nodes.length]? = some ⟨a, ∅⟩ := by
  unfold place
  dsimp only
  split <;> simp

theorem shows_place_self (g : Graph) {parent : Option Address} (ha : a.IsPlace) (levels : Layer)
    (hnames : (g.library.place parent a ⟨levels, ∅, [], []⟩).childrenAt a = some []) :
    (g.place parent a ⟨levels, ∅, [], []⟩).Shows a g.nodes.length ⟨a, ∅⟩ [] where
  place := ha
  node := getElem?_place_self g parent a _
  address := rfl
  names := hnames
  children := by simp
  current _ _ h := by simp at h

theorem childrenAt_placeRoot (lib : Library) (a k : Address) (i : Instance) :
    (lib.place none a i).childrenAt k = if k = a then some i.children else lib.childrenAt k := by
  unfold childrenAt Library.place
  dsimp only
  rw [Table.get?_set]
  by_cases h : k = a <;> simp [h]

theorem Faithful.root (h : g.Faithful) (ha : a.IsRoot) (levels : Layer) :
    (g.place none a ⟨levels, ∅, [], []⟩).Faithful where
  current k c hk := by
    change (g.current.set a _).get? k = some c at hk
    by_cases hka : k = a
    · subst hka
      rw [Table.get?_set_self] at hk
      cases hk
      exact ⟨_, _, shows_place_self g ha.isPlace levels (by simp [childrenAt_placeRoot])⟩
    · rw [Table.get?_set_of_ne _ _ hka] at hk
      obtain ⟨v, ns, hv⟩ := h.current k c hk
      refine ⟨v, ns, hv.place, ?_, hv.address, ?_, hv.children, fun n c' hc' => ?_⟩
      · simp [getElem?_place _ _ _ _ hv.lt, hv.node]
      · exact (childrenAt_placeRoot _ _ _ _).trans ((if_neg hka).trans hv.names)
      · obtain ⟨hn, hcurrent⟩ := hv.current n c' hc'
        have hne : k.addInstance n ≠ a := by
          rintro rfl
          exact hv.place.not_isRoot_addInstance hn ha
        refine ⟨hn, fun c'' hc'' => hcurrent c'' ?_⟩
        exact (Table.get?_set_of_ne _ _ hne).symm.trans hc''
  there k hk := by
    change ((g.library.place none a _).childrenAt k).isSome at hk
    change ((g.current.set a _).get? k).isSome
    rw [childrenAt_placeRoot] at hk
    by_cases hka : k = a
    · simp [hka]
    · rw [Table.get?_set_of_ne _ _ hka]
      rw [if_neg hka] at hk
      exact h.there k hk

theorem Shows.adopts (hv : g.Shows p c v ns) (hc : g.current.get? p = some c)
    (hn : IsName n) (i : Instance) :
    (g.place (some p) (p.addInstance n) i).Shows p c (adopt n g.nodes.length v)
      (withChild n ns) where
  place := hv.place
  node := by
    rw [getElem?_place _ _ _ _ hv.lt, hv.node, map_some, bind_some, if_pos hc,
      Address.name_addInstance p hn]
  address := hv.address
  names := by
    have hne := (Address.Below.refl (p.addInstance n)).ne_of_child
    refine (childrenAt_place _ _ hn _ _).trans ?_
    rw [if_neg hne.symm, if_pos rfl, hv.names, map_some]
  children m := by
    rw [mem_withChild, adopt, Table.get?_set]
    by_cases hmn : m = n <;> simp [hmn, hv.children]
  current m c' hc' := by
    change (v.children.set n _).get? m = some c' at hc'
    by_cases hmn : m = n
    · subst hmn
      rw [Table.get?_set_self] at hc'
      refine ⟨hn, fun c'' hc'' => ?_⟩
      exact Option.some.inj (hc''.symm.trans ((Table.get?_set_self ..).trans hc'))
    · rw [Table.get?_set_of_ne _ _ hmn] at hc'
      obtain ⟨hm, hcurrent⟩ := hv.current m c' hc'
      refine ⟨hm, fun c'' hc'' => hcurrent c'' ?_⟩
      refine (Table.get?_set_of_ne _ _ fun he => hmn ?_).symm.trans hc''
      exact (Address.addInstance_injective hm hn he).2

theorem Shows.stays (hv : g.Shows k c v ns) (hc : g.current.get? p ≠ some c)
    (hkp : k ≠ p) (hkn : k ≠ p.addInstance n) (hn : IsName n) (i : Instance) :
    (g.place (some p) (p.addInstance n) i).Shows k c v ns where
  place := hv.place
  node := by
    rw [getElem?_place _ _ _ _ hv.lt, hv.node, map_some, bind_some, if_neg hc]
  address := hv.address
  names := by
    refine (childrenAt_place _ _ hn _ _).trans ?_
    rw [if_neg hkn, if_neg hkp, hv.names]
  children := hv.children
  current m c' hc' := by
    obtain ⟨hm, hcurrent⟩ := hv.current m c' hc'
    refine ⟨hm, fun c'' hc'' => hcurrent c'' ?_⟩
    refine (Table.get?_set_of_ne _ _ fun he => hkp ?_).symm.trans hc''
    exact (Address.addInstance_injective hm hn he).1

theorem Faithful.child (h : g.Faithful) (hp : p.IsPlace) (hn : IsName n) (levels : Layer) :
    (g.place (some p) (p.addInstance n) ⟨levels, ∅, [], []⟩).Faithful where
  current k c hk := by
    change (g.current.set (p.addInstance n) _).get? k = some c at hk
    by_cases hkn : k = p.addInstance n
    · subst hkn
      rw [Table.get?_set_self] at hk
      cases hk
      refine ⟨_, _, shows_place_self g (hp.addInstance hn) levels ?_⟩
      simp [childrenAt_place _ _ hn]
    · rw [Table.get?_set_of_ne _ _ hkn] at hk
      obtain ⟨v, ns, hv⟩ := h.current k c hk
      by_cases hkp : k = p
      · subst hkp
        exact ⟨_, _, hv.adopts hk hn _⟩
      · exact ⟨v, ns, hv.stays (fun hc => hkp (h.injective hk hc)) hkp hkn hn _⟩
  there k hk := by
    change ((g.library.place (some p) (p.addInstance n) _).childrenAt k).isSome at hk
    change ((g.current.set (p.addInstance n) _).get? k).isSome
    rw [childrenAt_place _ _ hn] at hk
    by_cases hkn : k = p.addInstance n
    · simp [hkn]
    · rw [Table.get?_set_of_ne _ _ hkn]
      rw [if_neg hkn] at hk
      refine h.there k ?_
      split at hk
      · next hkp =>
          rw [isSome_map] at hk
          rwa [hkp]
      · exact hk

theorem Faithful.forget (h : g.Faithful) (a : Address) : (g.forget a).Faithful where
  current k c hk := by
    have hsub : ∀ {k c}, (g.current.erase a).get? k = some c → k ≠ a ∧ g.current.get? k = some c := by
      intro k c hk
      rw [Table.get?_erase] at hk
      split at hk
      · cases hk
      · next hka => exact ⟨by simpa using hka, hk⟩
    obtain ⟨hka, hk⟩ := hsub hk
    obtain ⟨v, ns, hv⟩ := h.current k c hk
    refine ⟨v, ns, hv.place, hv.node, hv.address, ?_, hv.children, fun n c' hc' => ?_⟩
    · rw [← hv.names, childrenAt, childrenAt]
      exact congrArg _ (Table.get?_erase_of_ne _ hka)
    · obtain ⟨hn, hcurrent⟩ := hv.current n c' hc'
      exact ⟨hn, fun c'' hc'' => hcurrent c'' (hsub hc'').2⟩
  there k hk := by
    change (Option.map _ ((g.library.instances.erase a).get? k)).isSome at hk
    change ((g.current.erase a).get? k).isSome
    rw [Table.get?_erase] at hk ⊢
    split at hk
    · cases hk
    · next hka =>
        rw [if_neg hka]
        exact h.there k hk

theorem Grown.faithful (h : Grown files searched g) : g.Faithful := by
  induction h with
  | fresh => exact ⟨nofun, nofun⟩
  | root _ ha levels ih => exact ih.root ha levels
  | child _ hp hn levels ih => exact ih.child hp hn levels
  | forget _ a ih => exact ih.forget a
  | other _ hlib ih =>
    refine ⟨fun k c hk => ?_, fun k hk => ih.there k (hlib k ▸ hk)⟩
    obtain ⟨v, ns, hv⟩ := ih.current k c hk
    exact ⟨v, ns, hv.place, hv.node, hv.address, (hlib k).trans hv.names, hv.children, hv.current⟩

/-! ### From node to node -/

theorem reach_cons (g : Graph) (c : Nat) (n : String) (q : List String) :
    g.reach c (n :: q) =
      (g.nodes[c]?).bind fun v => (v.children.get? n).bind fun d => g.reach d q := rfl

/-- From the current node of a whole tree, children lead where their names lead, and to nodes that
are current. -/
theorem Faithful.reach (h : g.Faithful) (hw : g.library.Whole k) (hc : g.current.get? k = some c) :
    (∀ c', g.reach c q = some c' →
      g.library.Leads k q ∧ g.current.get? (k.addInstances q) = some c') ∧
      (g.library.Leads k q → ∃ c', g.reach c q = some c') := by
  induction q generalizing k c with
  | nil =>
    refine ⟨fun c' hc' => ?_, fun _ => ⟨c, rfl⟩⟩
    cases hc'
    exact ⟨.here, hc⟩
  | cons n q ih =>
    obtain ⟨v, ns, hv⟩ := h.current k c hc
    obtain ⟨ns', hns, -, hchildren⟩ := whole_iff.1 hw
    cases hv.names.symm.trans hns
    -- the child that the node holds is the current one
    have hchild : ∀ d, v.children.get? n = some d →
        g.library.Whole (k.addInstance n) ∧ g.current.get? (k.addInstance n) = some d := by
      intro d hd
      have hwhole := (hchildren n ((hv.children n).2 (by simp [hd]))).2
      obtain ⟨-, ms, hms, -⟩ := hwhole [] .here
      obtain ⟨d', hd'⟩ := isSome_iff_exists.1 (h.there (k.addInstance n) (by simp_all))
      exact ⟨hwhole, hd' ▸ congrArg some ((hv.current n d hd).2 d' hd')⟩
    rw [reach_cons, hv.node, bind_some]
    constructor
    · intro c' hc'
      obtain ⟨d, hd, hc'⟩ := bind_eq_some_iff.1 hc'
      obtain ⟨hwhole, hcurrent⟩ := hchild d hd
      obtain ⟨hleads, hthere⟩ := (ih hwhole hcurrent).1 c' hc'
      exact ⟨hleads.of_child hns ((hv.children n).2 (by simp [hd])), hthere⟩
    · intro hleads
      obtain ⟨⟨ms, hms, hn⟩, hq⟩ := hleads.exists_child
      cases hms.symm.trans hns
      obtain ⟨d, hd⟩ := isSome_iff_exists.1 ((hv.children n).1 hn)
      obtain ⟨hwhole, hcurrent⟩ := hchild d hd
      obtain ⟨c', hc'⟩ := (ih hwhole hcurrent).2 hq
      exact ⟨c', by rw [hd, bind_some, hc']⟩

/-! ### Each library is that of a graph -/

def IsLibrary (files : Files) (searched : List Route) (lib : Library) : Prop :=
  Settled files searched lib ∧ ∃ g, Grown files searched g ∧ g.library = lib

theorem IsLibrary.other {lib' : Library} (h : IsLibrary files searched lib)
    (hs : Settled files searched lib') (hlib : ∀ k, lib'.childrenAt k = lib.childrenAt k) :
    IsLibrary files searched lib' := by
  obtain ⟨-, g, hg, rfl⟩ := h
  exact ⟨hs, _, hg.other hlib, rfl⟩

theorem IsLibrary.keeps_layerWithin (depth : Nat) (x : Address) :
    Work.Keeps (IsLibrary files searched) (IsLayer files searched x) (layerWithin depth x) :=
  Settled.keeps_layerWithin_of And.left
    (fun h hs hi _ => IsLibrary.other h hs (childrenAt_eq hi)) depth x

theorem stable_isLibrary (files : Files) (searched : List Route) :
    Stable Address.IsPlace (IsLibrary files searched) where
  below := Address.IsPlace.addInstance
  layer depth x := (IsLibrary.keeps_layerWithin depth x).imp fun _ h => h.sound
  place levels h hp hn := by
    obtain ⟨hs, g, hg, rfl⟩ := h
    exact ⟨hs.congr _ _, _, hg.child hp hn levels, rfl⟩
  forget h _ _ := by
    obtain ⟨hs, g, hg, rfl⟩ := h
    exact ⟨hs.congr _ _, _, hg.forget _, rfl⟩
  override _ _ h _ _ := by
    refine h.other (h.1.congr _ _) fun k => childrenAt_modify (fun i => ?_) _ _ k
    rfl
  link _ h _ _ _ := by
    refine h.other (h.1.congr _ _) fun k => childrenAt_modify (fun i => ?_) _ _ k
    rfl
  ask _ h _ _ := h.other (h.1.congr _ _) fun _ => rfl
  drop h _ _ := h.other (h.1.congr _ _) fun _ => rfl

theorem isLibrary_of_reached (h : Reached files searched lib) : IsLibrary files searched lib := by
  induction h with
  | fresh => exact ⟨settled_fresh, _, .fresh, rfl⟩
  | @definition lib h a ih =>
    rcases hout : (Library.definition a).outcome lib with ⟨o, lib'⟩
    exact ih.other (ih.1.definition hout).1 fun k => childrenAt_eq (frame_definition hout).1 k
  | layer h extension a ih => exact (IsLibrary.keeps_layerWithin extension a _ ih).1
  | @tree lib h extension nesting a ih =>
    have hkeep : Work.Guards (IsLibrary files searched) (treeWithin extension nesting a) := by
      refine keeps_treeWithin (IsLibrary.keeps_layerWithin extension a) fun l hl => ?_
      refine (stable_isLibrary files searched).keeps_createRoot extension nesting
        hl.isRoot.isPlace hl.sound (fun lib h => ?_) fun lib h => ?_
      · obtain ⟨hs, g, hg, rfl⟩ := h
        exact ⟨hs.congr _ _, _, hg.root hl.isRoot l, rfl⟩
      · obtain ⟨hs, g, hg, rfl⟩ := h
        exact ⟨hs.congr _ _, _, hg.forget a, rfl⟩
    exact (hkeep lib ih).1

end Graph

/-! ### The two ways through a design -/

variable {files : Files} {searched : List Route} {lib : Library} {r : Address}

theorem answers_of_get? (hr : r.IsEntry) (hc : lib.instances.contains r) {q : List String}
    (hq : AreNames q) {i : Instance} (hi : lib.instances.get? (r.addInstances q) = some i) :
    (∀ bs, (isAny bs (r.addInstances q)).outcome lib = (.ok (i.isAny bs), lib)) ∧
      (linksOf (r.addInstances q)).outcome lib =
        (.ok (i.links.map fun l => (l.source, l.target)), lib) ∧
      (dataOf (r.addInstances q)).outcome lib = (.ok i, lib) := by
  refine ⟨fun bs => ?_, ?_, outcome_dataOf (.inr hr) hc hq hi⟩
  · exact Work.bind_eq_ok.2 ⟨i, lib, outcome_instanceAt hi, rfl⟩
  · exact Work.bind_eq_ok.2 ⟨i, lib, outcome_instanceAt hi, rfl⟩

/-- Below a block whose tree is there, the instances are found in the same way from node to node
and from address to address: a path of children leads to the current node of the address that its
names make. The walk through them comes to an end; it meets each of them once, after those that
are below it, and all that may be asked about them is answered. -/
theorem walk_agrees (h : Reached files searched lib) (hr : r.IsEntry)
    (hc : lib.instances.contains r) :
    (∃ g, Graph.Grown files searched g ∧ g.library = lib) ∧
    (∀ g c, Graph.Grown files searched g → g.library = lib → g.current.get? r = some c →
      ∀ q, (lib.Leads r q ↔ ∃ c', g.reach c q = some c') ∧
        ∀ c', g.reach c q = some c' → (g.nodes[c']?).map Node.address = some (r.addInstances q) ∧
          g.current.get? (r.addInstances q) = some c') ∧
    ∃ as, (descendants r).outcome lib = (.ok as, lib) ∧ as.Nodup ∧
      (∀ b, b ∈ as ↔ ∃ q, lib.Leads r q ∧ b = r.addInstances q) ∧
      as.Pairwise (fun x y => ¬lib.Within x y) ∧
      ∀ b ∈ as, (∀ bs, ∃ v, (isAny bs b).outcome lib = (.ok v, lib)) ∧
        (∃ ls, (linksOf b).outcome lib = (.ok ls, lib)) ∧
        ∃ i, (dataOf b).outcome lib = (.ok i, lib) := by
  have hw := h.whole (.inr hr) (by rwa [Table.contains_eq_isSome] at hc)
  refine ⟨(Graph.isLibrary_of_reached h).2, ?_, ?_⟩
  · rintro g c hg rfl hcurrent q
    have hreach := hg.faithful.reach (q := q) hw hcurrent
    refine ⟨⟨hreach.2, fun ⟨c', hc'⟩ => (hreach.1 c' hc').1⟩, fun c' hc' => ?_⟩
    obtain ⟨-, hthere⟩ := hreach.1 c' hc'
    obtain ⟨v, ns, hv⟩ := hg.faithful.current _ _ hthere
    exact ⟨by rw [hv.node, Option.map_some, hv.address], hthere⟩
  · obtain ⟨as, has, hmem, hpair⟩ := descendants_of_whole h.sound hr hc hw
    refine ⟨as, has, ?_, hmem, hpair, fun b hb => ?_⟩
    · refine hpair.imp fun {x y} hxy he => hxy ?_
      rw [he]
      exact .refl
    · obtain ⟨q, hq, rfl⟩ := (hmem b).1 hb
      obtain ⟨i, hi⟩ := hw.exists_instance hq
      obtain ⟨hany, hlinks, hdata⟩ := answers_of_get? hr hc (hw q hq).1 hi
      exact ⟨fun bs => ⟨_, hany bs⟩, ⟨_, hlinks⟩, ⟨i, hdata⟩⟩

/-- A module that sets an attribute before it makes the instance, which it makes twice. -/
def retried : Files where
  texts := ⟨[(["f"], "module X:\n  signal s\nmodule M:\n  x.v = 1\n  x = new X\n  x = new X\n")]⟩

/-- The tree is made in a second attempt, with what the first one left behind still there. -/
theorem walk_agrees_retried :
    ∃ lib as, Reached retried [] lib ∧ lib.instances.contains ⟨"f:M"⟩ ∧
      (∃ g c c', Graph.Grown retried [] g ∧ g.library = lib ∧ g.current.get? ⟨"f:M"⟩ = some c ∧
        g.reach c ["x", "s"] = some c' ∧ g.current.get? ⟨"f:M::x.s"⟩ = some c') ∧
      (descendants ⟨"f:M"⟩).outcome lib = (.ok as, lib) ∧ as.Nodup := by
  obtain ⟨lib, hlib, hc, hx, hs⟩ : ∃ lib, Reached retried [] lib ∧
      lib.instances.contains ⟨"f:M"⟩ ∧ lib.childrenAt ⟨"f:M"⟩ = some ["x"] ∧
      lib.childrenAt (Address.addInstances ⟨"f:M"⟩ ["x"]) = some ["s"] :=
    ⟨_, (Reached.fresh.tree 2 3 ⟨"f:M"⟩).tree 2 3 ⟨"f:M"⟩, by decide +kernel⟩
  have hr : Address.IsEntry ⟨"f:M"⟩ := ⟨['f'], ['M'], by decide⟩
  obtain ⟨⟨g, hg, hlibrary⟩, hnodes, as, has, hnodup, -⟩ := walk_agrees hlib hr hc
  obtain ⟨c, hcurrent⟩ := Option.isSome_iff_exists.1
    (hg.faithful.there ⟨"f:M"⟩ (by rw [hlibrary, hx]; rfl))
  obtain ⟨hreach, hthere⟩ := hnodes g c hg hlibrary hcurrent ["x", "s"]
  obtain ⟨c', hc'⟩ := hreach.1 ((Leads.here.concat (q := []) hx (by simp)).concat hs (by simp))
  exact ⟨lib, as, hlib, hc, ⟨g, c, c', hg, hlibrary, hcurrent, hc', (hthere c' hc').2⟩, has, hnodup⟩

end Library

end Boardwright
