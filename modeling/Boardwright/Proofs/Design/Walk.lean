import Boardwright.Proofs.Design.Whole
import Mathlib.Data.List.Nodup
import Mathlib.Data.List.Perm.Subperm

/-!
# Walks through a tree

Below the root of a whole tree all questions have an answer. A path of children is followed to
the address that its names make. A path is shorter than the number of instances, since the
instances on it stand under different addresses; so the walk through all instances below the root
comes to an end. It meets each instance once, after all that is below it.
-/

open List

namespace Boardwright

variable {i : Instance}

namespace Library

variable {files : Files} {searched : List Route} {lib lib' : Library} {a b r : Address}
  {n : String} {p q : List String}

/-! ### Paths of children -/

theorem Leads.init (h : lib.Leads a (q ++ [n])) : lib.Leads a q := by
  generalize hp : q ++ [n] = p at h
  cases h with
  | here => simp at hp
  | child h _ _ =>
    obtain ⟨rfl, -⟩ := append_inj' hp rfl
    exact h

theorem Leads.of_append (h : lib.Leads a (p ++ q)) : lib.Leads a p := by
  induction q using List.reverseRecOn with
  | nil => simpa using h
  | append_singleton q n ih =>
    rw [← append_assoc] at h
    exact ih h.init

theorem within_iff_leads : lib.Within a b ↔ ∃ q, lib.Leads a q ∧ b = a.addInstances q := by
  constructor
  · intro h
    induction h with
    | refl => exact ⟨[], .here, rfl⟩
    | tail _ hchild ih =>
      obtain ⟨q, hq, rfl⟩ := ih
      obtain ⟨i, hi, n, hn, rfl⟩ := hchild
      exact ⟨q ++ [n], hq.child hi hn, (Address.addInstances_concat _ _ _).symm⟩
  · rintro ⟨q, hq, rfl⟩
    induction hq with
    | here => exact .refl
    | child _ hi hn ih =>
      rw [Address.addInstances_concat]
      exact ih.tail ⟨_, hi, _, hn, rfl⟩

theorem Whole.exists_instance (h : lib.Whole a) (hq : lib.Leads a q) :
    ∃ i, lib.instances.get? (a.addInstances q) = some i := by
  obtain ⟨-, ns, hns, -⟩ := h q hq
  obtain ⟨i, hi, -⟩ := childrenAt_eq_some.1 hns
  exact ⟨i, hi⟩

/-- The instances on a path stand under different addresses. -/
theorem Whole.length_lt (h : lib.Whole a) (hq : lib.Leads a q) :
    q.length < lib.instances.size := by
  have hfront : ∀ j, lib.Leads a (q.take j) := fun j =>
    Leads.of_append (q := q.drop j) (by rwa [take_append_drop])
  have hnodup : ((List.range (q.length + 1)).map fun j => a.addInstances (q.take j)).Nodup := by
    refine List.Nodup.map_on (fun j hj k hk hjk => ?_) nodup_range
    have htake := Address.addInstances_injective (h _ (hfront j)).1 (h _ (hfront k)).1 hjk
    have hlength := congrArg List.length htake
    rw [mem_range] at hj hk
    simp only [length_take] at hlength
    omega
  have hkeys : ((List.range (q.length + 1)).map fun j => a.addInstances (q.take j)) ⊆
      lib.instances.keys := by
    intro k hk
    obtain ⟨j, -, rfl⟩ := mem_map.1 hk
    exact Table.mem_keys_iff.2 (h.exists_instance (hfront j))
  have hle := (subperm_of_subset hnodup hkeys).length_le
  rw [Table.length_keys, length_map, length_range] at hle
  exact hle

/-! ### Questions below a root -/

theorem outcome_instanceAt (hi : lib.instances.get? a = some i) :
    (instanceAt a).outcome lib = (.ok i, lib) := instanceAt_eq_ok.2 ⟨hi, rfl⟩

theorem follow_of_leads (h : lib.Leads a q) :
    (follow a q).outcome lib = (.ok (a.addInstances q), lib) := by
  induction q generalizing a with
  | nil => rfl
  | cons n q ih =>
    obtain ⟨⟨ns, hns, hn⟩, hq⟩ := h.exists_child
    obtain ⟨i, hi, rfl⟩ := childrenAt_eq_some.1 hns
    refine Work.bind_eq_ok.2 ⟨i, lib, outcome_instanceAt hi, ?_⟩
    rw [if_pos (by simpa using hn)]
    exact ih hq

theorem outcome_tree (hr : r.IsRoot) (hc : lib.instances.contains r) :
    (tree r).outcome lib = (.ok (), lib) := by
  unfold tree treeWithin
  rw [if_neg (by simp [hr.isInstance_eq_false]), Work.outcome_get_bind, if_pos hc]
  rfl

theorem outcome_dataOf (hr : r.IsRoot) (hc : lib.instances.contains r) (hq : AreNames q)
    (hi : lib.instances.get? (r.addInstances q) = some i) :
    (dataOf (r.addInstances q)).outcome lib = (.ok i, lib) := by
  have hentry : (r.addInstances q).entry = r := Address.Tree.entry_eq ⟨hr, q, hq, rfl⟩
  unfold dataOf
  rw [hentry, Work.outcome_bind_ok _ (outcome_tree hr hc)]
  exact outcome_instanceAt hi

theorem outcome_children (hr : r.IsEntry) (hc : lib.instances.contains r) (hw : lib.Whole r)
    (hq : lib.Leads r q) (hi : lib.instances.get? (r.addInstances q) = some i) :
    (children (r.addInstances q)).outcome lib =
      (.ok (i.children.map (r.addInstances q).addInstance), lib) := by
  rw [children_addInstances hr (hw q hq).1, Work.outcome_bind_ok _ (outcome_tree (.inr hr) hc),
    Work.outcome_bind_ok _ (follow_of_leads hq)]
  exact Work.bind_eq_ok.2 ⟨i, lib, outcome_instanceAt hi, rfl⟩

/-! ### The walk through all instances -/

theorem Within.below (hs : Sound files searched lib) (h : lib.Within a b) : a.Below b :=
  Within.exists_names hs (q := []) areNames_nil h

/-- The walks through the trees of several children, one after the other. -/
theorem descendantsOfAll_of_walks (hs : Sound files searched lib)
    {found : Address → Work Library (List Address)} {ns : List String} (hnames : AreNames ns)
    (hnodup : ns.Nodup)
    (hfound : ∀ n ∈ ns, ∃ as, (found (a.addInstance n)).outcome lib = (.ok as, lib) ∧
      as.Pairwise (fun x y => ¬lib.Within x y) ∧ ∀ x ∈ as, (a.addInstance n).Below x) :
    ∃ as, (descendantsOfAll found (ns.map a.addInstance)).outcome lib = (.ok as, lib) ∧
      as.Pairwise (fun x y => ¬lib.Within x y) ∧
      ∀ x ∈ as, ∃ n ∈ ns, (a.addInstance n).Below x := by
  induction ns with
  | nil => exact ⟨[], by simp [descendantsOfAll]⟩
  | cons n ns ih =>
    rw [areNames_cons] at hnames
    rw [nodup_cons] at hnodup
    rw [forall_mem_cons] at hfound
    obtain ⟨first, hfirst, hpair, hbelow⟩ := hfound.1
    obtain ⟨rest, hrest, hpair', hbelow'⟩ := ih hnames.2 hnodup.2 hfound.2
    refine ⟨first ++ rest, ?_, pairwise_append.2 ⟨hpair, hpair', ?_⟩, ?_⟩
    · rw [map_cons, descendantsOfAll]
      exact Work.bind_eq_ok.2 ⟨first, lib, hfirst, Work.bind_eq_ok.2 ⟨rest, lib, hrest, rfl⟩⟩
    · intro x hx y hy hxy
      obtain ⟨m, hm, hmy⟩ := hbelow' y hy
      obtain ⟨q, hq, rfl⟩ := hxy.below hs
      obtain rfl := ((hbelow x hx).addInstances hq).name_eq hnames.1 (hnames.2 m hm) hmy
      exact hnodup.1 hm
    · intro x hx
      rcases mem_append.1 hx with hx | hx
      · exact ⟨n, mem_cons_self, hbelow x hx⟩
      · obtain ⟨m, hm, hmx⟩ := hbelow' x hx
        exact ⟨m, mem_cons_of_mem n hm, hmx⟩

/-- The walk comes to an end, and meets no instance before one that is below it. -/
theorem descendantsWithin_of_leads (hs : Sound files searched lib) (hr : r.IsEntry)
    (hc : lib.instances.contains r) (hw : lib.Whole r) {depth : Nat} (hq : lib.Leads r q)
    (hdepth : lib.instances.size < q.length + depth) :
    ∃ as, (descendantsWithin depth (r.addInstances q)).outcome lib = (.ok as, lib) ∧
      as.Pairwise fun x y => ¬lib.Within x y := by
  induction depth generalizing q with
  | zero =>
    have hlt := hw.length_lt hq
    omega
  | succ depth ih =>
    obtain ⟨hnames, ns, hns, hnodup⟩ := hw q hq
    obtain ⟨i, hi, rfl⟩ := childrenAt_eq_some.1 hns
    have hchildren := (hs.instances _ i hi).2.children
    have hwalks : ∀ n ∈ i.children, ∃ as,
        (descendantsWithin depth ((r.addInstances q).addInstance n)).outcome lib = (.ok as, lib) ∧
          as.Pairwise (fun x y => ¬lib.Within x y) ∧
          ∀ x ∈ as, ((r.addInstances q).addInstance n).Below x := by
      intro n hn
      have hleads := hq.child hi hn
      obtain ⟨as, has, hpair⟩ := ih hleads (by simp; omega)
      have hmem := (descendantsWithin_eq_ok hs hr hc (hw _ hleads).1 has).2
      rw [← Address.addInstances_concat]
      exact ⟨as, has, hpair, fun x hx => ((hmem x).1 hx).below hs⟩
    obtain ⟨below, hbelow, hpair, hthere⟩ :=
      descendantsOfAll_of_walks hs hchildren hnodup hwalks
    refine ⟨below ++ [r.addInstances q], ?_, pairwise_append.2 ⟨hpair, by simp, ?_⟩⟩
    · rw [descendantsWithin]
      refine Work.bind_eq_ok.2 ⟨_, lib, outcome_children hr hc hw hq hi, ?_⟩
      exact Work.bind_eq_ok.2 ⟨below, lib, hbelow, rfl⟩
    · intro x hx y hy hxy
      obtain rfl := mem_singleton.1 hy
      obtain ⟨n, -, hn⟩ := hthere x hx
      obtain ⟨p, hp, he⟩ := hxy.below hs
      exact (hn.addInstances hp).ne_of_child he.symm

/-- All instances below a root are found, each after those below it. -/
theorem descendants_of_whole (hs : Sound files searched lib) (hr : r.IsEntry)
    (hc : lib.instances.contains r) (hw : lib.Whole r) :
    ∃ as, (descendants r).outcome lib = (.ok as, lib) ∧
      (∀ b, b ∈ as ↔ ∃ q, lib.Leads r q ∧ b = r.addInstances q) ∧
      as.Pairwise fun x y => ¬lib.Within x y := by
  have hdepth : lib.instances.size < ([] : List String).length + (lib.instances.size + 1) := by simp
  obtain ⟨as, has, hpair⟩ := descendantsWithin_of_leads hs hr hc hw .here hdepth
  have hmem := (descendantsWithin_eq_ok hs hr hc areNames_nil has).2
  refine ⟨as, ?_, fun b => (hmem b).trans within_iff_leads, hpair⟩
  unfold descendants
  rw [Address.entry_eq_self_of_isEntry hr, Work.outcome_bind_ok _ (outcome_tree (.inr hr) hc),
    Work.outcome_get_bind]
  exact has

end Library

end Boardwright
