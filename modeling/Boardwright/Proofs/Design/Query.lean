import Boardwright.Design.Query
import Boardwright.Proofs.Design.Instance
import Mathlib.Logic.Relation

/-!
# What questions about a design find

A library is `Reached` if work on the design of some files has led to it; it is sound then.
A question makes the tree of a block if it is not there, and changes nothing else. So once
the tree of a block is there, the answers about the instances below this block are read off
one library: the children of an instance are those that it holds, and what is found below
an instance is all that is reached from it by going from an instance to its children.
-/

namespace Boardwright

open Relation List Work

variable {as : List Address}

namespace Library

variable {files : Files} {searched : List Route} {lib lib' : Library} {a b e : Address}
  {q : List String}

/-- A library that work on the design of some files has led to. -/
inductive Reached (files : Files) (searched : List Route) : Library → Prop
  | fresh : Reached files searched { files, searched }
  | definition {lib : Library} (h : Reached files searched lib) (a : Address) :
    Reached files searched ((definition a).outcome lib).2
  | layer {lib : Library} (h : Reached files searched lib) (extension : Nat) (a : Address) :
    Reached files searched ((layerWithin extension a).outcome lib).2
  | tree {lib : Library} (h : Reached files searched lib) (extension nesting : Nat)
    (a : Address) : Reached files searched ((treeWithin extension nesting a).outcome lib).2

theorem Reached.sound (h : Reached files searched lib) : Sound files searched lib := by
  induction h with
  | fresh => exact sound_fresh
  | @definition lib h a ih =>
    have hframe := keeps_definition (I := fun lib' => lib'.instances = lib.instances)
      (fun _ _ h => h) a lib rfl
    exact ih.congr (ih.settled.definition rfl).1 hframe.1
  | layer h extension a ih => exact (Sound.keeps_layerWithin files searched extension a _ ih).1
  | tree h extension nesting a ih => exact (Sound.keeps_treeWithin extension nesting a _ ih).1

def IsChild (lib : Library) (a b : Address) : Prop :=
  ∃ i, lib.instances.get? a = some i ∧ ∃ n ∈ i.children, b = a.addInstance n

/-- An instance and one that is reached from it by going to children. -/
def Within (lib : Library) : Address → Address → Prop := ReflTransGen lib.IsChild

/-! ### Reading one library -/

theorem tree_eq_ok (hc : lib.instances.contains a)
    (h : (tree a).outcome lib = (.ok (), lib')) : lib' = lib := by
  obtain ⟨-, hlib⟩ | ⟨hnot, -⟩ := treeWithin_eq_ok h
  · exact hlib
  · exact absurd hc hnot

theorem instanceAt_eq_ok {i : Instance} :
    (instanceAt a).outcome lib = (.ok i, lib') ↔ lib.instances.get? a = some i ∧ lib = lib' := by
  unfold instanceAt
  rw [outcome_get_bind]
  cases lib.instances.get? a <;> simp

theorem follow_eq_ok (h : (follow a q).outcome lib = (.ok b, lib')) :
    b = a.addInstances q ∧ lib' = lib := by
  induction q generalizing a with
  | nil =>
    cases h
    exact ⟨rfl, rfl⟩
  | cons n q ih =>
    obtain ⟨i, lib₁, hi, h⟩ := bind_eq_ok.1 h
    obtain ⟨-, rfl⟩ := instanceAt_eq_ok.1 hi
    split at h
    · exact ih h
    · cases h

/-- An instance below a block is followed to from the block. -/
theorem children_addInstances (he : e.IsEntry) (hq : AreNames q) :
    children (e.addInstances q) = (do
      tree e
      let here ← follow e q
      return (← instanceAt here).children.map here.addInstance) := by
  unfold children
  rw [he.entry_addInstances hq]
  cases q with
  | nil => rw [Address.addInstances_nil, Address.instanceSection_of_isEntry he]; rfl
  | cons n q =>
    obtain ⟨path, hpath, hne, hsplit⟩ := he.instanceSection_addInstances hq
    rw [hpath]
    split
    · next hnone => cases hnone
    · next hnil => exact absurd (Option.some.inj hnil) hne
    · next hsome =>
        cases hsome
        rw [hsplit]

/-- The children of an instance below a block whose tree is there. -/
theorem children_eq_ok (he : e.IsEntry) (hq : AreNames q) (hc : lib.instances.contains e)
    (h : (children (e.addInstances q)).outcome lib = (.ok as, lib')) :
    lib' = lib ∧ ∃ i, lib.instances.get? (e.addInstances q) = some i ∧
      as = i.children.map (e.addInstances q).addInstance := by
  rw [children_addInstances he hq] at h
  obtain ⟨_, lib₁, htree, hrest⟩ := bind_eq_ok.1 h
  obtain rfl := tree_eq_ok hc htree
  obtain ⟨here, lib₂, hfollow, hhere⟩ := bind_eq_ok.1 hrest
  obtain ⟨rfl, rfl⟩ := follow_eq_ok hfollow
  obtain ⟨i, lib₃, hat, hend⟩ := bind_eq_ok.1 hhere
  obtain ⟨hi, rfl⟩ := instanceAt_eq_ok.1 hat
  cases hend
  exact ⟨rfl, i, hi, rfl⟩

/-! ### What is found below an instance -/

theorem descendantsOfAll_eq_ok {found : Address → Work Library (List Address)} {ks : List Address}
    (hks : ∀ k ∈ ks, ∀ bs lib', (found k).outcome lib = (.ok bs, lib') →
      lib' = lib ∧ ∀ b, b ∈ bs ↔ lib.Within k b)
    (h : (descendantsOfAll found ks).outcome lib = (.ok as, lib')) :
    lib' = lib ∧ ∀ b, b ∈ as ↔ ∃ k ∈ ks, lib.Within k b := by
  induction ks generalizing as lib' with
  | nil =>
    rw [descendantsOfAll] at h
    cases h
    exact ⟨rfl, fun b => by simp⟩
  | cons k ks ih =>
    rw [forall_mem_cons] at hks
    rw [descendantsOfAll] at h
    obtain ⟨first, lib₁, hfirst, hrest⟩ := bind_eq_ok.1 h
    obtain ⟨rfl, hmem⟩ := hks.1 first lib₁ hfirst
    obtain ⟨rest, lib₂, hrest, hend⟩ := bind_eq_ok.1 hrest
    obtain ⟨rfl, hmem'⟩ := ih hks.2 hrest
    cases hend
    refine ⟨rfl, fun b => ?_⟩
    simp only [mem_append, hmem, hmem', mem_cons, exists_eq_or_imp]

/-- What is found below an instance of a tree that is there is all that is reached from
it. -/
theorem descendantsWithin_eq_ok (hs : Sound files searched lib) (he : e.IsEntry)
    (hc : lib.instances.contains e) {depth : Nat} (hq : AreNames q)
    (h : (descendantsWithin depth (e.addInstances q)).outcome lib = (.ok as, lib')) :
    lib' = lib ∧ ∀ b, b ∈ as ↔ lib.Within (e.addInstances q) b := by
  induction depth generalizing q as lib' with
  | zero =>
    rw [descendantsWithin] at h
    cases h
  | succ depth ih =>
    rw [descendantsWithin] at h
    obtain ⟨kids, lib₁, hkids, hrest⟩ := bind_eq_ok.1 h
    obtain ⟨rfl, i, hi, rfl⟩ := children_eq_ok he hq hc hkids
    obtain ⟨below, lib₂, hbelow, hend⟩ := bind_eq_ok.1 hrest
    have hnames := (hs.instances _ i hi).2.children
    have hall := descendantsOfAll_eq_ok (fun k hk bs lib' hbs => ?_) hbelow
    · obtain ⟨rfl, hmem⟩ := hall
      cases hend
      refine ⟨rfl, fun b => ?_⟩
      rw [mem_append, hmem, mem_singleton, Within, ReflTransGen.cases_head_iff]
      constructor
      · rintro (⟨k, hk, hkb⟩ | rfl)
        · obtain ⟨n, hn, rfl⟩ := mem_map.1 hk
          exact Or.inr ⟨_, ⟨i, hi, n, hn, rfl⟩, hkb⟩
        · exact Or.inl rfl
      · rintro (rfl | ⟨k, ⟨j, hj, n, hn, rfl⟩, hkb⟩)
        · exact Or.inr rfl
        · cases Option.some.inj (hi.symm.trans hj)
          exact Or.inl ⟨_, mem_map_of_mem hn, hkb⟩
    · obtain ⟨n, hn, rfl⟩ := mem_map.1 hk
      rw [← Address.addInstances_concat] at hbs ⊢
      exact ih (hq.concat (hnames n hn)) hbs

/-- What is reached from an instance below a block stands below that block. -/
theorem Within.exists_names (hs : Sound files searched lib) (hq : AreNames q)
    (h : lib.Within (e.addInstances q) b) : ∃ q', AreNames q' ∧ b = e.addInstances q' := by
  induction h with
  | refl => exact ⟨q, hq, rfl⟩
  | tail _ hchild ih =>
    obtain ⟨q', hq', rfl⟩ := ih
    obtain ⟨i, hi, n, hn, rfl⟩ := hchild
    have hname := (hs.instances _ i hi).2.children n hn
    refine ⟨q' ++ [n], hq'.concat hname, ?_⟩
    rw [Address.addInstances_concat]

/-! ### Questions change nothing but trees -/

section Questions

variable {I : Library → Prop}

theorem keeps_instanceAt (a : Address) : Guards I (instanceAt a) := by
  refine Keeps.get.bind fun lib _ => ?_
  split
  · exact .pure trivial
  · exact .throw _

theorem keeps_follow (a : Address) (q : List String) : Guards I (follow a q) := by
  induction q generalizing a with
  | nil => exact .pure trivial
  | cons n q ih =>
    refine (keeps_instanceAt a).bind fun i _ => ?_
    split
    · exact ih _
    · exact .throw _

variable (htree : ∀ a, Guards I (tree a))

include htree

theorem keeps_children (a : Address) : Guards I (children a) := by
  have hhere : ∀ here : Address, Guards I
      (do return (← instanceAt here).children.map here.addInstance) :=
    fun here => (keeps_instanceAt here).bind fun _ _ => .pure trivial
  refine (htree a.entry).bind fun _ _ => ?_
  split
  · exact hhere _
  · exact hhere _
  · exact (keeps_follow _ _).bind fun here _ => hhere here

theorem keeps_descendants (a : Address) :
    Keeps I (fun as => a ∈ as) (descendants a) := by
  have hwalk : ∀ depth a, Keeps I (fun as => a ∈ as) (descendantsWithin depth a) := by
    intro depth
    induction depth with
    | zero => exact fun a => .throw _
    | succ depth ih =>
      have hall : ∀ ks : List Address, Guards I
          (descendantsOfAll (descendantsWithin depth) ks) := by
        intro ks
        induction ks with
        | nil => exact .pure trivial
        | cons k ks ihks => exact (ih k).bind fun _ _ => ihks.bind fun _ _ => .pure trivial
      exact fun a => (keeps_children htree a).bind fun ks _ =>
        (hall ks).bind fun _ _ => .pure (by simp)
  exact (htree a.entry).bind fun _ _ => Keeps.get.bind fun _ _ => hwalk _ a

end Questions

/-! ### Questions keep a library sound -/

theorem Sound.keeps_instanceAt (a : Address) :
    Keeps (Sound files searched) (fun _ => a.IsPlace) (instanceAt a) := by
  intro lib hs
  unfold instanceAt
  rw [outcome_get_bind]
  cases hi : lib.instances.get? a with
  | none => exact ⟨hs, nofun⟩
  | some i => exact ⟨hs, fun _ _ => (hs.instances a i hi).1⟩

theorem Sound.keeps_tree (a : Address) :
    Guards (Sound files searched) (tree a) := Sound.keeps_treeWithin _ _ a

end Library

end Boardwright
