import Boardwright.Proofs.Design.Query

/-!
# Trees that do not touch one another

An instance is made in the place that is set apart for it: what stands under an address that is
not below its own, instances and replacements, is the same before and after, whether the instance
could be made or not. The places that are set apart for two roots have no address in common, so
the making of one tree leaves each other tree as it is.
-/

namespace Boardwright

variable {n : String}

namespace Address

variable {a r k x : Address} {q : List String}

/-- An address that is reached from `a` by following names. -/
def Below (a k : Address) : Prop := ∃ q, AreNames q ∧ k = a.addInstances q

theorem Below.refl (a : Address) : a.Below a := ⟨[], areNames_nil, rfl⟩

theorem Below.addInstances (h : a.Below k) (hq : AreNames q) :
    a.Below (k.addInstances q) := by
  obtain ⟨p, hp, rfl⟩ := h
  exact ⟨p ++ q, areNames_append.2 ⟨hp, hq⟩, (addInstances_append _ _ _).symm⟩

theorem Below.addInstance (h : a.Below k) (hn : IsName n) : a.Below (k.addInstance n) :=
  h.addInstances (areNames_singleton.2 hn)

theorem Below.ne_of_child (h : (a.addInstance n).Below k) : k ≠ a := by
  obtain ⟨q, -, rfl⟩ := h
  intro he
  have hlt := length_lt_addInstance a n
  have hle := length_le_addInstances (a.addInstance n) q
  rw [he] at hle
  omega

theorem Below.name_eq {m : String} (hm : IsName m) (hn : IsName n) (h : (a.addInstance m).Below k)
    (h' : (a.addInstance n).Below k) : m = n := by
  obtain ⟨p, hp, rfl⟩ := h
  obtain ⟨q, hq, he⟩ := h'
  rw [← addInstances_cons, ← addInstances_cons] at he
  exact (List.cons.inj (addInstances_injective (areNames_cons.2 ⟨hm, hp⟩)
    (areNames_cons.2 ⟨hn, hq⟩) he)).1

def Tree (a k : Address) : Prop := a.IsRoot ∧ a.Below k

theorem Tree.addInstances (h : a.Tree k) (hq : AreNames q) :
    a.Tree (k.addInstances q) := ⟨h.1, h.2.addInstances hq⟩

theorem Tree.addInstance (h : a.Tree k) (hn : IsName n) : a.Tree (k.addInstance n) :=
  ⟨h.1, h.2.addInstance hn⟩

theorem Tree.entry_eq (h : a.Tree k) : k.entry = a := by
  obtain ⟨ha, q, hq, rfl⟩ := h
  exact ha.entry_addInstances hq

theorem Tree.eq_of_tree (h : a.Tree k) (hr : r.Tree k) : a = r := by
  rw [← h.entry_eq, hr.entry_eq]

end Address

namespace Library

variable {files : Files} {searched : List Route} {A : Address → Prop} {lib s t : Library}
  {a x : Address} {levels : Layer}

/-- Libraries with the same instances and replacements, but for those under the addresses of
`A`. -/
structure SameElsewhere (A : Address → Prop) (s t : Library) : Prop where
  instances : s.instances.AgreeOn (¬A ·) t.instances
  replaced : s.replaced.AgreeOn (¬A ·) t.replaced

theorem SameElsewhere.refl (A : Address → Prop) (s : Library) : SameElsewhere A s s :=
  ⟨fun _ _ => rfl, fun _ _ => rfl⟩

theorem keeps_sameElsewhere_layerWithin (depth : Nat) (x : Address) :
    Work.Keeps (fun lib => Settled files searched lib ∧ SameElsewhere A lib s)
      (IsLayer files searched x) (layerWithin depth x) := by
  refine Settled.keeps_layerWithin_of And.left (fun h hs hi hr => ⟨hs, ?_, ?_⟩) depth x
  · rw [hi]
    exact h.2.instances
  · rw [hr]
    exact h.2.replaced

theorem stable_sameElsewhere (files : Files) (searched : List Route) (s : Library)
    (hA : ∀ {p q}, A p → AreNames q → A (p.addInstances q)) :
    Stable A fun lib => Settled files searched lib ∧ SameElsewhere A lib s where
  below h hn := hA h (areNames_singleton.2 hn)
  layer depth x := (keeps_sameElsewhere_layerWithin depth x).imp fun _ h => h.sound
  place levels h hp hn := by
    refine ⟨h.1.congr _ _, ?_, h.2.replaced⟩
    exact (h.2.instances.set_left _ (hA hp (areNames_singleton.2 hn))).modify_left _ hp
  forget h hp hn :=
    ⟨h.1.congr _ _, h.2.instances.erase_left (hA hp (areNames_singleton.2 hn)), h.2.replaced⟩
  override _ _ h hp hq :=
    ⟨h.1.congr _ _, h.2.instances.modify_left _ (hA hp hq), h.2.replaced⟩
  link _ h hp _ _ := ⟨h.1.congr _ _, h.2.instances.modify_left _ hp, h.2.replaced⟩
  ask _ h hp hq := ⟨h.1.congr _ _, h.2.instances, h.2.replaced.set_left _ (hA hp hq)⟩
  drop h hp hq := ⟨h.1.congr _ _, h.2.instances, h.2.replaced.erase_left (hA hp hq)⟩

/-- The making of a tree changes nothing but what stands in this tree. -/
theorem sameElsewhere_treeWithin (hs : Settled files searched lib) (extension nesting : Nat)
    (a : Address) : SameElsewhere a.Tree ((treeWithin extension nesting a).outcome lib).2 lib := by
  have hkeep : Work.Guards (fun t => Settled files searched t ∧ SameElsewhere a.Tree t lib) (treeWithin extension nesting a) := by
    refine keeps_treeWithin (keeps_sameElsewhere_layerWithin extension a) fun l hl => ?_
    have ha : a.Tree a := ⟨hl.isRoot, .refl a⟩
    refine (stable_sameElsewhere files searched lib Address.Tree.addInstances).keeps_createRoot
      extension nesting ha hl.sound (fun t h => ?_) fun t h => ?_
    · exact ⟨h.1.congr _ _, h.2.instances.set_left _ ha, h.2.replaced⟩
    · exact ⟨h.1.congr _ _, h.2.instances.erase_left ha, h.2.replaced⟩
  exact (hkeep lib ⟨hs, .refl _ lib⟩).1.2

/-- A root whose tree could not be made is not kept. -/
theorem get?_of_failed {lib' : Library} {e : Failure} {extension nesting : Nat}
    (h : (treeWithin extension nesting a).outcome lib = (.error e, lib')) :
    lib'.instances.get? a = lib.instances.get? a := by
  unfold treeWithin at h
  split at h
  · cases h
    rfl
  · rw [Work.outcome_get_bind] at h
    split at h
    · cases h
    · next hc =>
        have hnone : lib.instances.get? a = none := by
          rw [Table.contains_eq_isSome, Option.isSome_iff_ne_none, not_not] at hc
          exact hc
        rcases hl : (layerWithin extension a).outcome lib with ⟨e' | l, lib₁⟩
        · rw [Work.outcome_bind_error _ hl] at h
          cases h
          rw [(frame_layerWithin hl).1]
        · rw [Work.outcome_bind_ok _ hl] at h
          cases nesting with
          | zero =>
            cases h
            rw [(frame_layerWithin hl).1]
          | succ nesting =>
            rw [createWithin_succ, Work.outcome_modify_bind, Work.outcome_onFailure] at h
            split at h
            · cases h
            · cases h
              rw [hnone, forget, Table.get?_erase]
              simp

theorem treeWithin_of_contains (hc : lib.instances.contains a) (extension nesting : Nat) :
    ((treeWithin extension nesting a).outcome lib).2 = lib := by
  unfold treeWithin
  split
  · rfl
  · rw [Work.outcome_get_bind, if_pos hc]
    rfl

end Library

end Boardwright
