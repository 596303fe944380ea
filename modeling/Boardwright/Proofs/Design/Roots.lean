import Boardwright.Proofs.Design.Walk
import Boardwright.Proofs.Parents

/-!
# Roots and what stands below them

What stands below a root has a word for a name, and so has the root itself, unless it is a file.
A file is only a module: it is no pin, no signal, no interface and no component. All instances
below a block are found by the walk through its tree. If a file has children, the walk does not
end, since a child of a file is read as the file again; so it finds its start alone, or nothing.
-/

namespace Boardwright

variable {as : List Address}

theorem Builtin.isWord_name (b : Builtin) : IsWord b.address.name := by
  cases b <;> decide

theorem Builtin.isEntry_address (b : Builtin) : b.address.IsEntry := by
  refine b.isRoot_address.resolve_left fun hfile => hfile ?_
  cases b <;> decide

namespace Library

variable {files : Files} {searched : List Route} {lib lib' : Library} {a b r : Address}
  {n : String} {q : List String} {l : Layer} {i : Instance}

/-! ### Names -/

theorem IsLayer.isWord_name (h : IsLayer files searched a l) (ha : a.IsEntry) :
    IsWord a.name := by
  cases h with
  | builtin hb =>
    rw [← Builtin.address_of_ofAddress? hb]
    exact Builtin.isWord_name _
  | block _ hd _ _ _ =>
    obtain ⟨hspelled, rfl⟩ := spelled_of_defined (N := .words) id hd
    rcases hspelled.origin with hfile | ⟨-, hname⟩
    · exact absurd hfile.address ha.not_isFile
    · exact hname

theorem IsLayer.eq_of_isFile (h : IsLayer files searched a l) (ha : a.IsFile) :
    ∃ v, v.address = a ∧ l = v :: Builtin.module.layer := by
  cases h with
  | @builtin _ b hb =>
    rw [← Builtin.address_of_ofAddress? hb] at ha
    exact absurd ha b.isEntry_address.not_isFile
  | @block _ base d data rest _ hd hbase _ hrest =>
    obtain ⟨hspelled, rfl⟩ := spelled_of_defined (N := .words) id hd
    rcases hspelled.origin with hfile | ⟨hentry, -⟩
    · have hlookup : d.lookup d.base = .ok Builtin.module.address := by
        rw [Definition.lookup, hfile.closure, hfile.base]
        rfl
      obtain rfl := Except.ok.inj (hlookup.symm.trans hbase)
      have hmodule : IsLayer files searched Builtin.module.address Builtin.module.layer :=
        .builtin rfl
      exact ⟨_, rfl, by rw [hrest.unique hmodule]⟩
    · exact absurd ha hentry.not_isFile

theorem Sound.isLayer_of_isRoot (hs : Sound files searched lib) (ha : a.IsRoot)
    (hi : lib.instances.get? a = some i) : IsLayer files searched a i.levels :=
  (hs.origin a i hi).resolve_right fun h => h.1 ha

theorem Sound.eq_module_of_isFile (hs : Sound files searched lib) (ha : a.IsFile)
    (hi : lib.instances.get? a = some i) {b : Builtin} (hb : i.isA b = true) : b = .module := by
  obtain ⟨v, rfl, hlevels⟩ := (hs.isLayer_of_isRoot (.inl ha) hi).eq_of_isFile ha
  rw [Instance.isA, hlevels, List.any_cons, Bool.or_eq_true, beq_iff_eq] at hb
  rcases hb with hb | hb
  · rw [hb] at ha
    exact absurd ha b.isEntry_address.not_isFile
  · revert hb
    cases b <;> decide

theorem Sound.isWord_name (hs : Sound files searched lib) (hi : lib.instances.get? a = some i)
    (hsignal : i.isA .signal = true) : IsWord a.name := by
  rcases hs.origin a i hi with hlayer | ⟨-, hword⟩
  · rcases hlayer.isRoot with ha | ha
    · cases hs.eq_module_of_isFile ha hi hsignal
    · exact hlayer.isWord_name ha
  · exact hword

/-! ### The walk through a file -/

/-- What stands below a file is read as the file. -/
theorem outcome_children_of_isFile (hr : r.IsFile) (hi : lib.instances.get? r = some i)
    (ha : r.Tree a) :
    (children a).outcome lib = (.ok (i.children.map r.addInstance), lib) := by
  have hc : lib.instances.contains r := by
    rw [Table.contains_eq_isSome, hi]
    rfl
  have hend : (instanceAt r >>= fun i => pure (i.children.map r.addInstance)).outcome lib =
      (.ok (i.children.map r.addInstance), lib) :=
    Work.bind_eq_ok.2 ⟨i, lib, outcome_instanceAt hi, rfl⟩
  unfold children
  rw [ha.entry_eq, Work.outcome_bind_ok _ (outcome_tree (.inl hr) hc)]
  obtain ⟨-, q, hq, rfl⟩ := ha
  rcases hr.instanceSection_addInstances hq with hsection | hsection
  · rw [hsection]
    exact hend
  · rw [hsection]
    exact hend

/-- The walk does not come to the end of a file with children. -/
theorem descendantsWithin_ne_ok (hs : Sound files searched lib) (hr : r.IsFile)
    (hi : lib.instances.get? r = some i) (hchildren : i.children ≠ []) (ha : r.Tree a)
    (depth : Nat) (as : List Address) :
    (descendantsWithin depth a).outcome lib ≠ (.ok as, lib') := by
  induction depth generalizing a as lib' with
  | zero => exact nofun
  | succ depth ih =>
    intro h
    obtain ⟨n, ns, hns⟩ := List.exists_cons_of_ne_nil hchildren
    have hn : IsName n := (hs.instances r i hi).2.children n (by simp [hns])
    rw [descendantsWithin, Work.outcome_bind_ok _ (outcome_children_of_isFile hr hi ha), hns] at h
    obtain ⟨below, lib₁, hbelow, -⟩ := Work.bind_eq_ok.1 h
    obtain ⟨first, lib₂, hfirst, -⟩ := Work.bind_eq_ok.1 hbelow
    exact ih ⟨.inl hr, (Address.Below.refl r).addInstance hn⟩ first hfirst

theorem outcome_descendantsWithin_of_isFile (hr : r.IsFile) (hi : lib.instances.get? r = some i)
    (hchildren : i.children = []) (ha : r.Tree a) (depth : Nat) :
    (descendantsWithin (depth + 1) a).outcome lib = (.ok [a], lib) := by
  rw [descendantsWithin, Work.outcome_bind_ok _ (outcome_children_of_isFile hr hi ha), hchildren]
  rfl

/-- The walk in a file finds its start alone. -/
theorem descendantsWithin_of_isFile (hs : Sound files searched lib) (hr : r.IsFile)
    (hi : lib.instances.get? r = some i) (ha : r.Tree a) {depth : Nat}
    (h : (descendantsWithin depth a).outcome lib = (.ok as, lib')) :
    lib' = lib ∧ i.children = [] ∧ as = [a] := by
  have hchildren : i.children = [] := by
    by_contra hne
    exact descendantsWithin_ne_ok hs hr hi hne ha depth as h
  cases depth with
  | zero => cases h
  | succ depth =>
    rw [outcome_descendantsWithin_of_isFile hr hi hchildren ha] at h
    cases h
    exact ⟨rfl, hchildren, rfl⟩

/-! ### All instances below a root -/

theorem Reached.exists_walk (hlib : Reached files searched lib) (ha : r.Tree a)
    (h : (descendants a).outcome lib = (.ok as, lib')) :
    ∃ lib₁ i, Reached files searched lib₁ ∧ lib₁.instances.get? r = some i ∧
      (descendantsWithin (lib₁.instances.size + 1) a).outcome lib₁ = (.ok as, lib') := by
  unfold descendants at h
  rw [ha.entry_eq] at h
  obtain ⟨_, lib₁, htree, hwalk⟩ := Work.bind_eq_ok.1 h
  rw [Work.outcome_get_bind] at hwalk
  have hlib₁ : Reached files searched ((Library.tree r).outcome lib).2 := hlib.tree _ _ r
  rw [htree] at hlib₁
  obtain ⟨i, hi⟩ := Option.isSome_iff_exists.1 (contains_of_treeWithin hlib.sound.settled htree)
  exact ⟨lib₁, i, hlib₁, hi, hwalk⟩

theorem Reached.descendants_of_isFile (hlib : Reached files searched lib) (hr : r.IsFile)
    (ha : r.Tree a) (h : (descendants a).outcome lib = (.ok as, lib')) : as = [a] := by
  obtain ⟨lib₁, i, hlib₁, hi, hwalk⟩ := hlib.exists_walk ha h
  exact (descendantsWithin_of_isFile hlib₁.sound hr hi ha hwalk).2.2

/-- The walk through the tree of a root finds each instance of the tree once. -/
theorem Reached.descendants_eq_ok (hlib : Reached files searched lib) (hr : r.IsRoot)
    (h : (descendants r).outcome lib = (.ok as, lib')) :
    Reached files searched lib' ∧ lib'.instances.contains r ∧ as.Nodup ∧
      ∀ b, b ∈ as ↔ lib'.Within r b := by
  have hself : r.Tree r := ⟨hr, .refl r⟩
  obtain ⟨lib₁, i, hlib₁, hi, hwalk⟩ := hlib.exists_walk hself h
  have hsome : (lib₁.instances.get? r).isSome := by simp [hi]
  have hc : lib₁.instances.contains r := by rwa [Table.contains_eq_isSome]
  rcases hr with hr | hr
  · obtain ⟨rfl, hchildren, rfl⟩ := descendantsWithin_of_isFile hlib₁.sound hr hi hself hwalk
    refine ⟨hlib₁, hc, List.nodup_singleton r, fun b => ?_⟩
    rw [List.mem_singleton, Within, Relation.ReflTransGen.cases_head_iff]
    constructor
    · rintro rfl
      exact Or.inl rfl
    · rintro (rfl | ⟨k, ⟨j, hj, n, hn, -⟩, -⟩)
      · rfl
      · cases Option.some.inj (hi.symm.trans hj)
        rw [hchildren] at hn
        exact absurd hn List.not_mem_nil
  · have hwhole := hlib₁.whole (.inr hr) hsome
    obtain ⟨as', has', hmem, hpair⟩ := descendants_of_whole hlib₁.sound hr hc hwhole
    unfold descendants at has'
    rw [Address.entry_eq_self_of_isEntry hr, Work.outcome_bind_ok _ (outcome_tree (.inr hr) hc),
      Work.outcome_get_bind, hwalk] at has'
    cases has'
    have hnodup : as.Nodup := by
      refine hpair.imp fun hnot => ?_
      rintro rfl
      exact hnot .refl
    exact ⟨hlib₁, hc, hnodup, fun b => (hmem b).trans within_iff_leads.symm⟩

end Library

end Boardwright
