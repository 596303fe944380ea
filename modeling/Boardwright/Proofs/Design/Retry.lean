import Boardwright.Proofs.Design.Independence

/-!
# A tree that could not be made

If the tree of a root cannot be made, the root is not kept and nothing outside of its tree is
changed. What was made below the root is kept, though, and so are replacements that were made
known before one of them failed. A statement that failed because it came too early finds the
instance it refers to in a second attempt, which may then succeed: `tree_of_failed_tree`. If
nothing was left behind below the root, a second attempt raises the same failure:
`treeWithin_failed`.
-/

namespace Boardwright

namespace Library

variable {files : Files} {searched : List Route} {lib lib' : Library}
  {a : Address} {e : Failure} {extension nesting : Nat}

/-! ### Layers stay known -/

theorem stable_knowsLayers (files : Files) (searched : List Route) (s : Library) :
    Stable (fun _ => True) fun lib => Settled files searched lib ∧ s.KnowsLayers lib where
  below _ _ := trivial
  layer depth x := by
    intro lib ⟨hs, hknows⟩
    obtain ⟨hs', hknows', -⟩ := hs.layerWithin rfl
    refine ⟨⟨hs', hknows.trans hknows'⟩, fun l hl => ?_⟩
    exact ((Settled.keeps_layerWithin files searched depth x lib hs).2 l hl).sound
  place _ h _ _ := ⟨h.1.congr _ _, h.2⟩
  forget h _ _ := ⟨h.1.congr _ _, h.2⟩
  override _ _ h _ _ := ⟨h.1.congr _ _, h.2⟩
  link _ h _ _ _ := ⟨h.1.congr _ _, h.2⟩
  ask _ h _ _ := ⟨h.1.congr _ _, h.2⟩
  drop h _ _ := ⟨h.1.congr _ _, h.2⟩

theorem knowsLayers_treeWithin (hs : Settled files searched lib) (extension nesting : Nat)
    (a : Address) : lib.KnowsLayers ((treeWithin extension nesting a).outcome lib).2 := by
  have hstable := stable_knowsLayers files searched lib
  have hkeep : Work.Guards (fun t => Settled files searched t ∧ lib.KnowsLayers t)
      (treeWithin extension nesting a) :=
    keeps_treeWithin (hstable.layer extension a) fun l hl =>
      hstable.keeps_createRoot extension nesting trivial hl (fun _ h => ⟨h.1.congr _ _, h.2⟩)
        fun _ h => ⟨h.1.congr _ _, h.2⟩
  exact (hkeep lib ⟨hs, .refl lib⟩).1.2

/-! ### A failed attempt -/

/-- A tree that could not be made leaves everything outside of it as it was, and its root is not
kept. If it leaves what is below the root as it was, a second attempt fails in the same way; this
is not said of a limit that was met, since the second attempt may know more layers. -/
theorem treeWithin_failed (hlib : Reached files searched lib)
    (h : (treeWithin extension nesting a).outcome lib = (.error e, lib')) :
    lib'.instances.get? a = lib.instances.get? a ∧ SameElsewhere a.Tree lib' lib ∧
      (e ≠ .fault .endlessRecursion → lib'.instances.AgreeOn a.Tree lib.instances →
        lib'.replaced.AgreeOn a.Tree lib.replaced →
        ∃ lib'', (treeWithin extension nesting a).outcome lib' = (.error e, lib'')) := by
  have hs := hlib.sound.settled
  have hs' := (hlib.tree extension nesting a).sound.settled
  have hsame := sameElsewhere_treeWithin hs extension nesting a
  have hknows := knowsLayers_treeWithin hs extension nesting a
  rw [h] at hs' hsame hknows
  refine ⟨get?_of_failed h, hsame, fun he hinstances hreplaced => ?_⟩
  have hside : Alongside files searched (fun _ => True) 0 lib lib' := by
    refine ⟨hs, hs', fun x l hl => .inl (hknows x l hl), fun x _ => ?_, fun x _ => ?_⟩
    · by_cases hx : a.Tree x
      · exact (hinstances x hx).symm
      · exact (hsame.instances x hx).symm
    · by_cases hx : a.Tree x
      · exact (hreplaced x hx).symm
      · exact (hsame.replaced x hx).symm
  obtain ⟨_, lib'', hagain, -, rfl⟩ := (Alongside.inStep_treeWithin 0 extension nesting (a := a) trivial
    fun _ _ => trivial).error hside he h
  exact ⟨lib'', hagain⟩

/-- A module that sets an attribute of an instance that it never makes. -/
def dangling : Files where
  texts := ⟨[(["f"], "module M:\n  x.v = 1\n")]⟩

/-- Nothing is left behind, so a second attempt fails in the same way. -/
theorem treeWithin_failed_dangling :
    ∃ e lib' lib'', (treeWithin 2 3 ⟨"f:M"⟩).outcome { files := dangling } = (.error e, lib') ∧
      lib'.instances.keys = [] ∧ lib'.replaced.keys = [] ∧
      (treeWithin 2 3 ⟨"f:M"⟩).outcome lib' = (.error e, lib'') := by
  obtain ⟨run, hrun⟩ : ∃ run, (treeWithin 2 3 ⟨"f:M"⟩).outcome { files := dangling } = run :=
    ⟨_, rfl⟩
  have hfacts : (match run.1 with
      | .error e => e.isGroup
      | .ok _ => false) = true ∧ run.2.instances.keys = [] ∧ run.2.replaced.keys = [] := by
    rw [← hrun]
    decide +kernel
  obtain ⟨hfails, hinstances, hreplaced⟩ := hfacts
  obtain ⟨e | u, lib'⟩ := run
  · dsimp only at hinstances hreplaced
    obtain ⟨-, -, hagain⟩ := treeWithin_failed .fresh hrun
    have hgroup : e ≠ .fault .endlessRecursion := by
      rintro rfl
      cases hfails
    obtain ⟨lib'', hagain⟩ := hagain hgroup
      (fun k _ => Table.get?_eq_none_iff.2 (by simp [hinstances]))
      fun k _ => Table.get?_eq_none_iff.2 (by simp [hreplaced])
    exact ⟨e, lib', lib'', hrun, hinstances, hreplaced, hagain⟩
  · cases hfails

/-- A module that sets an attribute of an instance before it makes the instance. -/
def early : Files where
  texts := ⟨[(["f"], "module X:\n  a = 1\nmodule M:\n  x.a = 2\n  x = new X\n")]⟩

/-- A tree cannot be made because a statement comes before the instance that it refers to. The
instance is left behind, and with it the tree can be made in a second attempt. -/
theorem tree_of_failed_tree :
    ∃ e lib' made, (tree ⟨"f:M"⟩).outcome { files := early } = (.error e, lib') ∧
      lib'.instances.keys = [⟨"f:M::x"⟩] ∧ (tree ⟨"f:M"⟩).outcome lib' = (.ok (), made) := by
  obtain ⟨run, hrun⟩ : ∃ run, (tree ⟨"f:M"⟩).outcome { files := early } = run := ⟨_, rfl⟩
  have hfacts : run.1.toOption = none ∧ run.2.instances.keys = [⟨"f:M::x"⟩] ∧
      ((tree ⟨"f:M"⟩).outcome run.2).1.toOption = some () := by
    rw [← hrun]
    decide +kernel
  obtain ⟨hfails, hkeys, hagain⟩ := hfacts
  obtain ⟨e | u, lib'⟩ := run
  · exact ⟨e, lib', _, hrun, hkeys, Work.outcome_eq_ok_of_toOption hagain⟩
  · cases hfails

end Library

end Boardwright
