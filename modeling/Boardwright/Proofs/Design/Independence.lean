import Boardwright.Proofs.Design.Alongside
import Boardwright.Proofs.Design.Coupled
import Boardwright.Proofs.Design.Elsewhere

/-!
# The tree of a root does not depend on other questions

What was asked of a library before leaves definitions, layers and the trees of other roots
behind, and replacements that were known when a tree failed. The tree of a root comes out as it
does in a fresh library all the same: `treeWithin_independent`. The library and a fresh one go on
side by side, since both hold the same below the root, namely nothing.
-/

namespace Boardwright

namespace Library

variable {files : Files} {searched : List Route} {A : Address → Prop} {more : Nat}
  {lib s s' t t' : Library} {a r x : Address} {l : Layer}

namespace Alongside

theorem place (h : Alongside files searched A more s t) (parent : Option Address) (a : Address)
    (i : Instance) : Alongside files searched A more (s.place parent a i) (t.place parent a i) := by
  have hset := h.instances.set a i
  cases parent with
  | none => exact h.congr hset h.replaced
  | some p => exact h.congr (hset.modify p _) h.replaced

/-- Libraries stay side by side while instances are made in both. -/
theorem coupled (files : Files) (searched : List Route) (more extension : Nat)
    (hA : ∀ x, a.Below x → A x) :
    Coupled Endless Eq Eq IsName (fun x y => x = y ∧ a.Below x) Layer.Same
      (Alongside files searched A more) extension (extension + more) where
  leeway := .exact (.inr fun _ he => ⟨_, he⟩)
  below h hn := ⟨by rw [h.1], h.2.addInstance hn⟩
  builtin b := b.layer_same
  layer x := (inStep_layerWithin extension x).imp fun _ _ h => ⟨h.1, h.2.sound⟩
  place h hP _ hl := by
    rw [hP.1, hl.1]
    exact h.place _ _ _
  present hP hT := by
    rw [← hP.1, ← hT]
    refine Work.Along.get.bind fun s t h => ?_
    rw [Table.contains_eq_isSome, Table.contains_eq_isSome, h.instances _ (hA _ hP.2)]
    split
    · exact .pure trivial
    · exact .throw _
  override _ _ h hP := by
    rw [hP.1]
    exact h.congr (h.instances.modify _ _) h.replaced
  link h hP hu hv hT := by
    rw [hP.1, hu.1, hv.1, hT]
    exact h.congr (h.instances.modify _ _) h.replaced
  forget _ h hP := by
    rw [hP.1]
    exact h.congr (h.instances.erase _) h.replaced
  replaced h hP _ hq := by
    rw [← hP.1]
    exact h.replaced _ (hA _ (hP.2.addInstances hq))
  ask b h hP := by
    rw [hP.1]
    exact h.congr h.instances (h.replaced.set _ b)
  drop h hP := by
    rw [hP.1]
    exact h.congr h.instances (h.replaced.erase _)

theorem inStep_treeWithin (more extension nesting : Nat) (ha : A a) (hA : ∀ k, a.Tree k → A k) :
    Work.InStep Endless (Alongside files searched A more) (fun _ _ => True)
      (treeWithin extension nesting a) (treeWithin (extension + more) nesting a) := by
  unfold treeWithin
  split
  · exact .throw _
  · refine Work.Along.get.bind fun s t h => ?_
    rw [Table.contains_eq_isSome, Table.contains_eq_isSome, h.instances a ha]
    split
    · exact .pure trivial
    · refine (inStep_layerWithin extension a).bind fun l l' hl => ?_
      obtain ⟨rfl, hl⟩ := hl
      refine (coupled files searched more extension fun x hx => hA x ⟨hl.isRoot, hx⟩)
        |>.along_createWithin (fun _ _ => Layer.Same.coupled fun _ => rfl) nesting ⟨rfl, .refl a⟩
          ⟨rfl, hl.sound⟩ fun s t h => ?_
      exact h.place none a _

end Alongside

/-! ### Questions about other roots -/

/-- A library that work on the design of some files has led to, without a question for the tree
of `r`. -/
inductive ReachedApart (files : Files) (searched : List Route) (r : Address) : Library → Prop
  | fresh : ReachedApart files searched r { files, searched }
  | definition {lib : Library} (h : ReachedApart files searched r lib) (a : Address) :
    ReachedApart files searched r ((definition a).outcome lib).2
  | layer {lib : Library} (h : ReachedApart files searched r lib) (extension : Nat)
    (a : Address) : ReachedApart files searched r ((layerWithin extension a).outcome lib).2
  | tree {lib : Library} (h : ReachedApart files searched r lib) (extension nesting : Nat)
    (a : Address) (ha : a ≠ r) :
    ReachedApart files searched r ((treeWithin extension nesting a).outcome lib).2

theorem ReachedApart.reached (h : ReachedApart files searched r lib) :
    Reached files searched lib := by
  induction h with
  | fresh => exact .fresh
  | definition _ a ih => exact ih.definition a
  | layer _ extension a ih => exact ih.layer extension a
  | tree _ extension nesting a _ ih => exact ih.tree extension nesting a

/-- The addresses that the tree of a root depends on. -/
def Concerns (r x : Address) : Prop := x = r ∨ r.Tree x

theorem not_tree_of_ne (hr : r.entrySection.any (· ≠ "") = true) (hinst : r.isInstance = false)
    (ha : a ≠ r) : ¬a.Tree r := by
  rintro ⟨hroot, q, hq, rfl⟩
  cases hroot with
  | inl hfile =>
    refine Address.not_isFile_entry hr ?_
    rwa [hfile.entry_addInstances]
  | inr hentry =>
    cases q with
    | nil => exact ha rfl
    | cons n q =>
      obtain ⟨F, E, -, hreads⟩ := hentry.addInstances hq
      rw [hreads.isInstance] at hinst
      cases hinst

/-- Without a question for it, nothing is held that the tree of a root depends on. -/
theorem ReachedApart.absent (h : ReachedApart files searched r lib)
    (hr : r.entrySection.any (· ≠ "") = true) (hinst : r.isInstance = false)
    (hx : Concerns r x) : lib.instances.get? x = none ∧ lib.replaced.get? x = none := by
  induction h with
  | fresh => exact ⟨rfl, rfl⟩
  | @definition lib _ a ih =>
    rcases hout : (Library.definition a).outcome lib with ⟨o, lib'⟩
    rwa [(frame_definition hout).1, (frame_definition hout).2]
  | @layer lib _ extension a ih =>
    rcases hout : (layerWithin extension a).outcome lib with ⟨o, lib'⟩
    rwa [(frame_layerWithin hout).1, (frame_layerWithin hout).2]
  | tree h extension nesting a ha ih =>
    have hsame := sameElsewhere_treeWithin h.reached.sound.settled extension nesting a
    have hother : ¬a.Tree x := by
      rcases hx with rfl | hx
      · exact not_tree_of_ne hr hinst ha
      · exact fun hax => ha (hax.eq_of_tree hx)
    rwa [hsame.instances x hother, hsame.replaced x hother]

theorem Alongside.treeWithin_same (h : Alongside files searched (Concerns r) more s t)
    (hnone : s.instances.get? r = none) {extension nesting : Nat} {o : Except Failure Unit}
    (hs : (treeWithin extension nesting r).outcome s = (o, s'))
    (ho : o ≠ .error (.fault .endlessRecursion)) :
    ∃ t', (treeWithin (extension + more) nesting r).outcome t = (o, t') ∧
      (o = .ok () → s'.instances.AgreeOn r.Below t'.instances) := by
  have hstep : Work.InStep Endless (Alongside files searched (Concerns r) more) (fun _ _ => True)
      (treeWithin extension nesting r) (treeWithin (extension + more) nesting r) :=
    inStep_treeWithin more extension nesting (.inl rfl) fun _ hk => .inr hk
  cases o with
  | error e =>
    obtain ⟨_, t', ht, -, rfl⟩ := hstep.error h (fun he => ho (congrArg _ he)) hs
    exact ⟨t', ht, nofun⟩
  | ok u =>
    obtain ⟨_, t', ht, hsame, -⟩ := hstep.exists_ok h hs
    refine ⟨t', ht, fun _ k hk => hsame.instances k (.inr ⟨?_, hk⟩)⟩
    obtain ⟨hc, -⟩ | ⟨-, l, _, hl, -⟩ := treeWithin_eq_ok hs
    · rw [Table.contains_eq_isSome, hnone] at hc
      cases hc
    · exact ((Settled.keeps_layerWithin files searched extension r).result h.settled hl).isRoot

theorem exists_length_le (lib : Library) :
    ∃ more, ∀ x l, lib.layers.get? x = some l → l.length ≤ more := by
  refine ⟨(lib.layers.keys.map fun x => ((lib.layers.get? x).getD []).length).max?.getD 0, ?_⟩
  intro x l hl
  refine List.le_max?_getD_of_mem (List.mem_map.2 ⟨x, Table.mem_keys_of_get? hl, ?_⟩)
  rw [hl]
  rfl

theorem outcome_treeWithin_of_isInstance (hinst : r.isInstance = true) (extension nesting : Nat)
    (lib : Library) : (treeWithin extension nesting r).outcome lib =
      (.error (.fault (.unsupported "")), lib) := by
  unfold treeWithin
  rw [if_pos hinst]
  rfl

/-- The tree of a block comes out in a library that was asked other questions as it does in a
fresh one: the same instances stand in it, or the same failure is raised. Only how many blocks may
extend one another counts for more in the fresh library, by no more than `more`. -/
theorem treeWithin_independent (hr : r.entrySection.any (· ≠ "") = true)
    (h : ReachedApart files searched r lib) :
    (∀ extension nesting o made,
      (treeWithin extension nesting r).outcome { files, searched } = (o, made) →
      o ≠ .error (.fault .endlessRecursion) →
      ∃ made', (treeWithin extension nesting r).outcome lib = (o, made') ∧
        (o = .ok () → made.instances.AgreeOn r.Below made'.instances)) ∧
    ∃ more, ∀ extension nesting o made',
      (treeWithin extension nesting r).outcome lib = (o, made') →
      o ≠ .error (.fault .endlessRecursion) →
      ∃ made, (treeWithin (extension + more) nesting r).outcome { files, searched } = (o, made) ∧
        (o = .ok () → made'.instances.AgreeOn r.Below made.instances) := by
  cases hinst : r.isInstance with
  | true =>
    simp only [outcome_treeWithin_of_isInstance hinst]
    constructor
    · rintro _ _ _ _ ⟨⟩ -
      exact ⟨lib, rfl, nofun⟩
    · refine ⟨0, ?_⟩
      rintro _ _ _ _ ⟨⟩ -
      exact ⟨_, rfl, nofun⟩
  | false =>
    have hsettled := h.reached.sound.settled
    have habsent := fun x (hx : Concerns r x) => h.absent hr hinst hx
    constructor
    · intro extension nesting o made hmade ho
      have hside : Alongside files searched (Concerns r) 0 { files, searched } lib :=
        ⟨settled_fresh, hsettled, nofun, fun x hx => (habsent x hx).1.symm,
          fun x hx => (habsent x hx).2.symm⟩
      exact hside.treeWithin_same rfl hmade ho
    · obtain ⟨more, hmore⟩ := exists_length_le lib
      refine ⟨more, fun extension nesting o made' hmade ho => ?_⟩
      have hside : Alongside files searched (Concerns r) more lib { files, searched } :=
        ⟨hsettled, settled_fresh, fun x l hl => .inr (hmore x l hl), fun x hx => (habsent x hx).1,
          fun x hx => (habsent x hx).2⟩
      exact hside.treeWithin_same (habsent r (.inl rfl)).1 hmade ho

/-- A module with an instance, and one whose second replacement names no block. -/
def crossed : Files where
  texts := ⟨[(["f"], "module C:\n  signal s\nmodule M:\n  x = new C\n  x.v = 1\n" ++
    "module N:\n  x -> C\n  y -> D\n")]⟩

/-- The tree is the same after one that failed, with a replacement left behind. -/
theorem treeWithin_independent_failed :
    ∃ lib made made', ReachedApart crossed [] ⟨"f:M"⟩ lib ∧ lib.replaced.keys = [⟨"f:N::x"⟩] ∧
      lib.instances.keys = [⟨"f:C"⟩, ⟨"f:C::s"⟩] ∧
      (treeWithin 2 3 ⟨"f:M"⟩).outcome { files := crossed } = (.ok (), made) ∧
      (treeWithin 2 3 ⟨"f:M"⟩).outcome lib = (.ok (), made') ∧
      made.instances.AgreeOn (Address.Below ⟨"f:M"⟩) made'.instances := by
  obtain ⟨lib, hlib, hreplaced, hinstances⟩ : ∃ lib, ReachedApart crossed [] ⟨"f:M"⟩ lib ∧
      lib.replaced.keys = [⟨"f:N::x"⟩] ∧ lib.instances.keys = [⟨"f:C"⟩, ⟨"f:C::s"⟩] :=
    ⟨_, (ReachedApart.fresh.tree 2 3 ⟨"f:C"⟩ (by decide)).tree 2 3 ⟨"f:N"⟩ (by decide),
      by decide +kernel⟩
  have hmade := Work.outcome_eq_ok_of_toOption (w := treeWithin 2 3 ⟨"f:M"⟩)
    (s := { files := crossed }) (x := ()) (by decide +kernel)
  obtain ⟨made', hmade', hsame⟩ := (treeWithin_independent (by decide +kernel) hlib).1 2 3 _ _ hmade
    nofun
  exact ⟨lib, _, made', hlib, hreplaced, hinstances, hmade, hmade', hsame rfl⟩

end Library

end Boardwright
