import Boardwright.Package.Spec
import Boardwright.Proofs.Text.Pieces

/-!
# A name and the specifier behind it

A name and a specifier are taken apart at the first occurrence of a mark, but of several marks in
the specifier it is the one that is looked for first that counts: `CutsAt`. So the specifier is found
as a whole if and only if only white space stands before that mark: `ofText_append`. Otherwise the
specifier is torn in two, and its first part goes with the name.
-/

open List

namespace Boardwright.PackageSpec

variable {mark name : String}

/-- A name without white space and without the characters of marks. -/
def IsName (name : String) : Prop :=
  ∀ c ∈ name.toList, Text.isBlank c = false ∧ ∀ mark ∈ marks, c ∉ mark.toList

/-- Where a specifier is cut: no mark that is looked for before this one occurs in it, and this one
does not occur further to the left. -/
structure CutsAt (spec before : List Char) (mark : String) (after : List Char) : Prop where
  eq_append : spec = before ++ mark.toList ++ after
  leftmost : ∀ l r, spec = l ++ mark.toList ++ r → before.length ≤ l.length
  foremost : ∃ ms ms', marks = ms ++ mark :: ms' ∧ ∀ m ∈ ms, ¬m.toList <:+: spec

theorem toList_ne_nil : ∀ mark ∈ marks, mark.toList ≠ [] := by decide

theorem cutAt_eq_none_iff (hmark : mark ∈ marks) {s : List Char} :
    cutAt mark s = none ↔ ¬mark.toList <:+: s := by
  rw [cutAt, Option.map_eq_none_iff, Text.cut_eq_none_iff (toList_ne_nil mark hmark)]

theorem cutAt_append (hname : IsName name) (hmark : mark ∈ marks) (s : List Char) :
    cutAt mark (name.toList ++ s) = (cutAt mark s).map fun w => (name.toList ++ w.1, w.2) := by
  obtain ⟨c, m, hcm⟩ := exists_cons_of_ne_nil (toList_ne_nil mark hmark)
  have hc : c ∉ name.toList := fun h => (hname c h).2 mark hmark (by simp [hcm])
  rw [cutAt, cutAt, hcm, Text.cut_append m hc]
  cases Text.cut (c :: m) s <;> rfl

theorem exists_cutsAt {spec : List Char} (hspec : ∃ mark ∈ marks, mark.toList <:+: spec) :
    ∃ before mark after, CutsAt spec before mark after ∧
      (marks.findSome? fun mark => cutAt mark spec) = some (before, mark.toList ++ after) := by
  cases hfind : marks.findSome? fun mark => cutAt mark spec with
  | none =>
    obtain ⟨mark, hmark, hoccurs⟩ := hspec
    have hnone := findSome?_eq_none_iff.1 hfind mark hmark
    exact absurd hoccurs ((cutAt_eq_none_iff hmark).1 hnone)
  | some w =>
    obtain ⟨ms, mark, ms', hmarks, hcut, hnone⟩ := findSome?_eq_some_iff.1 hfind
    obtain ⟨⟨before, after⟩, hfirst, rfl⟩ := Option.map_eq_some_iff.1 hcut
    refine ⟨before, mark, after, ⟨Text.eq_append_of_cut hfirst, ?_, ms, ms', hmarks, ?_⟩, rfl⟩
    · exact fun l r hs => Text.length_le_of_cut hfirst hs
    · exact fun m hm => (cutAt_eq_none_iff (by simp [hmarks, hm])).1 (hnone m hm)

theorem ofText_name (hname : IsName name) : ofText name = ⟨name, none⟩ := by
  have hfind : (marks.findSome? fun mark => cutAt mark name.toList) = none := by
    rw [findSome?_eq_none_iff]
    intro mark hmark
    rw [cutAt_eq_none_iff hmark]
    intro hoccurs
    obtain ⟨c, m, hcm⟩ := exists_cons_of_ne_nil (toList_ne_nil mark hmark)
    have hc : c ∈ mark.toList := by simp [hcm]
    exact (hname c (hoccurs.subset hc)).2 mark hmark hc
  rw [ofText, hfind]

theorem ofText_of_findSome? {spec : String} (hname : IsName name) {before after : List Char}
    (hfind : (marks.findSome? fun mark => cutAt mark spec.toList) =
      some (before, mark.toList ++ after)) :
    ofText (name ++ spec) =
      ⟨String.ofList (Text.strip Text.isBlank (name.toList ++ before)),
        some (String.ofList (Text.strip Text.isBlank (mark.toList ++ after)))⟩ := by
  have hfind' : (marks.findSome? fun mark => cutAt mark (name ++ spec).toList) =
      some (name.toList ++ before, mark.toList ++ after) := by
    obtain ⟨ms, m, ms', hmarks, hcut, hnone⟩ := findSome?_eq_some_iff.1 hfind
    rw [String.toList_append, findSome?_eq_some_iff]
    refine ⟨ms, m, ms', hmarks, ?_, fun m' hm' => ?_⟩
    · rw [cutAt_append hname (by simp [hmarks]), hcut]
      rfl
    · rw [cutAt_append hname (by simp [hmarks, hm']), hnone m' hm']
      rfl
  rw [ofText, hfind']

/-- A bare name has no specifier. A specifier behind a name is found, without white space at its
ends, if and only if only white space stands before the mark where it is cut; otherwise the part
before this mark goes with the name. -/
theorem ofText_append {name spec : String} (hname : IsName name)
    (hspec : ∃ mark ∈ marks, mark.toList <:+: spec.toList) :
    ofText name = ⟨name, none⟩ ∧
    ∃ before mark after, CutsAt spec.toList before mark after ∧
      ofText (name ++ spec) =
        ⟨String.ofList (Text.strip Text.isBlank (name.toList ++ before)),
          some (String.ofList (Text.strip Text.isBlank (mark.toList ++ after)))⟩ ∧
      (ofText (name ++ spec) = ⟨name, some (Text.trim spec)⟩ ↔
        ∀ c ∈ before, Text.isBlank c = true) := by
  obtain ⟨before, mark, after, hcuts, hfind⟩ := exists_cutsAt hspec
  have hofText := ofText_of_findSome? hname hfind
  refine ⟨ofText_name hname, before, mark, after, hcuts, hofText, ?_⟩
  have hstrip := Text.strip_append_eq_iff (r := before) fun c hc => (hname c hc).1
  rw [hofText]
  constructor
  · intro h
    obtain ⟨hleft, -⟩ := PackageSpec.mk.inj h
    exact hstrip.1 (by simpa using congrArg String.toList hleft)
  · intro hblank
    rw [hstrip.2 hblank, String.ofList_toList, Text.trim, hcuts.eq_append, List.append_assoc,
      Text.strip_append_left hblank]

theorem ofText_append_range :
    IsName "pkg" ∧ (∃ mark ∈ marks, mark.toList <:+: " ^1.2.0 <1.4.0".toList) ∧
    ofText "pkg" = ⟨"pkg", none⟩ ∧
    ∃ before mark after, CutsAt " ^1.2.0 <1.4.0".toList before mark after ∧
      (ofText ("pkg" ++ " ^1.2.0 <1.4.0") = ⟨"pkg", some "^1.2.0 <1.4.0"⟩ ↔
        ∀ c ∈ before, Text.isBlank c = true) := by
  have hname : IsName "pkg" := by
    intro c hc
    have hletter : c = 'p' ∨ c = 'k' ∨ c = 'g' := by simpa using hc
    rcases hletter with rfl | rfl | rfl <;> exact ⟨by decide, by decide⟩
  have hspec : ∃ mark ∈ marks, mark.toList <:+: " ^1.2.0 <1.4.0".toList :=
    ⟨"^", by decide, [' '], "1.2.0 <1.4.0".toList, by decide⟩
  obtain ⟨hbare, before, mark, after, hcuts, -, hiff⟩ := ofText_append hname hspec
  have htrim : Text.trim " ^1.2.0 <1.4.0" = "^1.2.0 <1.4.0" := by decide
  rw [htrim] at hiff
  exact ⟨hname, hspec, hbare, before, mark, after, hcuts, hiff⟩

/-- Here `<=` is looked for before `>`, so the specifier is torn in two. -/
theorem ofText_append_torn :
    ofText ("pkg" ++ ">1.0.0 <=2.0.0") = ⟨"pkg>1.0.0", some "<=2.0.0"⟩ := by
  decide

end Boardwright.PackageSpec
