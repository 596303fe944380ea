import Boardwright.Proofs.Package.Installing
import Boardwright.Proofs.Package.Splitting

/-!
# What is recorded of a package

A package that is installed by its name alone is recorded with `^` and the tag that was checked out.
Neither a mark of specifiers nor white space stands in a tag that is a version, but for the end of a
line behind it, which is stripped. So the name and the version are found again, and the version that
was installed satisfies what is recorded.
-/

open List

namespace Boardwright

namespace Version

variable {tag : String} {v : Version}

theorem mem_of_parse (h : parse tag = .ok v) {c : Char} (hc : c ∈ tag.toList) :
    isVersionChar c = true ∨ c = '\n' := by
  obtain ⟨body, tail, htag, htail, -, hbody, -⟩ := exists_body_of_parse h
  rw [htag, mem_append] at hc
  exact hc.imp (hbody c) (htail c)

/-- A tag is its version and perhaps the end of a line, which is what trimming takes away. -/
theorem exists_trim_of_parse (h : parse tag = .ok v) :
    ∃ tail, tag.toList = (Text.trim tag).toList ++ tail ∧ (∀ c ∈ tail, c = '\n') ∧
      (∀ c ∈ (Text.trim tag).toList, Text.isBlank c = false) ∧ parse (Text.trim tag) = .ok v := by
  obtain ⟨body, tail, htag, htail, hparse, hchars, -⟩ := exists_body_of_parse h
  have hblank : ∀ c ∈ body, Text.isBlank c = false := fun c hc =>
    isBlank_of_isVersionChar (hchars c hc)
  have hends : ∀ c ∈ tail, Text.isBlank c = true := fun c hc => by rw [htail c hc]; rfl
  have htrim : Text.trim tag = String.ofList body := by
    rw [Text.trim, htag, (Text.strip_append_eq_iff hblank).2 hends]
  rw [htrim, String.toList_ofList]
  exact ⟨tail, htag, htail, hblank, hparse⟩

theorem trim_eq_self_iff_of_parse (h : parse tag = .ok v) :
    Text.trim tag = tag ↔ '\n' ∉ tag.toList := by
  obtain ⟨tail, htag, htail, hblank, -⟩ := exists_trim_of_parse h
  constructor
  · intro heq hmem
    rw [← heq] at hmem
    exact absurd (hblank _ hmem) (by decide)
  · intro hnot
    have hnil : tail = [] := by
      apply eq_nil_iff_forall_not_mem.2
      intro c hc
      rw [htag] at hnot
      exact hnot (mem_append_right _ (htail c hc ▸ hc))
    rw [hnil, append_nil] at htag
    exact (String.toList_inj.1 htag).symm

theorem trim_caret_of_parse (h : parse tag = .ok v) :
    Text.trim ("^" ++ tag) = "^" ++ Text.trim tag := by
  obtain ⟨tail, htag, htail, hblank, -⟩ := exists_trim_of_parse h
  have hcaret : ∀ c ∈ '^' :: (Text.trim tag).toList, Text.isBlank c = false :=
    forall_mem_cons.2 ⟨by decide, hblank⟩
  have hends : ∀ c ∈ tail, Text.isBlank c = true := fun c hc => by rw [htail c hc]; rfl
  have hstrip := (Text.strip_append_eq_iff hcaret).2 hends
  rw [cons_append, ← htag] at hstrip
  rw [Text.trim, ← String.toList_inj]
  simpa using hstrip

/-- A version is in the range that begins with itself. -/
theorem satisfies_caret (h : parse tag = .ok v) : v.satisfies ("^" ++ tag) = .ok true := by
  have hself : Operator.Holds v.clean v .caret := by
    rw [Operator.Holds, v.released_clean.caret_iff, ne_eq, v.released_clean.order_eq_lt_iff,
      orderNumbers_eq_lt_iff]
    simp [clean]
  have hsatisfies := v.satisfies_mark .caret h
  rw [decide_eq_true hself] at hsatisfies
  exact hsatisfies

end Version

namespace PackageSpec

theorem ofText_caret {name tag : String} {v : Version} (hname : IsName name)
    (htag : Version.parse tag = .ok v) :
    ofText (name ++ "^" ++ tag) = ⟨name, some ("^" ++ Text.trim tag)⟩ := by
  have hchars : ∀ c, Version.isVersionChar c = false → c ≠ '\n' → c ≠ '^' →
      c ∉ ("^" ++ tag).toList := by
    intro c hchar hline hcaret hc
    rw [String.toList_append, mem_append] at hc
    rcases hc with hc | hc
    · exact hcaret (mem_singleton.1 hc)
    · rcases Version.mem_of_parse htag hc with hversion | hend
      · rw [hchar] at hversion
        cases hversion
      · exact hline hend
  have hfind : (marks.findSome? fun mark => cutAt mark ("^" ++ tag).toList) =
      some ([], "^".toList ++ tag.toList) := by
    rw [findSome?_eq_some_iff]
    refine ⟨["*", "||"], "^", _, rfl, ?_, ?_⟩
    · simp [cutAt, Text.cut]
    · intro mark hmark
      simp only [mem_cons, not_mem_nil, or_false] at hmark
      rw [cutAt_eq_none_iff (by rcases hmark with rfl | rfl <;> decide)]
      intro hoccurs
      rcases hmark with rfl | rfl
      · exact hchars '*' (by decide) (by decide) (by decide) (hoccurs.subset (by simp))
      · exact hchars '|' (by decide) (by decide) (by decide) (hoccurs.subset (by simp))
  have hblank : Text.strip Text.isBlank (name.toList ++ []) = name.toList :=
    (Text.strip_append_eq_iff fun c hc => (hname c hc).1).2 (forall_mem_nil _)
  rw [String.append_assoc, ofText_of_findSome? hname hfind, hblank, String.ofList_toList,
    ← Version.trim_caret_of_parse htag, Text.trim, String.toList_append]

theorem wanted_of_ne {name spec : String} (hspec : spec ≠ "") :
    wanted ⟨name, some spec⟩ = spec := by
  unfold wanted
  split <;> simp_all

end PackageSpec

namespace Workshop

open Work

theorem outcome_installAsked {name tag : String} (top : Route) (c : Config) {upgrade : Bool}
    {shop shop' : Workshop} (hname : PackageSpec.ofText name = ⟨name, none⟩) (hne : name ≠ "")
    (hinstall : (installPackage (Project.ofConfig c).modules name upgrade).outcome shop =
      (.ok (some tag), shop')) :
    (installAsked top c (some name) false upgrade).outcome shop =
      (recordDependency top (name ++ "^" ++ tag)).outcome shop' := by
  unfold installAsked
  rw [if_neg Bool.false_ne_true]
  split
  · contradiction
  · next heq => exact absurd (Option.some.inj heq) hne
  · next heq =>
      obtain rfl := Option.some.inj heq
      rw [outcome_bind_ok _ hinstall, hname]

/-- A package that is installed by its name alone is recorded with the tag that was checked out, and
what is recorded is taken apart into the name and this tag. The version that was installed satisfies
what is recorded. Only the end of a line behind the tag is lost. -/
theorem recorded_admits {name tag : String} {v : Version} (hname : PackageSpec.IsName name)
    (htag : Version.parse tag = .ok v) :
    (∀ top c upgrade shop shop', name ≠ "" →
      (installPackage (Project.ofConfig c).modules name upgrade).outcome shop =
        (.ok (some tag), shop') →
      (installAsked top c (some name) false upgrade).outcome shop =
        (recordDependency top (name ++ "^" ++ tag)).outcome shop') ∧
    PackageSpec.ofText (name ++ "^" ++ tag) = ⟨name, some ("^" ++ Text.trim tag)⟩ ∧
    (Text.trim tag = tag ↔ '\n' ∉ tag.toList) ∧
    Version.parse (Text.trim tag) = .ok v ∧
    v.satisfies ("^" ++ tag) = .ok true ∧
    v.satisfies (PackageSpec.ofText (name ++ "^" ++ tag)).wanted = .ok true := by
  obtain ⟨-, -, -, -, htrim⟩ := Version.exists_trim_of_parse htag
  have hsplit := PackageSpec.ofText_caret hname htag
  refine ⟨?_, hsplit, Version.trim_eq_self_iff_of_parse htag, htrim,
    Version.satisfies_caret htag, ?_⟩
  · intro top c upgrade shop shop' hne hinstall
    exact outcome_installAsked top c (PackageSpec.ofText_name hname) hne hinstall
  · rw [hsplit, PackageSpec.wanted_of_ne (by simp)]
    exact Version.satisfies_caret htrim

/-- A version before its release, with a build. -/
theorem recorded_admits_dev :
    PackageSpec.ofText ("pkg" ++ "^" ++ "v0.2.1.dev4+g01") = ⟨"pkg", some "^v0.2.1.dev4+g01"⟩ ∧
    (⟨0, 2, 1, some "dev4", some "g01"⟩ : Version).satisfies ("^" ++ "v0.2.1.dev4+g01") =
      .ok true := by
  have hname : PackageSpec.IsName "pkg" := by
    intro c hc
    have hletter : c = 'p' ∨ c = 'k' ∨ c = 'g' := by simpa using hc
    rcases hletter with rfl | rfl | rfl <;> exact ⟨by decide, by decide⟩
  have htag : Version.parse "v0.2.1.dev4+g01" = .ok ⟨0, 2, 1, some "dev4", some "g01"⟩ := by
    decide +kernel
  have htrim : "^" ++ Text.trim "v0.2.1.dev4+g01" = "^v0.2.1.dev4+g01" := by decide +kernel
  obtain ⟨-, hsplit, -, -, hsatisfies, -⟩ := recorded_admits hname htag
  rw [htrim] at hsplit
  exact ⟨hsplit, hsatisfies⟩

/-- The end of a line is passed over when a version is read, but it is not recorded. -/
theorem recorded_lineEnd_lost :
    Version.parse "1.0.0\n" = .ok ⟨1, 0, 0, none, none⟩ ∧
    PackageSpec.ofText ("pkg" ++ "^" ++ "1.0.0\n") = ⟨"pkg", some "^1.0.0"⟩ ∧
    PackageSpec.ofText ("pkg" ++ "^" ++ "1.0.0\n") ≠ ⟨"pkg", some ("^" ++ "1.0.0\n")⟩ := by
  decide +kernel

end Workshop

end Boardwright
