import Boardwright.Project.Compatibility
import Boardwright.Proofs.Version.Specifier

/-!
# Specifiers that cannot be answered

Alternatives are tried until one holds, and the comparators of an alternative until one does not
hold. The question of a specifier has no answer exactly if a comparator with a `Flaw` is reached on
the way, and the flaw says why: `satisfies_eq_error_iff`.

The author of a design is told of a flaw only if the comparator has no operator. An empty comparator
and an operator before a text that is no version are faults.
-/

namespace Boardwright.Version

variable {v : Version} {s : String} {f : SpecFault} {r : Except SpecFault Bool} {op : Operator}

/-! ### The first that is not passed over -/

/-- Some item of a list is `Q`, and those before it are `P`. -/
def Upto {α : Type} (P Q : α → Prop) (xs : List α) : Prop :=
  ∃ before x after, xs = before ++ x :: after ∧ (∀ y ∈ before, P y) ∧ Q x

theorem upto_cons {α : Type} {P Q : α → Prop} {x : α} {xs : List α} :
    Upto P Q (x :: xs) ↔ Q x ∨ P x ∧ Upto P Q xs := by
  constructor
  · rintro ⟨_ | ⟨y, before⟩, z, after, heq, hP, hQ⟩ <;> cases heq
    · exact .inl hQ
    · rw [List.forall_mem_cons] at hP
      exact .inr ⟨hP.1, before, z, after, rfl, hP.2, hQ⟩
  · rintro (hQ | ⟨hx, before, z, after, rfl, hP, hQ⟩)
    · exact ⟨[], x, xs, rfl, by simp, hQ⟩
    · exact ⟨x :: before, z, after, rfl, List.forall_mem_cons.2 ⟨hx, hP⟩, hQ⟩

/-- A search that goes on after the answer `go` ends at the first item that has another one. -/
theorem search_eq_iff {search : List String → Except SpecFault Bool}
    {one : String → Except SpecFault Bool} {go : Bool} (hnil : search [] = .ok go)
    (hcons : ∀ s ss, search (s :: ss) = if one s = .ok go then search ss else one s)
    (hr : r ≠ .ok go) (ss : List String) :
    search ss = r ↔ Upto (one · = .ok go) (one · = r) ss := by
  induction ss with
  | nil => simp [Upto, hnil, hr.symm]
  | cons s ss ih =>
    rw [hcons, upto_cons]
    split
    · next hs => simp [hs, ih, hr.symm]
    · next hs => simp [hs]

theorem matchesAll_eq_iff (v : Version) (hr : r ≠ .ok true) (ss : List String) :
    matchesAll v ss = r ↔ Upto (matchesComparator v · = .ok true) (matchesComparator v · = r) ss := by
  refine search_eq_iff rfl (fun s ss => ?_) hr ss
  rw [matchesAll]
  rcases matchesComparator v s with _ | _ | _ <;> rfl

theorem matchesAny_eq_iff (v : Version) (hr : r ≠ .ok false) (ss : List String) :
    matchesAny v ss = r ↔
      Upto (matchesAlternative v · = .ok false) (matchesAlternative v · = r) ss := by
  refine search_eq_iff rfl (fun s ss => ?_) hr ss
  rw [matchesAny]
  rcases matchesAlternative v s with _ | _ | _ <;> rfl

/-! ### Comparators -/

/-- A text begins with the mark of an operator. A `>` or `<` before a `=` is not the whole mark. -/
def Marked (s : List Char) (op : Operator) (rest : List Char) : Prop :=
  s = op.mark.toList ++ rest ∧ (op = .above ∨ op = .below → rest.head? ≠ some '=')

theorem operator?_eq_some_iff {s rest : List Char} :
    operator? s = some (op, rest) ↔ Marked s op rest := by
  constructor
  · intro h
    unfold operator? at h
    split at h <;> cases h
    all_goals refine ⟨rfl, fun hop => ?_⟩
    all_goals rcases hop with hop | hop <;> cases hop
    all_goals cases rest <;> simp_all
  · rintro ⟨rfl, hrest⟩
    cases op <;> try rfl
    all_goals
      have hne := hrest (by simp)
      cases rest <;> simp_all [Operator.mark, operator?]

/-- What is wrong with the text of a comparator. -/
def Flaw (s : String) : SpecFault → Prop
  | .empty => s = ""
  | .version m => ∃ op rest, Marked s.toList op rest ∧ parse (String.ofList rest) = .error m
  | .invalid t => t = s ∧ s ≠ "" ∧ s ≠ "*" ∧ (∀ op rest, ¬Marked s.toList op rest) ∧
    ∃ m, parse s = .error m

theorem comparator_eq_error_iff (hs : s ≠ "*") : comparator s = .error f ↔ Flaw s f := by
  by_cases hempty : s = ""
  · subst hempty
    cases f <;> simp [comparator, Flaw, ← operator?_eq_some_iff, operator?]
  · rw [comparator, if_neg (by simpa using hempty)]
    rcases hop : operator? s.toList with _ | ⟨op, rest⟩
    · cases hparse : parse s <;> cases f <;>
        simp [Flaw, ← operator?_eq_some_iff, hop, hempty, hs, hparse, eq_comm]
    · cases hparse : parse (String.ofList rest) <;> cases f <;>
        simp [Flaw, ← operator?_eq_some_iff, hop, hempty, hs, hparse]

theorem exists_of_comparator {x : Version} (h : comparator s = .ok (op, x)) :
    ∃ c : Comparator, c.text = s ∧ ∀ v, c.Holds v ↔ op.Holds v x := by
  rw [comparator] at h
  split at h
  · cases h
  · rcases hop : operator? s.toList with _ | ⟨mark, rest⟩ <;> rw [hop] at h <;> dsimp only at h
    · rcases hparse : parse s with m | y <;> rw [hparse] at h <;> cases h
      exact ⟨.version none s x hparse, by simp [Comparator.text], fun v => .rfl⟩
    · rcases hparse : parse (String.ofList rest) with m | y <;> rw [hparse] at h <;> cases h
      refine ⟨.version (some op) _ x hparse, ?_, fun v => .rfl⟩
      rw [← String.toList_inj, (operator?_eq_some_iff.1 hop).1]
      simp [Comparator.text]

theorem trim_trim (s : String) : Text.trim (Text.trim s) = Text.trim s := by
  obtain ⟨l, r, hs, hl, hr⟩ := Text.exists_strip Text.isBlank s.toList
  have hstrip := Text.strip_append hl hr (Text.strip Text.isBlank s.toList)
  rw [← hs] at hstrip
  rw [Text.trim, Text.trim, String.toList_ofList, ← hstrip]

/-- The answer for a comparator of that text, or what is wrong with it. White space around the text
does not count. -/
def Judged (v : Version) (s : String) : Except SpecFault Bool → Prop
  | .ok b => ∃ c : Comparator, Text.trim c.text = Text.trim s ∧ decide (c.Holds v) = b
  | .error f => Flaw (Text.trim s) f

theorem matchesComparator_eq_iff : matchesComparator v s = r ↔ Judged v s r := by
  constructor
  · rintro rfl
    rw [matchesComparator]
    dsimp only
    split
    · next hstar => exact ⟨.any, hstar.symm, rfl⟩
    · next hstar =>
        rcases h : comparator (Text.trim s) with f | ⟨op, x⟩
        · exact (comparator_eq_error_iff hstar).1 h
        · obtain ⟨c, htext, hholds⟩ := exists_of_comparator h
          refine ⟨c, by rw [htext, trim_trim], Bool.eq_iff_iff.2 ?_⟩
          rw [decide_eq_true_iff, hholds, Operator.holds_iff]
  · intro h
    cases r with
    | ok b =>
      obtain ⟨c, htext, rfl⟩ := h
      rw [← matchesComparator_congr v htext, matchesComparator_text]
    | error f =>
      have hstar : Text.trim s ≠ "*" := by
        intro hstar
        rw [Judged, hstar] at h
        cases f <;> simp [Flaw, ← operator?_eq_some_iff, operator?] at h
      rw [matchesComparator, if_neg hstar, (comparator_eq_error_iff hstar).2 h]
      rfl

/-! ### Specifiers -/

/-- A specifier has no answer exactly if a comparator with a flaw is reached: each alternative before
its own is refused by the first comparator that does not hold, and the comparators before it hold.
The failure is reported to the author exactly if it is a comparator without an operator. -/
theorem satisfies_eq_error_iff (v : Version) (spec : String) (f : SpecFault) :
    (v.satisfies spec = .error f ↔
      Upto (fun a => Upto (Judged v.clean · (.ok true)) (Judged v.clean · (.ok false))
          (Text.split " " (Text.trim a)))
        (fun a => Upto (Judged v.clean · (.ok true)) (fun c => Flaw (Text.trim c) f)
          (Text.split " " (Text.trim a)))
        (Text.split "||" spec)) ∧
    ((Workshop.specFailure f).isError = true ↔ ∃ s, f = .invalid s) := by
  constructor
  · rw [satisfies_eq, matchesAny_eq_iff _ (by simp)]
    simp only [matchesAlternative_eq, matchesAll_eq_iff _ (by simp : Except.ok false ≠ .ok true),
      matchesAll_eq_iff _ (by simp : Except.error f ≠ .ok true), matchesComparator_eq_iff]
    rfl
  · cases f <;> simp [Workshop.specFailure, Failure.isError, Failure.general]

/-- An operator before a text that is no version and an empty comparator are not reported to the
author. -/
theorem satisfies_unreported :
    ((⟨1, 2, 3, none, none⟩ : Version).satisfies ">=abc" = .error (.version ⟨"abc-"⟩) ∧
      (Workshop.specFailure (.version ⟨"abc-"⟩)).isError = false) ∧
    (⟨1, 2, 3, none, none⟩ : Version).satisfies "" = .error .empty ∧
      (Workshop.specFailure .empty).isError = false :=
  ⟨⟨rfl, rfl⟩, rfl, rfl⟩

end Boardwright.Version
