import Boardwright.Proofs.Work.InStep
import Boardwright.Proofs.Syntax.Unplaced

/-!
# Failures of texts that are laid out anew

If what stands in the files is moved about, each report moves along with what it is about: `carry`
does this to a failure, for a map of the places in each file. As long as no two places become one,
failures that differ stay different, so what is kept, raised and put together moves along as well:
`tracks_carry`.
-/

open List

namespace Boardwright

def Report.Details.place? (d : Details) : Option (String × Pos) := do
  return (← d.path, ⟨← d.line, ← d.column⟩)

/-- What a report says, with its place moved. -/
def Report.Details.carry (σ : String → Pos → Pos) (d : Details) : Details :=
  { d with
    line := (d.place?.map fun p => (σ p.1 p.2).line).or d.line
    column := (d.place?.map fun p => (σ p.1 p.2).column).or d.column }

theorem Report.Details.carry_injective {σ : String → Pos → Pos}
    (hσ : ∀ path, Function.Injective (σ path)) : Function.Injective (carry σ) := by
  choose τ hτ using fun path => (hσ path).hasLeftInverse
  have hback : ∀ path pos, τ path (σ path pos) = pos := hτ
  have hinverse : Function.LeftInverse (carry τ) (carry σ) := by
    rintro ⟨message, title, address, _ | path, _ | line, _ | column⟩ <;> simp [carry, place?, hback]
  exact hinverse.injective

namespace Failure

mutual

def carry (σ : String → Pos → Pos) : Failure → Failure
  | .report r => .report { r with toDetails := r.toDetails.carry σ }
  | .group m fs => .group m (carryAll σ fs)
  | f => f

/-- Failures with the places of their reports moved. -/
def carryAll (σ : String → Pos → Pos) : List Failure → List Failure
  | [] => []
  | f :: fs => carry σ f :: carryAll σ fs

end

/-- A failure and the same one, reported where what it is about stands now. -/
abbrev Carried (σ : String → Pos → Pos) (e e' : Failure) : Prop := e.carry σ = e'

variable {σ : String → Pos → Pos}

theorem moves_carry (file : String) : Failure.Moves (carry σ) file file (σ file) :=
  ⟨fun _ _ _ => rfl, fun _ => rfl⟩

theorem details_carry (f : Failure) :
    (f.carry σ).details = f.details.map (Report.Details.carry σ) := by
  cases f <;> rfl

theorem carryAll_eq_map (fs : List Failure) : carryAll σ fs = fs.map (carry σ) := by
  induction fs with
  | nil => rfl
  | cons f fs ih => rw [carryAll, ih, map_cons]

mutual

theorem select_carry (f : Failure) :
    (f.carry σ).select isError = (f.select isError).map (carry σ) := by
  cases f with
  | group m fs =>
    rw [carry, select, select, selectAll_carry fs]
    cases selectAll isError fs <;> rfl
  | report r =>
    change (if isError (.report r) then _ else _) = Option.map _ (if _ then _ else _)
    split <;> rfl
  | _ => rfl

theorem selectAll_carry (fs : List Failure) :
    selectAll isError (carryAll σ fs) = carryAll σ (selectAll isError fs) := by
  cases fs with
  | nil => rfl
  | cons f fs =>
    rw [carryAll, selectAll, selectAll, select_carry f, selectAll_carry fs]
    cases select isError f <;> rfl

end

mutual

theorem reject_carry (f : Failure) :
    (f.carry σ).reject isError = (f.reject isError).map (carry σ) := by
  cases f with
  | group m fs =>
    rw [carry, reject, reject, rejectAll_carry fs]
    cases rejectAll isError fs <;> rfl
  | report r =>
    change (if isError (.report r) then _ else _) = Option.map _ (if _ then _ else _)
    split <;> rfl
  | _ => rfl

theorem rejectAll_carry (fs : List Failure) :
    rejectAll isError (carryAll σ fs) = carryAll σ (rejectAll isError fs) := by
  cases fs with
  | nil => rfl
  | cons f fs =>
    rw [carryAll, rejectAll, rejectAll, reject_carry f, rejectAll_carry fs]
    cases reject isError f <;> rfl

end

theorem sift_carry (f : Failure) : (f.carry σ).sift isError =
    ((f.sift isError).1.map (carry σ), (f.sift isError).2.map (carry σ)) := by
  cases f with
  | group m fs =>
    refine Prod.ext ?_ (reject_carry (.group m fs))
    change (Option.map members ((Failure.group m fs).carry σ |>.select isError)).getD [] =
      List.map _ ((Option.map members ((Failure.group m fs).select isError)).getD [])
    rw [select_carry]
    cases h : selectAll isError fs with
    | nil => simp [select, h, isError]
    | cons g gs => simp [select, h, isError, carry, members, carryAll_eq_map]
  | report r =>
    rw [sift_of_not_isGroup rfl, sift_of_not_isGroup rfl]
    change (if isError (.report r) then _ else _) = _
    split <;> rfl
  | _ => rfl

variable (hσ : ∀ path, Function.Injective (σ path))

include hσ

theorem distinct_carry (fs : List Failure) :
    distinct (fs.map (carry σ)) = (distinct fs).map (carry σ) := by
  have hinjective := Option.map_injective (Report.Details.carry_injective hσ)
  induction fs using List.reverseRecOn with
  | nil => rfl
  | append_singleton fs f ih =>
    have hhas : hasDetails (fs.map (carry σ)) (f.carry σ).details = hasDetails fs f.details := by
      simp only [hasDetails, any_map, Function.comp_def, details_carry, hinjective.beq_eq]
    rw [map_append, map_singleton, distinct_concat, distinct_concat, ih,
      hasDetails_distinct, ← ih, hasDetails_distinct, hhas, ih, map_append]
    split <;> rfl

/-- Failures whose reports have been moved stay related. -/
theorem tracks_carry : Tracks (Carried σ) where
  fault _ := rfl
  fault_iff {e _} f h := by
    subst h
    cases e <;> simp [carry]
  general _ := rfl
  kept {e _} h := by
    subst h
    rw [sift_carry, forall₂_map_right_iff]
    exact forall₂_same.2 fun _ _ => rfl
  raised {e _} h := by
    subst h
    rw [sift_carry]
    cases (e.sift isError).2 <;> constructor
    rfl
  gathered {es es'} h := by
    have hes : es.map (carry σ) = es' := by
      rw [← forall₂_eq_eq_eq, forall₂_map_left_iff]
      exact h
    subst hes
    cases es with
    | nil => exact .none
    | cons e es =>
      refine .some ?_
      rw [Carried, carry, carryAll_eq_map, ← distinct_carry hσ]
      rfl

end Failure

/-! ### Outcomes put together -/

section Gather

variable {α β : Type} {E : Failure → Failure → Prop} {Q : α → β → Prop}
  {rs : List (Except Failure α)} {rs' : List (Except Failure β)}

open Failure

theorem Accord.parts (hE : Tracks E) (h : Forall₂ (Accord (fun _ => False) E Q) rs rs') :
    Option.Rel E (stop? rs) (stop? rs') ∧ Forall₂ E (kept rs) (kept rs') ∧
      Forall₂ Q (rs.filterMap Except.toOption) (rs'.filterMap Except.toOption) := by
  induction h with
  | nil => exact ⟨.none, .nil, .nil⟩
  | @cons r r' rs rs' hr _ ih =>
    obtain ⟨hstop, hkept, hok⟩ := ih
    rw [stop?_cons, kept_cons, @stop?_cons _ rs', @kept_cons _ rs']
    cases hr with
    | ok hxy => exact ⟨hstop, hkept, .cons hxy hok⟩
    | @failed e e' he =>
      rw [stop?_error, stop?_error, kept_error, kept_error]
      refine ⟨?_, rel_append (hE.kept he) hkept, hok⟩
      have hraised := hE.raised he
      generalize (e.sift isError).2 = o at hraised ⊢
      generalize (e'.sift isError).2 = o' at hraised ⊢
      cases hraised with
      | none => exact hstop
      | some he => exact .some he
    | excused he => exact he.elim

/-- Outcomes that agree one by one agree when they are put together. -/
theorem Accord.gather (hE : Tracks E) (h : Forall₂ (Accord (fun _ => False) E Q) rs rs') :
    Accord (fun _ => False) E (Forall₂ Q) (gather rs) (gather rs') := by
  obtain ⟨hstop, hkept, hok⟩ := parts hE h
  have hall := hE.gathered hkept
  unfold Failure.gather
  generalize stop? rs = o at hstop
  generalize stop? rs' = o' at hstop
  cases hstop with
  | some he => exact .failed he
  | none =>
    generalize gathered "" (kept rs) = o at hall
    generalize gathered "" (kept rs') = o' at hall
    cases hall with
    | some he => exact .failed he
    | none => exact .ok hok

end Gather

end Boardwright
