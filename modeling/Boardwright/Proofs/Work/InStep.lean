import Boardwright.Proofs.Work
import Mathlib.Data.List.Forall2

/-!
# Work in step

Two pieces of work go along with each other if from related states both succeed, with related
results, or both fail, with related failures, and leave related states. They are in step if the
failures are the same. Failures of the first one may be excused: nothing is asked of the second one
then. If all failures are excused, the first work is `Mirrored`: the second one succeeds wherever it
does. If none is, the two cannot be told apart.

Work on each item of a list goes on after a failure, so an excuse has to last to the end of the
list. It does if it covers all failures, and if it covers only faults, which end the work at
once. Failures that are related have to stay related when they are put together: `Tracks`.
-/

open List

namespace Boardwright

variable {σ τ α β γ δ : Type} {X : Failure → Prop} {E : Failure → Failure → Prop}
  {R : σ → τ → Prop} {Q : α → γ → Prop} {Q' : β → δ → Prop}

/-- Results that agree: they are related, or the failures are, or the failure of the first one is
excused. -/
inductive Accord (X : Failure → Prop) (E : Failure → Failure → Prop) (Q : α → γ → Prop) :
    Except Failure α → Except Failure γ → Prop
  | ok {x : α} {y : γ} (hxy : Q x y) : Accord X E Q (.ok x) (.ok y)
  | failed {e e' : Failure} (he : E e e') : Accord X E Q (.error e) (.error e')
  | excused {e : Failure} {r : Except Failure γ} (he : X e) : Accord X E Q (.error e) r

/-- Failures that are related stay related when they are kept or raised, and put together. -/
structure Failure.Tracks (E : Failure → Failure → Prop) : Prop where
  fault : ∀ f, E (.fault f) (.fault f)
  fault_iff : ∀ {e e'} f, E e e' → (e = .fault f ↔ e' = .fault f)
  general : ∀ message, E (.general message) (.general message)
  kept : ∀ {e e'}, E e e' → Forall₂ E (e.sift isError).1 (e'.sift isError).1
  raised : ∀ {e e'}, E e e' → Option.Rel E (e.sift isError).2 (e'.sift isError).2
  gathered : ∀ {es es'}, Forall₂ E es es' → Option.Rel E (gathered "" es) (gathered "" es')

theorem Failure.tracks_eq : Tracks Eq where
  fault _ := rfl
  fault_iff _ h := h ▸ Iff.rfl
  general _ := rfl
  kept h := h ▸ forall₂_same.2 fun _ _ => rfl
  raised {e _} h := by
    subst h
    cases (e.sift isError).2 <;> constructor
    rfl
  gathered {es _} h := by
    rw [forall₂_eq_eq_eq] at h
    subst h
    cases Failure.gathered "" es <;> constructor
    rfl

namespace Work

variable {w : Work σ α} {w' : Work τ γ} {f : α → Work σ β} {f' : γ → Work τ δ} {xs : List α}
  {s s' : σ} {t : τ} {e : Failure} {x : α} {restore : σ → σ} {restore' : τ → τ} {ys : List γ}
  {work : α → Work σ PUnit} {work' : γ → Work τ PUnit}

/-- Outcomes that agree: results and states are related, or failures and states are, or the failure
of the first one is excused. -/
inductive Meets (X : Failure → Prop) (E : Failure → Failure → Prop) (R : σ → τ → Prop)
    (Q : α → γ → Prop) : Except Failure α × σ → Except Failure γ × τ → Prop
  | ok {x : α} {y : γ} {s : σ} {t : τ} (hxy : Q x y) (hst : R s t) :
    Meets X E R Q (.ok x, s) (.ok y, t)
  | failed {e e' : Failure} {s : σ} {t : τ} (he : E e e') (hst : R s t) :
    Meets X E R Q (.error e, s) (.error e', t)
  | excused {e : Failure} {s : σ} {o : Except Failure γ × τ} (he : X e) :
    Meets X E R Q (.error e, s) o

/-- Work that has agreeing outcomes from related states. -/
def Along (X : Failure → Prop) (E : Failure → Failure → Prop) (R : σ → τ → Prop)
    (Q : α → γ → Prop) (w : Work σ α) (w' : Work τ γ) : Prop :=
  ∀ s t, R s t → Meets X E R Q (w.outcome s) (w'.outcome t)

/-- Work that has agreeing outcomes from related states, with the same failures. -/
abbrev InStep (X : Failure → Prop) (R : σ → τ → Prop) (Q : α → γ → Prop) (w : Work σ α)
    (w' : Work τ γ) : Prop := Along X Eq R Q w w'

/-- Where `w` succeeds, `w'` succeeds from each related state, with a related result. -/
def Mirrored (R : σ → τ → Prop) (Q : α → γ → Prop) (w : Work σ α) (w' : Work τ γ) : Prop :=
  ∀ s t, R s t → ∀ x s', w.outcome s = (.ok x, s') →
    ∃ y t', w'.outcome t = (.ok y, t') ∧ R s' t' ∧ Q x y

/-- An excuse that lasts to the end of a list: it covers all failures or only faults. -/
def Lasting (X : Failure → Prop) : Prop := (∀ e, X e) ∨ ∀ e, X e → ∃ f, e = .fault f

theorem Meets.error [Std.Refl E] (hst : R s t) :
    Meets X E R Q (.error e, s) (.error e, t) := .failed (Std.Refl.refl e) hst

theorem Along.exists_ok (h : Along X E R Q w w') (hst : R s t)
    (hx : w.outcome s = (.ok x, s')) : ∃ y t', w'.outcome t = (.ok y, t') ∧ R s' t' ∧ Q x y := by
  have hmeet := h s t hst
  rw [hx] at hmeet
  generalize w'.outcome t = o at hmeet
  cases hmeet with
  | ok hxy hst' => exact ⟨_, _, rfl, hst', hxy⟩

theorem Along.mirrored (h : Along X E R Q w w') : Mirrored R Q w w' :=
  fun _ _ hst _ _ => h.exists_ok hst

theorem Mirrored.inStep (h : Mirrored R Q w w') : Along (fun _ => True) E R Q w w' := by
  intro s t hst
  rcases ho : w.outcome s with ⟨e | x, s'⟩
  · exact .excused trivial
  · obtain ⟨y, t', ht, hst', hxy⟩ := h s t hst x s' ho
    rw [ht]
    exact .ok hxy hst'

theorem Along.error (h : Along X E R Q w w') (hst : R s t) (he : ¬X e)
    (hx : w.outcome s = (.error e, s')) :
    ∃ e' t', w'.outcome t = (.error e', t') ∧ R s' t' ∧ E e e' := by
  have hmeet := h s t hst
  rw [hx] at hmeet
  generalize w'.outcome t = o at hmeet
  cases hmeet with
  | failed hee hst' => exact ⟨_, _, rfl, hst', hee⟩
  | excused hX => exact absurd hX he

theorem Along.imp {P : α → γ → Prop} (h : Along X E R Q w w') (hQ : ∀ x y, Q x y → P x y) :
    Along X E R P w w' := by
  intro s t hst
  have hmeet := h s t hst
  generalize w.outcome s = o at hmeet
  generalize w'.outcome t = o' at hmeet
  cases hmeet with
  | ok hxy hst' => exact .ok (hQ _ _ hxy) hst'
  | failed he hst' => exact .failed he hst'
  | excused he => exact .excused he

theorem Along.pure {y : γ} (h : Q x y) :
    Along X E R Q (pure x : Work σ α) (pure y : Work τ γ) := fun _ _ hst => .ok h hst

theorem Along.failed {e' : Failure} (he : E e e') :
    Along X E R Q (throw e : Work σ α) (throw e' : Work τ γ) := fun _ _ hst => .failed he hst

theorem Along.throw [Std.Refl E] (e : Failure) :
    Along X E R Q (throw e : Work σ α) (throw e : Work τ γ) := .failed (Std.Refl.refl e)

theorem Along.get : Along X E R R (get : Work σ σ) (get : Work τ τ) := fun _ _ hst => .ok hst hst

theorem Along.modify {g : σ → σ} {g' : τ → τ} (hg : ∀ s t, R s t → R (g s) (g' t)) :
    Along X E R (fun _ _ => True) (modify g : Work σ PUnit) (modify g' : Work τ PUnit) :=
  fun s t hst => .ok trivial (hg s t hst)

theorem Along.accord {r : Except Failure α} {r' : Except Failure γ} (h : Accord X E Q r r') :
    Along X E R Q (ofExcept r : Work σ α) (ofExcept r' : Work τ γ) := by
  intro s t hst
  cases h with
  | ok hxy => exact .ok hxy hst
  | failed he => exact .failed he hst
  | excused he => exact .excused he

theorem Meets.bind (hw : Meets X E R Q (w.outcome s) (w'.outcome t))
    (hf : ∀ x y s' t', w.outcome s = (.ok x, s') → w'.outcome t = (.ok y, t') → Q x y → R s' t' →
      Meets X E R Q' ((f x).outcome s') ((f' y).outcome t')) :
    Meets X E R Q' ((w >>= f).outcome s) ((w' >>= f').outcome t) := by
  rw [outcome_bind, outcome_bind]
  generalize w.outcome s = o at hw hf
  generalize w'.outcome t = o' at hw hf
  cases hw with
  | ok hxy hst => exact hf _ _ _ _ rfl rfl hxy hst
  | failed he hst => exact .failed he hst
  | excused he => exact .excused he

theorem Along.bind (hw : Along X E R Q w w') (hf : ∀ x y, Q x y → Along X E R Q' (f x) (f' y)) :
    Along X E R Q' (w >>= f) (w' >>= f') :=
  fun s t hst => (hw s t hst).bind fun x y _ _ _ _ hxy hst' => hf x y hxy _ _ hst'

theorem Along.map {g : α → β} {g' : γ → δ} (hw : Along X E R Q w w')
    (hg : ∀ x y, Q x y → Q' (g x) (g' y)) : Along X E R Q' (g <$> w) (g' <$> w') := by
  rw [map_eq_pure_bind, map_eq_pure_bind]
  exact hw.bind fun x y hxy => .pure (hg x y hxy)

theorem Along.discard (hw : Along X E R Q w w') :
    Along X E R (fun _ _ => True) (discard w) (discard w') :=
  hw.map fun _ _ _ => trivial

theorem Along.finally_ (hw : Along X E R Q w w') (hr : ∀ s t, R s t → R (restore s) (restore' t)) :
    Along X E R Q (w.finally_ restore) (w'.finally_ restore') := by
  intro s t hst
  have hmeet := hw s t hst
  rw [outcome_finally_, outcome_finally_]
  generalize w.outcome s = o at hmeet
  generalize w'.outcome t = o' at hmeet
  cases hmeet with
  | ok hxy hst' => exact .ok hxy (hr _ _ hst')
  | failed he hst' => exact .failed he (hr _ _ hst')
  | excused he => exact .excused he

theorem Along.onFailure (hw : Along X E R Q w w')
    (hr : ∀ e, ¬X e → ∀ s t, R s t → R (restore s) (restore' t)) :
    Along X E R Q (w.onFailure restore) (w'.onFailure restore') := by
  intro s t hst
  have hmeet := hw s t hst
  rw [outcome_onFailure, outcome_onFailure]
  generalize w.outcome s = o at hmeet
  generalize w'.outcome t = o' at hmeet
  cases hmeet with
  | ok hxy hst' => exact .ok hxy hst'
  | @failed e _ _ _ hee hst' =>
    by_cases he : X e
    · exact .excused he
    · exact .failed hee (hr e he _ _ hst')
  | excused he => exact .excused he

theorem Along.forM₂
    (h : Forall₂ (fun x y => Along X E R (fun _ _ => True) (work x) (work' y)) xs ys) :
    Along X E R (fun _ _ => True) (xs.forM work) (ys.forM work') := by
  induction h with
  | nil => exact .pure trivial
  | cons hxy _ ih => exact hxy.bind fun _ _ _ => ih

theorem Along.forM {work' : α → Work τ PUnit}
    (h : ∀ x ∈ xs, Along X E R (fun _ _ => True) (work x) (work' x)) :
    Along X E R (fun _ _ => True) (xs.forM work) (xs.forM work') :=
  .forM₂ (forall₂_same.2 h)

/-! ### Items of a list -/

theorem sift_of_fault (f : Fault) : (Failure.fault f).sift Failure.isError = ([], some (.fault f)) :=
  rfl

theorem Along.collecting (hX : ∀ e, X e → ∃ f, e = .fault f) (hE : Failure.Tracks E)
    (h : Forall₂ (fun x y => Along X E R (fun _ _ => True) (work x) (work' y)) xs ys)
    {kept kept' : List Failure} (hkept : Forall₂ E kept kept') :
    Along X E R (fun r r' => Forall₂ E r.2 r'.2) (collecting Failure.isError work xs kept)
      (collecting Failure.isError work' ys kept') := by
  induction h generalizing kept kept' with
  | nil => exact .pure hkept
  | @cons x y xs ys hxy h ih =>
    intro s t hst
    have hmeet := hxy s t hst
    generalize ho : (work x).outcome s = o at hmeet
    generalize ho' : (work' y).outcome t = o' at hmeet
    cases hmeet with
    | ok hxy hst' =>
      rw [outcome_collecting_ok ho, outcome_collecting_ok ho']
      refine (ih hkept).map (fun r r' hr => ?_) _ _ hst'
      exact hr
    | @failed e e' _ _ he hst' =>
      have hmore := hE.kept he
      have hstop := hE.raised he
      rcases hsift : e.sift Failure.isError with ⟨more, stop⟩
      rcases hsift' : e'.sift Failure.isError with ⟨more', stop'⟩
      rw [hsift, hsift'] at hmore hstop
      cases hstop with
      | none =>
        rw [outcome_collecting_kept ho hsift, outcome_collecting_kept ho' hsift']
        exact ih (rel_append hkept hmore) _ _ hst'
      | some hstop =>
        rw [outcome_collecting_stop ho hsift, outcome_collecting_stop ho' hsift']
        exact .failed hstop hst'
    | @excused e _ _ he =>
      obtain ⟨f, rfl⟩ := hX e he
      rw [outcome_collecting_stop ho (sift_of_fault f)]
      exact .excused he

theorem Along.each (hX : Lasting X) (hE : Failure.Tracks E)
    (hsolid : ∀ x ∈ xs, Raises Failure.Solid (work x))
    (h : Forall₂ (fun x y => Along X E R (fun _ _ => True) (work x) (work' y)) xs ys) :
    Along X E R (fun _ _ => True) (Functor.discard (Work.each work xs))
      (Functor.discard (Work.each work' ys)) := by
  rcases hX with hX | hX
  · intro s t hst
    rcases ho : (Functor.discard (Work.each work xs)).outcome s with ⟨e | x, s'⟩
    · exact .excused (hX e)
    · obtain ⟨_, t', ht, hst', -⟩ := (Along.forM₂ h).exists_ok hst ((each_ok_iff hsolid).1 ho)
      obtain ⟨rs, hrs⟩ := collecting_of_forM (p := Failure.isError) ht []
      have hok : (Functor.discard (Work.each work' ys)).outcome t = (.ok ⟨⟩, t') :=
        discard_eq_ok.2 ⟨rs, bind_eq_ok.2 ⟨_, _, hrs, rfl⟩⟩
      rw [hok]
      exact .ok trivial hst'
  · refine Along.discard (Q := fun _ _ => True) ((Along.collecting hX hE h .nil).bind ?_)
    rintro ⟨ys, kept⟩ ⟨ys', kept'⟩ hkept
    have hall := hE.gathered hkept
    dsimp only
    generalize Failure.gathered "" kept = o at hall
    generalize Failure.gathered "" kept' = o' at hall
    cases hall with
    | none => exact .pure trivial
    | some he => exact .failed he

end Work

end Boardwright
