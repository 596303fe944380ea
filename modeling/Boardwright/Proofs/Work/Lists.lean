import Boardwright.Proofs.Work.InStep

/-!
# Work on the items of a list

Work on one item after the other is read off the work on each item: it is in step with other work
if each item is, it keeps what each item keeps, and it has an answer if each item has one.
-/

open List

namespace Boardwright.Work

variable {σ τ α β : Type} {X : Failure → Prop} {R : σ → τ → Prop} {xs : List α} {s : σ} {γ : Type}
  {Q : α → γ → Prop} {w : Work σ α} {w' : Work τ γ} {t : τ}

/-! ### In step -/

/-- Two states, each as it is. -/
def Both (s : σ) (t : τ) (x : σ) (y : τ) : Prop := x = s ∧ y = t

theorem InStep.both
    (h : Meets X Eq (Both s t) Q (w.outcome s) (w'.outcome t)) : InStep X (Both s t) Q w w' := by
  rintro x y ⟨hx, hy⟩
  rwa [hx, hy]

/-- Work that is in step with work from a fixed state leaves this state as it is. -/
theorem InStep.keeps
    (h : InStep (fun _ => False) (Both s t) Q w w') : Keeps (· = s) (fun x => ∃ y, Q x y) w := by
  rintro _ rfl
  have hmeet := h _ t ⟨rfl, rfl⟩
  generalize w.outcome _ = o at hmeet
  generalize w'.outcome t = o' at hmeet
  cases hmeet with
  | ok hxy hst => exact ⟨hst.1, fun x hx => Except.ok.inj hx ▸ ⟨_, hxy⟩⟩
  | failed _ hst => exact ⟨hst.1, nofun⟩
  | excused he => exact he.elim

/-! ### What each item keeps -/

variable {I : σ → Prop} {Q : α → β → Prop} {ys : List β} {f : α → Work σ Bool} {p : α → Bool}

theorem exists_left_of_forall₂ {y : β} (h : Forall₂ Q xs ys) (hy : y ∈ ys) : ∃ x ∈ xs, Q x y := by
  induction h with
  | nil => exact absurd hy not_mem_nil
  | @cons x y' xs ys hxy h ih =>
    rcases mem_cons.1 hy with rfl | hy
    · exact ⟨x, mem_cons_self, hxy⟩
    · obtain ⟨x', hx', hQ⟩ := ih hy
      exact ⟨x', mem_cons_of_mem x hx', hQ⟩

theorem exists_right_of_forall₂ {x : α} (h : Forall₂ Q xs ys) (hx : x ∈ xs) : ∃ y ∈ ys, Q x y :=
  exists_left_of_forall₂ (Forall₂.flip (R := fun y x => Q x y) h) hx

theorem map_eq_map_of_forall₂ {f : α → γ} {g : β → γ}
    (h : Forall₂ Q xs ys) (hQ : ∀ x y, Q x y → f x = g y) : xs.map f = ys.map g := by
  rw [← forall₂_eq_eq_eq, forall₂_map_left_iff, forall₂_map_right_iff]
  exact h.imp hQ

theorem Keeps.mapM {f : α → Work σ β} {Q : α → β → Prop} (h : ∀ x ∈ xs, Keeps I (Q x) (f x)) :
    Keeps I (Forall₂ Q xs) (xs.mapM f) := by
  induction xs with
  | nil => exact .pure .nil
  | cons x xs ih =>
    rw [forall_mem_cons] at h
    rw [mapM_cons]
    exact h.1.bind fun y hy => (ih h.2).bind fun ys hys => .pure (.cons hy hys)

/-- What is kept of a list is what a test on its items tells. -/
theorem Keeps.filterM {P : α → Prop} (h : ∀ x ∈ xs, Keeps I (fun c => c = p x ∧ P x) (f x)) :
    Keeps I (fun ys => ys = xs.filter p ∧ ∀ x ∈ xs, P x) (xs.filterM f) := by
  have haux : ∀ acc, Keeps I (fun ys => ys = (xs.filter p).reverse ++ acc ∧ ∀ x ∈ xs, P x)
      (xs.filterAuxM f acc) := by
    induction xs with
    | nil => exact fun acc => .pure ⟨rfl, by simp⟩
    | cons x xs ih =>
      intro acc
      rw [forall_mem_cons] at h
      refine h.1.bind fun c hc => (ih h.2 _).imp fun ys hys => ?_
      rw [hys.1, hc.1, filter_cons, forall_mem_cons]
      refine ⟨?_, hc.2, hys.2⟩
      cases p x <;> simp
  refine (haux []).bind fun ys hys => .pure ⟨?_, hys.2⟩
  rw [hys.1, append_nil, reverse_reverse]

theorem keeps_filterM (h : ∀ x ∈ xs, Guards I (f x)) :
    Guards I (xs.filterM f) := by
  have haux : ∀ acc, Guards I (xs.filterAuxM f acc) := by
    induction xs with
    | nil => exact fun acc => .pure trivial
    | cons x xs ih =>
      intro acc
      rw [forall_mem_cons] at h
      exact h.1.bind fun c _ => ih h.2 _
  exact (haux []).bind fun _ _ => .pure trivial

theorem Keeps.anyM (h : ∀ x ∈ xs, Keeps I (· = p x) (f x)) :
    Keeps I (· = xs.any p) (xs.anyM f) := by
  induction xs with
  | nil => exact .pure rfl
  | cons x xs ih =>
    rw [forall_mem_cons] at h
    refine h.1.bind fun c hc => ?_
    rw [any_cons, ← hc]
    cases c with
    | true => exact .pure rfl
    | false => exact ih h.2

/-! ### Work that has an answer -/

theorem outcome_mapM {f : α → Work σ β} {g : α → β}
    (h : ∀ x ∈ xs, (f x).outcome s = (.ok (g x), s)) :
    (xs.mapM f).outcome s = (.ok (xs.map g), s) := by
  induction xs with
  | nil => rfl
  | cons x xs ih =>
    rw [forall_mem_cons] at h
    rw [mapM_cons, outcome_bind_ok _ h.1, outcome_bind_ok _ (ih h.2)]
    rfl

theorem outcome_filterM (h : ∀ x ∈ xs, (f x).outcome s = (.ok (p x), s)) :
    (xs.filterM f).outcome s = (.ok (xs.filter p), s) := by
  have haux : ∀ acc,
      (xs.filterAuxM f acc).outcome s = (.ok ((xs.filter p).reverse ++ acc), s) := by
    induction xs with
    | nil => exact fun acc => rfl
    | cons x xs ih =>
      intro acc
      rw [forall_mem_cons] at h
      rw [List.filterAuxM, outcome_bind_ok _ h.1, ih h.2, filter_cons]
      cases p x <;> simp
  unfold List.filterM
  rw [outcome_bind_ok _ (haux []), append_nil, outcome_pure, reverse_reverse]

/-- Work that succeeds and changes nothing. -/
def Answers (s : σ) (w : Work σ α) : Prop := ∃ x, w.outcome s = (.ok x, s)

theorem Answers.pure (x : α) : Answers s (pure x : Work σ α) := ⟨x, rfl⟩

theorem Answers.bind {f : α → Work σ β} (hw : Answers s w)
    (hf : ∀ x, Answers s (f x)) : Answers s (w >>= f) := by
  obtain ⟨x, hx⟩ := hw
  obtain ⟨y, hy⟩ := hf x
  exact ⟨y, by rw [outcome_bind_ok _ hx, hy]⟩

theorem Answers.anyM {p : α → Work σ Bool} (h : ∀ x ∈ xs, Answers s (p x)) :
    Answers s (xs.anyM p) := by
  induction xs with
  | nil => exact .pure false
  | cons x xs ih =>
    rw [forall_mem_cons] at h
    refine h.1.bind fun c => ?_
    split
    · exact .pure true
    · exact ih h.2

end Boardwright.Work
