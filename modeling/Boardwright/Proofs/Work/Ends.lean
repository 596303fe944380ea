import Boardwright.Proofs.Work

/-!
# Work that ends

Work that goes down to some depth has a limit, and fails with an endless recursion where the
limit is met. Let `w` and `w'` be the same work with two limits. The first one `Ends` if from
each state with some property the limit is not met and the other limit makes no difference: both
have the same outcome, and it is no endless recursion.

Work without a limit ends if its failures are ordinary: `Ends.of_raises`. Other work ends if its
parts do and the property of the state is kept between them.
-/

namespace Boardwright.Work

open Failure

variable {σ α β : Type} {I : σ → Prop} {P : α → Prop} {Q : β → Prop} {w w' : Work σ α}
  {f f' : α → Work σ β} {xs : List α} {restore : σ → σ}

/-- From a state with `I` the work `w` has the same outcome as `w'`, and it is no endless
recursion. -/
structure Ends (I : σ → Prop) (w w' : Work σ α) : Prop where
  same : ∀ s, I s → w'.outcome s = w.outcome s
  finite : ∀ s, I s → (w.outcome s).1 ≠ .error (.fault .endlessRecursion)

theorem Ends.of_raises (h : Raises Ordinary w) : Ends I w w :=
  ⟨fun _ _ => rfl, fun s _ he => (h s _ (w.outcome s).2 (Prod.ext he rfl)).2 rfl⟩

theorem Ends.bind (hk : Keeps I P w) (hw : Ends I w w') (hf : ∀ x, P x → Ends I (f x) (f' x)) :
    Ends I (w >>= f) (w' >>= f') := by
  constructor
  · intro s hs
    rw [outcome_bind, outcome_bind, hw.same s hs]
    rcases hout : w.outcome s with ⟨e | x, t⟩
    · rfl
    · exact (hf x (hk.result hs hout)).same t (hk.state hs hout)
  · intro s hs
    have hne := hw.finite s hs
    rw [outcome_bind]
    rcases hout : w.outcome s with ⟨e | x, t⟩
    · simpa [hout] using hne
    · exact (hf x (hk.result hs hout)).finite t (hk.state hs hout)

theorem Ends.get_bind {f f' : σ → Work σ β} (h : ∀ s, I s → Ends I (f s) (f' s)) :
    Ends I (get >>= f) (get >>= f') := .bind .get (.of_raises .get) h

theorem Ends.discard (hw : Ends I w w') : Ends I (discard w) (discard w') := by
  constructor
  · intro s hs
    show (_ <$> w').outcome s = (_ <$> w).outcome s
    rw [outcome_map, outcome_map, hw.same s hs]
  · intro s hs h
    apply hw.finite s hs
    rw [map_eq_error.1 (Prod.ext h rfl)]

theorem Ends.finally_ (hw : Ends I w w') :
    Ends I (w.finally_ restore) (w'.finally_ restore) := by
  refine ⟨fun s hs => ?_, hw.finite⟩
  rw [outcome_finally_, outcome_finally_, hw.same s hs]

theorem Ends.onFailure (hw : Ends I w w') :
    Ends I (w.onFailure restore) (w'.onFailure restore) := by
  constructor
  · intro s hs
    rw [outcome_onFailure, outcome_onFailure, hw.same s hs]
  · intro s hs
    have hne := hw.finite s hs
    rw [outcome_onFailure]
    rcases hout : w.outcome s with ⟨e | x, t⟩
    · simpa [hout] using hne
    · simp

theorem Ends.forM {work work' : α → Work σ PUnit}
    (hk : ∀ x ∈ xs, Guards I (work x)) (h : ∀ x ∈ xs, Ends I (work x) (work' x)) :
    Ends I (xs.forM work) (xs.forM work') := by
  induction xs with
  | nil => exact .of_raises (.pure _)
  | cons x xs ih =>
    rw [List.forall_mem_cons] at hk h
    exact .bind hk.1 h.1 fun _ _ => ih hk.2 h.2

theorem Ends.collecting {work work' : α → Work σ β} (hk : ∀ x ∈ xs, Keeps I Q (work x))
    (h : ∀ x ∈ xs, Ends I (work x) (work' x)) (kept : List Failure) :
    Ends I (collecting isError work xs kept) (collecting isError work' xs kept) := by
  induction xs generalizing kept with
  | nil => exact .of_raises (.pure _)
  | cons x xs ih =>
    rw [List.forall_mem_cons] at hk h
    have hrest := ih hk.2 h.2
    constructor
    · intro s hs
      have hsame := h.1.same s hs
      rcases hout : (work x).outcome s with ⟨e | y, t⟩
      · have ht := hk.1.state hs hout
        rcases hsift : e.sift isError with ⟨more, _ | stop⟩
        · rw [outcome_collecting_kept hout hsift,
            outcome_collecting_kept (hsame.trans hout) hsift]
          exact (hrest _).same t ht
        · rw [outcome_collecting_stop hout hsift,
            outcome_collecting_stop (hsame.trans hout) hsift]
      · rw [outcome_collecting_ok hout, outcome_collecting_ok (hsame.trans hout), outcome_map,
          outcome_map, (hrest kept).same t (hk.1.state hs hout)]
    · intro s hs
      have hne := h.1.finite s hs
      rcases hout : (work x).outcome s with ⟨e | y, t⟩ <;> rw [hout] at hne
      · have ht := hk.1.state hs hout
        rcases hsift : e.sift isError with ⟨more, _ | stop⟩
        · rw [outcome_collecting_kept hout hsift]
          exact (hrest _).finite t ht
        · rw [outcome_collecting_stop hout hsift]
          rintro ⟨⟩
          exact hne (congrArg _ (eq_fault_of_sift (by rw [hsift])))
      · rw [outcome_collecting_ok hout]
        intro he
        apply (hrest kept).finite t (hk.1.state hs hout)
        rw [map_eq_error.1 (Prod.ext he rfl)]

theorem Ends.each {work work' : α → Work σ β} (hk : ∀ x ∈ xs, Keeps I Q (work x))
    (h : ∀ x ∈ xs, Ends I (work x) (work' x)) : Ends I (each work xs) (each work' xs) := by
  refine .bind (.collecting hk []) (.collecting hk h []) fun r _ => ?_
  rcases r with ⟨ys, _ | ⟨e, kept⟩⟩
  · exact .of_raises (.pure _)
  · refine ⟨fun _ _ => rfl, fun _ _ => ?_⟩
    rintro ⟨⟩

end Boardwright.Work
