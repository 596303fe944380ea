import Boardwright.Proofs.Failure

/-!
# Laws of work

The outcome of a piece of work is read off its parts. Work `Keeps` a property of the
state if the property holds after the work when it held before, whether the work failed
or not; work `Raises` failures of a sort if each failure of it is of that sort. Both are
checked part by part.

Work on each item of a list goes on after an item that failed. If only solid failures are
met, none is lost, so that such work succeeds only where each item succeeds in turn:
`each_ok_iff`.
-/

open List

namespace Boardwright.Work

variable {σ α β : Type} {w : Work σ α} {f : α → Work σ β} {s t : σ} {e : Failure} {x : α} {y : β}
  {r : Except Failure α} {g : α → β} {restore : σ → σ}

/-! ### Outcomes -/

@[simp] theorem outcome_pure (x : α) (s : σ) : (pure x : Work σ α).outcome s = (.ok x, s) := rfl

@[simp] theorem outcome_throw (e : Failure) (s : σ) :
    (throw e : Work σ α).outcome s = (.error e, s) := rfl

@[simp] theorem outcome_get (s : σ) : (get : Work σ σ).outcome s = (.ok s, s) := rfl

@[simp] theorem outcome_modify (g : σ → σ) (s : σ) :
    (modify g : Work σ PUnit).outcome s = (.ok ⟨⟩, g s) := rfl

@[simp] theorem outcome_ofExcept (r : Except Failure α) (s : σ) :
    (ofExcept r).outcome s = (r, s) := rfl

theorem outcome_eq_ok_of_toOption (h : (w.outcome s).1.toOption = some x) :
    w.outcome s = (.ok x, (w.outcome s).2) := by
  rcases hout : w.outcome s with ⟨e | y, t⟩ <;> rw [hout] at h <;> cases h
  rfl

theorem outcome_bind (w : Work σ α) (f : α → Work σ β) (s : σ) :
    (w >>= f).outcome s = match w.outcome s with
      | (.ok x, t) => (f x).outcome t
      | (.error e, t) => (.error e, t) := by
  show (ExceptT.bindCont f (w s).1) (w s).2 = _
  unfold ExceptT.bindCont outcome ExceptT.run StateT.run
  rcases w s with ⟨r | r, t⟩ <;> rfl

theorem outcome_bind_ok (f : α → Work σ β) (h : w.outcome s = (.ok x, t)) :
    (w >>= f).outcome s = (f x).outcome t := by
  rw [outcome_bind, h]

theorem outcome_bind_error (f : α → Work σ β) (h : w.outcome s = (.error e, t)) :
    (w >>= f).outcome s = (.error e, t) := by
  rw [outcome_bind, h]

theorem bind_eq_ok :
    (w >>= f).outcome s = (.ok y, t) ↔
      ∃ x s', w.outcome s = (.ok x, s') ∧ (f x).outcome s' = (.ok y, t) := by
  rw [outcome_bind]
  rcases w.outcome s with ⟨e | x, s'⟩
  · simp
  · constructor
    · exact fun h => ⟨x, s', rfl, h⟩
    · rintro ⟨x', s'', hx, h⟩
      cases hx
      exact h

theorem bind_eq_error :
    (w >>= f).outcome s = (.error e, t) ↔ w.outcome s = (.error e, t) ∨
      ∃ x s', w.outcome s = (.ok x, s') ∧ (f x).outcome s' = (.error e, t) := by
  rw [outcome_bind]
  rcases w.outcome s with ⟨e' | x, s'⟩
  · simp
  · constructor
    · exact fun h => Or.inr ⟨x, s', rfl, h⟩
    · rintro (h | ⟨x', s'', hx, h⟩)
      · cases h
      · cases hx
        exact h

@[simp] theorem outcome_get_bind (f : σ → Work σ β) (s : σ) :
    ((get : Work σ σ) >>= f).outcome s = (f s).outcome s := rfl

@[simp] theorem outcome_modify_bind (g : σ → σ) (f : PUnit → Work σ β) (s : σ) :
    ((modify g : Work σ PUnit) >>= f).outcome s = (f ⟨⟩).outcome (g s) := rfl

theorem ofExcept_bind_eq_ok :
    (ofExcept r >>= f).outcome s = (.ok y, t) ↔ ∃ x, r = .ok x ∧ (f x).outcome s = (.ok y, t) := by
  rw [outcome_bind, outcome_ofExcept]
  cases r <;> simp

@[simp] theorem outcome_ofExcept_ok_bind (x : α) (f : α → Work σ β) (s : σ) :
    (ofExcept (.ok x) >>= f).outcome s = (f x).outcome s := rfl

@[simp] theorem outcome_ofExcept_error_bind (e : Failure) (f : α → Work σ β) (s : σ) :
    (ofExcept (.error e) >>= f).outcome s = (.error e, s) := rfl

theorem outcome_map (g : α → β) (w : Work σ α) (s : σ) :
    (g <$> w).outcome s = ((w.outcome s).1.map g, (w.outcome s).2) := by
  rw [map_eq_pure_bind, outcome_bind]
  rcases w.outcome s with ⟨r | r, t⟩ <;> rfl

@[simp] theorem outcome_finally_ (w : Work σ α) (restore : σ → σ) (s : σ) :
    (w.finally_ restore).outcome s = ((w.outcome s).1, restore (w.outcome s).2) := rfl

theorem outcome_onFailure (w : Work σ α) (restore : σ → σ) (s : σ) :
    (w.onFailure restore).outcome s = match w.outcome s with
      | (.ok x, t) => (.ok x, t)
      | (.error e, t) => (.error e, restore t) := rfl

theorem outcome_downgraded (p : Failure → Bool) (note : Failure → σ → Option Failure × σ)
    (instead w : Work σ α) (s : σ) :
    (downgraded p note instead w).outcome s =
      match w.outcome s with
      | (.ok x, s') => (.ok x, s')
      | (.error f, s') =>
        if p f then
          match note f s' with
          | (some stop, s'') => (.error stop, s'')
          | (none, s'') => instead.outcome s''
        else (.error f, s') := rfl

theorem map_eq_ok :
    (g <$> w).outcome s = (.ok y, t) ↔ ∃ x, w.outcome s = (.ok x, t) ∧ g x = y := by
  rw [outcome_map]
  rcases w.outcome s with ⟨e | x, s'⟩
  · simp [Except.map]
  · simp only [Except.map, Prod.mk.injEq, Except.ok.injEq]
    exact ⟨fun ⟨hy, hs⟩ => ⟨x, ⟨rfl, hs⟩, hy⟩, fun ⟨x', ⟨hx, hs⟩, hy⟩ => ⟨hx ▸ hy, hs⟩⟩

theorem map_eq_error :
    (g <$> w).outcome s = (.error e, t) ↔ w.outcome s = (.error e, t) := by
  rw [outcome_map]
  rcases w.outcome s with ⟨e' | x, s'⟩ <;> simp [Except.map]

theorem onFailure_eq_ok :
    (w.onFailure restore).outcome s = (.ok x, t) ↔ w.outcome s = (.ok x, t) := by
  rw [outcome_onFailure]
  rcases w.outcome s with ⟨r | r, s'⟩ <;> simp

theorem finally_eq_ok :
    (w.finally_ restore).outcome s = (.ok x, t) ↔
      ∃ t', w.outcome s = (.ok x, t') ∧ restore t' = t := by
  rw [outcome_finally_]
  rcases w.outcome s with ⟨r | r, s'⟩ <;> simp [and_assoc]

theorem discard_eq_ok : (discard w).outcome s = (.ok ⟨⟩, t) ↔ ∃ x, w.outcome s = (.ok x, t) := by
  show ((fun _ => PUnit.unit) <$> w).outcome s = _ ↔ _
  rw [map_eq_ok]
  exact ⟨fun ⟨x, h, _⟩ => ⟨x, h⟩, fun ⟨x, h⟩ => ⟨x, h, rfl⟩⟩

section Collecting

variable {p : Failure → Bool} {work : α → Work σ β} {x : α} {xs : List α} {kept more : List Failure}

theorem outcome_collecting_ok (h : (work x).outcome s = (.ok y, t)) :
    (collecting p work (x :: xs) kept).outcome s =
      ((fun r => (y :: r.1, r.2)) <$> collecting p work xs kept).outcome t := by
  show (match (work x).outcome s with | (.ok y, t) => _ | (.error f, t) => _) = _
  rw [h, map_eq_pure_bind]
  rfl

theorem outcome_collecting_kept (h : (work x).outcome s = (.error e, t))
    (he : e.sift p = (more, none)) :
    (collecting p work (x :: xs) kept).outcome s =
      (collecting p work xs (kept ++ more)).outcome t := by
  show (match (work x).outcome s with | (.ok y, t) => _ | (.error f, t) => _) = _
  rw [h]
  simp only [he]
  rfl

theorem outcome_collecting_stop {stop : Failure} (h : (work x).outcome s = (.error e, t))
    (he : e.sift p = (more, some stop)) :
    (collecting p work (x :: xs) kept).outcome s = (.error stop, t) := by
  show (match (work x).outcome s with | (.ok y, t) => _ | (.error f, t) => _) = _
  rw [h]
  simp only [he]

end Collecting

/-! ### Properties of the state that work keeps -/

variable {I : σ → Prop} {P : α → Prop} {Q : β → Prop} {xs : List α} {p : Failure → Bool}
  {work : α → Work σ β}

/-- Work after which a property of the state holds if it held before, and whose results
have a property. -/
def Keeps (I : σ → Prop) (P : α → Prop) (w : Work σ α) : Prop :=
  ∀ s, I s → I (w.outcome s).2 ∧ ∀ x, (w.outcome s).1 = .ok x → P x

/-- Work that keeps a property of the state, whatever its results. -/
abbrev Guards (I : σ → Prop) (w : Work σ α) : Prop := Keeps I (fun _ => True) w

theorem Keeps.state (hw : Keeps I P w) (hs : I s) (h : w.outcome s = (r, t)) : I t := by
  have hkept := (hw s hs).1
  rwa [h] at hkept

theorem Keeps.result (hw : Keeps I P w) (hs : I s) (h : w.outcome s = (.ok x, t)) : P x :=
  (hw s hs).2 x (by rw [h])

theorem Keeps.pure (hx : P x) : Keeps I P (pure x : Work σ α) :=
  fun _ hs => ⟨hs, fun _ h => Except.ok.inj h ▸ hx⟩

theorem Keeps.throw (e : Failure) : Keeps I P (throw e : Work σ α) :=
  fun _ hs => ⟨hs, fun _ h => nomatch h⟩

theorem Keeps.get : Keeps I I (get : Work σ σ) :=
  fun _ hs => ⟨hs, fun _ h => Except.ok.inj h ▸ hs⟩

theorem Keeps.modify {g : σ → σ} (hg : ∀ s, I s → I (g s)) : Guards I (modify g : Work σ PUnit) :=
  fun s hs => ⟨hg s hs, fun _ _ => trivial⟩

theorem Keeps.ofExcept (hr : ∀ x, r = .ok x → P x) :
    Keeps I P (ofExcept r : Work σ α) :=
  fun _ hs => ⟨hs, hr⟩

theorem Keeps.bind (hw : Keeps I P w) (hf : ∀ x, P x → Keeps I Q (f x)) :
    Keeps I Q (w >>= f) := by
  intro s hs
  obtain ⟨hkept, hres⟩ := hw s hs
  rw [outcome_bind]
  rcases hout : w.outcome s with ⟨e | x, s'⟩ <;> rw [hout] at hkept hres
  · exact ⟨hkept, fun _ h => nomatch h⟩
  · exact hf x (hres x rfl) s' hkept

theorem Keeps.ofExcept_bind (hf : ∀ x, Keeps I Q (f x)) :
    Keeps I Q (Work.ofExcept r >>= f) :=
  (ofExcept (P := fun _ => True) fun _ _ => trivial).bind fun x _ => hf x

theorem Keeps.imp {P' : α → Prop} (hw : Keeps I P w) (h : ∀ x, P x → P' x) : Keeps I P' w :=
  fun s hs => ⟨(hw s hs).1, fun x hx => h x ((hw s hs).2 x hx)⟩

theorem Keeps.discard (hw : Keeps I P w) : Guards I (discard w) := by
  intro s hs
  show I ((_ <$> w).outcome s).2 ∧ _
  rw [outcome_map]
  exact ⟨(hw s hs).1, fun _ _ => trivial⟩

theorem Keeps.finally_ (hw : Keeps I P w) (hr : ∀ s, I s → I (restore s)) :
    Keeps I P (w.finally_ restore) :=
  fun s hs => ⟨hr _ (hw s hs).1, (hw s hs).2⟩

theorem Keeps.onFailure (hw : Keeps I P w) (hr : ∀ s, I s → I (restore s)) :
    Keeps I P (w.onFailure restore) := by
  intro s hs
  obtain ⟨hkept, hres⟩ := hw s hs
  rw [outcome_onFailure]
  rcases hout : w.outcome s with ⟨e | x, s'⟩ <;> rw [hout] at hkept hres
  · exact ⟨hr s' hkept, fun _ h => nomatch h⟩
  · exact ⟨hkept, hres⟩

theorem Keeps.forM {work : α → Work σ PUnit} (h : ∀ x ∈ xs, Guards I (work x)) :
    Guards I (xs.forM work) := by
  induction xs with
  | nil => exact Keeps.pure trivial
  | cons x xs ih =>
    rw [forall_mem_cons] at h
    exact h.1.bind fun _ _ => ih h.2

theorem Keeps.collecting (h : ∀ x ∈ xs, Keeps I Q (work x)) (kept : List Failure) :
    Guards I (collecting p work xs kept) := by
  induction xs generalizing kept with
  | nil => exact Keeps.pure trivial
  | cons x xs ih =>
    rw [forall_mem_cons] at h
    intro s hs
    refine ⟨?_, fun _ _ => trivial⟩
    have hkept := (h.1 s hs).1
    rcases hout : (work x).outcome s with ⟨e | y, s'⟩ <;> rw [hout] at hkept
    · rcases hsift : e.sift p with ⟨more, _ | stop⟩
      · rw [outcome_collecting_kept hout hsift]
        exact (ih h.2 (kept ++ more) s' hkept).1
      · rw [outcome_collecting_stop hout hsift]
        exact hkept
    · rw [outcome_collecting_ok hout, outcome_map]
      exact (ih h.2 kept s' hkept).1

theorem Keeps.each (h : ∀ x ∈ xs, Keeps I Q (work x)) :
    Guards I (each work xs) := by
  refine Keeps.bind (Keeps.collecting h []) fun r _ => ?_
  rcases r with ⟨ys, kept⟩
  dsimp only
  split
  · exact Keeps.pure trivial
  · exact Keeps.throw _

/-! ### Failures that work raises -/

variable {E : Failure → Prop} {kept : List Failure}

def Raises (E : Failure → Prop) (w : Work σ α) : Prop :=
  ∀ s e t, w.outcome s = (.error e, t) → E e

theorem Raises.pure (x : α) : Raises E (pure x : Work σ α) := fun _ _ _ h => nomatch h

theorem Raises.get : Raises E (get : Work σ σ) := fun _ _ _ h => nomatch h

theorem Raises.modify (g : σ → σ) : Raises E (modify g : Work σ PUnit) := fun _ _ _ h => nomatch h

theorem Raises.throw {e : Failure} (he : E e) : Raises E (throw e : Work σ α) := by
  intro s e' t h
  cases h
  exact he

theorem Raises.ofExcept (hr : ∀ e, r = .error e → E e) :
    Raises E (ofExcept r : Work σ α) := fun _ e _ h => hr e (Prod.mk.inj h).1

theorem Raises.bind (hw : Raises E w) (hf : ∀ x, Raises E (f x)) : Raises E (w >>= f) := by
  intro s e t h
  rcases bind_eq_error.1 h with h | ⟨x, s', -, h⟩
  · exact hw s e t h
  · exact hf x s' e t h

theorem Raises.solid (hw : Raises Failure.Ordinary w) : Raises Failure.Solid w :=
  fun s e t h => (hw s e t h).1

theorem Raises.discard (hw : Raises E w) : Raises E (discard w) :=
  fun s e t h => hw s e t (map_eq_error.1 h)

theorem Raises.finally_ (hw : Raises E w) : Raises E (w.finally_ restore) :=
  fun s e _ h => hw s e _ (Prod.ext (Prod.mk.inj h).1 rfl)

theorem Raises.onFailure (hw : Raises E w) : Raises E (w.onFailure restore) := by
  intro s e t h
  rw [outcome_onFailure] at h
  rcases hout : w.outcome s with ⟨e' | x, s'⟩ <;> rw [hout] at h <;> cases h
  exact hw s e s' hout

theorem Raises.forM {work : α → Work σ PUnit} (h : ∀ x ∈ xs, Raises E (work x)) :
    Raises E (xs.forM work) := by
  induction xs with
  | nil => exact Raises.pure _
  | cons x xs ih =>
    rw [forall_mem_cons] at h
    exact h.1.bind fun _ => ih h.2

theorem raises_collecting (h : ∀ x ∈ xs, Raises Failure.Solid (work x)) (hkept : ∀ e ∈ kept, e.Solid) (s t : σ) :
    (∀ e, (collecting Failure.isError work xs kept).outcome s = (.error e, t) → e.Solid) ∧
      ∀ r, (collecting Failure.isError work xs kept).outcome s = (.ok r, t) →
        ∀ e ∈ r.2, e.Solid := by
  induction xs generalizing kept s with
  | nil =>
    refine ⟨nofun, fun r hr => ?_⟩
    cases hr
    exact hkept
  | cons x xs ih =>
    rw [forall_mem_cons] at h
    rcases hout : (work x).outcome s with ⟨e | y, s'⟩
    · obtain ⟨hmore, hstop⟩ := Failure.solid_of_sift (h.1 s e s' hout)
      rcases hsift : e.sift Failure.isError with ⟨more, _ | stop⟩ <;> rw [hsift] at hmore hstop
      · rw [outcome_collecting_kept hout hsift]
        exact ih h.2 (forall_mem_append.2 ⟨hkept, hmore⟩) s'
      · rw [outcome_collecting_stop hout hsift]
        refine ⟨fun e he => ?_, nofun⟩
        cases he
        exact hstop stop rfl
    · obtain ⟨herror, hok⟩ := ih h.2 hkept s'
      rw [outcome_collecting_ok hout]
      refine ⟨fun e he => herror e (map_eq_error.1 he), fun r hr => ?_⟩
      obtain ⟨r', hr', rfl⟩ := map_eq_ok.1 hr
      exact hok r' hr'

theorem Raises.each (h : ∀ x ∈ xs, Raises Failure.Solid (work x)) :
    Raises Failure.Solid (each work xs) := by
  intro s e t he
  rcases bind_eq_error.1 he with he | ⟨⟨ys, kept⟩, s', hcoll, he⟩
  · exact (raises_collecting h (by simp) s t).1 e he
  · have hkept := (raises_collecting h (by simp) s s').2 _ hcoll
    cases hg : Failure.gathered "" kept with
    | none => simp [hg] at he
    | some e' =>
      simp only [hg, outcome_throw, Prod.mk.injEq, Except.error.injEq] at he
      exact he.1 ▸ Failure.solid_of_gathered hkept hg

/-! ### Success on each item -/

variable {work : α → Work σ PUnit} {x : α} {ys : List α}

theorem forM_cons_ok :
    ((x :: xs).forM work).outcome s = (.ok ⟨⟩, t) ↔
      ∃ s', (work x).outcome s = (.ok ⟨⟩, s') ∧ (xs.forM work).outcome s' = (.ok ⟨⟩, t) := by
  show (work x >>= fun _ => xs.forM work).outcome s = _ ↔ _
  rw [bind_eq_ok]
  exact ⟨fun ⟨_, s', h⟩ => ⟨s', h⟩, fun ⟨s', h⟩ => ⟨⟨⟩, s', h⟩⟩

theorem forM_append_ok :
    ((xs ++ ys).forM work).outcome s = (.ok ⟨⟩, t) ↔
      ∃ s', (xs.forM work).outcome s = (.ok ⟨⟩, s') ∧ (ys.forM work).outcome s' = (.ok ⟨⟩, t) := by
  induction xs generalizing s with
  | nil => exact ⟨fun h => ⟨s, rfl, h⟩, fun ⟨s', hs, h⟩ => by cases hs; exact h⟩
  | cons x xs ih =>
    simp only [cons_append, forM_cons_ok, ih]
    exact ⟨fun ⟨u, hu, v, hv, h⟩ => ⟨v, ⟨u, hu, hv⟩, h⟩,
      fun ⟨v, ⟨u, hu, hv⟩, h⟩ => ⟨u, hu, v, hv, h⟩⟩

theorem collecting_of_forM (h : (xs.forM work).outcome s = (.ok ⟨⟩, t))
    (kept : List Failure) : ∃ rs, (collecting p work xs kept).outcome s = (.ok (rs, kept), t) := by
  induction xs generalizing s with
  | nil =>
    cases h
    exact ⟨[], rfl⟩
  | cons x xs ih =>
    obtain ⟨s', hx, hxs⟩ := forM_cons_ok.1 h
    obtain ⟨rs, hrs⟩ := ih hxs
    refine ⟨⟨⟩ :: rs, ?_⟩
    rw [outcome_collecting_ok hx]
    exact map_eq_ok.2 ⟨_, hrs, rfl⟩

/-- If only solid failures are met, work on each item either keeps a failure or succeeds on
each of them. -/
theorem forM_of_collecting (hsolid : ∀ x ∈ xs, Raises Failure.Solid (work x))
    {kept' : List Failure} {rs : List PUnit}
    (h : (collecting Failure.isError work xs kept).outcome s = (.ok (rs, kept'), t)) :
    ∃ more, kept' = kept ++ more ∧ (more = [] → (xs.forM work).outcome s = (.ok ⟨⟩, t)) := by
  induction xs generalizing s kept rs with
  | nil =>
    cases h
    exact ⟨[], (append_nil _).symm, fun _ => rfl⟩
  | cons x xs ih =>
    rw [forall_mem_cons] at hsolid
    rcases hout : (work x).outcome s with ⟨e | y, s'⟩
    · have he := hsolid.1 s e s' hout
      have hne := Failure.sift_ne_nil he
      rcases hsift : e.sift Failure.isError with ⟨more, _ | stop⟩
      · rw [outcome_collecting_kept hout hsift] at h
        obtain ⟨rest, hrest, -⟩ := ih hsolid.2 h
        rw [hsift] at hne
        refine ⟨more ++ rest, by rw [hrest, append_assoc], fun hnil => ?_⟩
        exact absurd (append_eq_nil_iff.1 hnil).1 (hne rfl)
      · rw [outcome_collecting_stop hout hsift] at h
        cases h
    · rw [outcome_collecting_ok hout] at h
      obtain ⟨⟨rs', k⟩, hrest, he⟩ := map_eq_ok.1 h
      cases he
      obtain ⟨more, hmore, hok⟩ := ih hsolid.2 hrest
      exact ⟨more, hmore, fun hnil => forM_cons_ok.2 ⟨s', hout, hok hnil⟩⟩

/-- If only solid failures are met, work on each item succeeds exactly if the work on the
items in turn does. -/
theorem each_ok_iff (hsolid : ∀ x ∈ xs, Raises Failure.Solid (work x)) :
    (discard (each work xs)).outcome s = (.ok ⟨⟩, t) ↔ (xs.forM work).outcome s = (.ok ⟨⟩, t) := by
  unfold each eachOf
  rw [discard_eq_ok]
  constructor
  · rintro ⟨rs, h⟩
    obtain ⟨⟨ys, kept⟩, s', hcoll, h⟩ := bind_eq_ok.1 h
    obtain ⟨more, hmore, hok⟩ := forM_of_collecting hsolid hcoll
    cases kept with
    | nil =>
      cases h
      exact hok (by simpa using hmore.symm)
    | cons e kept => cases h
  · intro h
    obtain ⟨rs, hrs⟩ := collecting_of_forM (p := Failure.isError) h []
    exact ⟨rs, bind_eq_ok.2 ⟨_, _, hrs, rfl⟩⟩

/-- Work after which, if it succeeds, a property of the state holds if it held before. -/
def Upholds (I : σ → Prop) (w : Work σ α) : Prop := ∀ s x t, I s → w.outcome s = (.ok x, t) → I t

theorem Keeps.upholds (hw : Keeps I P w) : Upholds I w := fun _ _ _ hs h => hw.state hs h

theorem Upholds.forM (h : ∀ x ∈ xs, Upholds I (work x)) : Upholds I (xs.forM work) := by
  induction xs with
  | nil => exact (Keeps.pure (P := fun _ => True) trivial).upholds
  | cons x xs ih =>
    rw [forall_mem_cons] at h
    intro s _ t hs hout
    obtain ⟨s', hx, hxs⟩ := forM_cons_ok.1 hout
    exact ih h.2 s' _ t (h.1 s _ s' hs hx) hxs

end Boardwright.Work
