import Boardwright.Report.Collection

/-!
# Failures with a cause

Work on a list of items goes on after an item that failed, and what was kept of the
failures is raised at the end. A group without a leaf would be lost on the way: nothing of
it is kept and nothing is raised. A failure that is `Solid` is not lost, what is kept and
what is raised of it are solid again, and so are the groups that are made of them. A fault is
raised at once and alone, so a failure that is put together is no endless recursion unless a
part of it is: it is `Ordinary` if its parts are.
-/

open List

namespace Boardwright

variable {f : Failure} {fs : List Failure} {α : Type}

namespace Failure

/-- A failure with a cause: one that is no group, or a group that holds such a one. -/
def Solid (f : Failure) : Prop := f.leaves ≠ []

theorem solid_report (r : Report) : Solid (.report r) := cons_ne_nil _ _

theorem solid_fault (f : Fault) : Solid (.fault f) := cons_ne_nil _ _

theorem leavesAll_ne_nil (hne : fs ≠ []) (hfs : ∀ f ∈ fs, f.Solid) : leavesAll fs ≠ [] := by
  obtain ⟨f, fs, rfl⟩ := exists_cons_of_ne_nil hne
  rw [leavesAll]
  exact append_ne_nil_of_left_ne_nil (hfs f mem_cons_self) _

theorem solid_group (message : String) (hne : fs ≠ []) (hfs : ∀ f ∈ fs, f.Solid) :
    Solid (.group message fs) := by
  rw [Solid, leaves]
  exact leavesAll_ne_nil hne hfs

mutual

theorem solid_of_select {f g : Failure} (h : f.select isError = some g) : g.Solid := by
  cases f with
  | group m fs =>
    rw [select, if_neg (by simp [isError])] at h
    split at h
    · cases h
    · next gs hne =>
        cases h
        exact solid_group m (fun hnil => hne hnil) fun g hg => solid_of_mem_selectAll hg
  | report r =>
    rw [select] at h
    · split at h <;> simp at h
      exact h ▸ solid_report r
    · simp
  | fault r => simp [select, isError] at h
  | exit c => simp [select, isError] at h

theorem solid_of_mem_selectAll {fs : List Failure} {g : Failure} (h : g ∈ selectAll isError fs) :
    g.Solid := by
  cases fs with
  | nil => simp [selectAll] at h
  | cons f fs =>
    rw [selectAll, mem_append, Option.mem_toList] at h
    rcases h with h | h
    · exact solid_of_select h
    · exact solid_of_mem_selectAll h

end

mutual

theorem solid_of_reject {f g : Failure} (h : f.reject isError = some g) : g.Solid := by
  cases f with
  | group m fs =>
    rw [reject, if_neg (by simp [isError])] at h
    split at h
    · cases h
    · next gs hne =>
        cases h
        exact solid_group m (fun hnil => hne hnil) fun g hg => solid_of_mem_rejectAll hg
  | report r =>
    rw [reject] at h
    · split at h <;> simp at h
      exact h ▸ solid_report r
    · simp
  | fault r =>
    simp only [reject, isError, Bool.false_eq_true, if_false, Option.some.injEq] at h
    exact h ▸ solid_fault r
  | exit c =>
    simp only [reject, isError, Bool.false_eq_true, if_false, Option.some.injEq] at h
    exact h ▸ cons_ne_nil _ _

theorem solid_of_mem_rejectAll {fs : List Failure} {g : Failure} (h : g ∈ rejectAll isError fs) :
    g.Solid := by
  cases fs with
  | nil => simp [rejectAll] at h
  | cons f fs =>
    rw [rejectAll, mem_append, Option.mem_toList] at h
    rcases h with h | h
    · exact solid_of_reject h
    · exact solid_of_mem_rejectAll h

end

mutual

/-- Of a failure with a cause something is accepted or something is not. -/
theorem select_or_reject {f : Failure} (hf : f.Solid) :
    f.select isError ≠ none ∨ f.reject isError ≠ none := by
  cases f with
  | group m fs =>
    rw [select, reject, if_neg (by simp [isError]), if_neg (by simp [isError])]
    rcases selectAll_or_rejectAll hf with h | h
    · left
      split
      · contradiction
      · simp
    · right
      split
      · contradiction
      · simp
  | report r => by_cases h : isError (.report r) <;> simp [select, reject, h]
  | fault r => simp [select, reject, isError]
  | exit c => simp [select, reject, isError]

theorem selectAll_or_rejectAll {fs : List Failure} (hfs : leavesAll fs ≠ []) :
    selectAll isError fs ≠ [] ∨ rejectAll isError fs ≠ [] := by
  cases fs with
  | nil => exact absurd rfl hfs
  | cons f fs =>
    rw [selectAll, rejectAll]
    by_cases hf : f.leaves = []
    · rw [leavesAll, hf, nil_append] at hfs
      rcases selectAll_or_rejectAll hfs with h | h
      · exact Or.inl (append_ne_nil_of_right_ne_nil _ h)
      · exact Or.inr (append_ne_nil_of_right_ne_nil _ h)
    · rcases select_or_reject hf with h | h
      · exact Or.inl (append_ne_nil_of_left_ne_nil (by simpa using h) _)
      · exact Or.inr (append_ne_nil_of_left_ne_nil (by simpa using h) _)

end

theorem solid_of_sift (hf : f.Solid) :
    (∀ g ∈ (f.sift isError).1, g.Solid) ∧ ∀ g, (f.sift isError).2 = some g → g.Solid := by
  unfold sift
  split
  · exact ⟨fun g hg => mem_singleton.1 hg ▸ hf, nofun⟩
  · split
    · refine ⟨fun g hg => ?_, fun g hg => solid_of_reject hg⟩
      cases f with
      | group m fs =>
        rw [select, if_neg (by simp [isError])] at hg
        split at hg
        · simp at hg
        · exact solid_of_mem_selectAll hg
      | _ => contradiction
    · exact ⟨fun g hg => absurd hg not_mem_nil, fun g hg => Option.some.inj hg ▸ hf⟩

/-- What is not raised at once of a failure with a cause is kept. -/
theorem sift_ne_nil (hf : f.Solid) (h : (f.sift isError).2 = none) : (f.sift isError).1 ≠ [] := by
  unfold sift at h ⊢
  split
  · exact cons_ne_nil _ _
  · next he =>
      rw [if_neg he] at h
      split
      · next hg =>
          rw [if_pos hg] at h
          have hsel := (select_or_reject hf).resolve_right (fun hr => hr h)
          cases f with
          | group m fs =>
            rw [select, if_neg (by simp [isError])] at hsel ⊢
            split at hsel
            · contradiction
            · next hne => exact hne
          | _ => contradiction
      · next hg =>
          rw [if_neg hg] at h
          cases h

theorem foldl_distinct (fs shown : List Failure) :
    ∃ more, fs.foldl (fun shown f => if shown.any fun g => g.details == f.details then shown
      else shown ++ [f]) shown = shown ++ more ∧ ∀ f ∈ more, f ∈ fs := by
  induction fs generalizing shown with
  | nil => exact ⟨[], by simp⟩
  | cons g fs ih =>
    rw [foldl_cons]
    split
    · obtain ⟨more, he, hmore⟩ := ih shown
      exact ⟨more, he, fun f hf => mem_cons_of_mem g (hmore f hf)⟩
    · obtain ⟨more, he, hmore⟩ := ih (shown ++ [g])
      refine ⟨g :: more, he.trans (by simp), forall_mem_cons.2 ⟨mem_cons_self, ?_⟩⟩
      exact fun f hf => mem_cons_of_mem g (hmore f hf)

theorem solid_of_gathered {message : String} (hfs : ∀ g ∈ fs, g.Solid)
    (h : gathered message fs = some f) : f.Solid := by
  cases fs with
  | nil => cases h
  | cons g fs =>
    cases h
    obtain ⟨more, he, hmore⟩ := foldl_distinct fs [g]
    have hdistinct : distinct (g :: fs) = g :: more := he
    rw [hdistinct]
    rw [forall_mem_cons] at hfs
    refine solid_group message (cons_ne_nil _ _) (forall_mem_cons.2 ⟨hfs.1, ?_⟩)
    exact fun f hf => hfs.2 f (hmore f hf)

variable {rs : List (Except Failure α)} {g : Fault}

theorem mem_failures : f ∈ failures rs ↔ .error f ∈ rs := by
  rw [failures, mem_filterMap]
  constructor
  · rintro ⟨r, hr, hf⟩
    cases r with
    | ok x => cases hf
    | error g =>
      cases hf
      exact hr
  · exact fun h => ⟨_, h, rfl⟩

theorem solid_of_gather (hrs : ∀ g, .error g ∈ rs → g.Solid)
    (h : gather rs = .error f) : f.Solid := by
  unfold gather at h
  split at h
  · next stop hstop =>
      cases h
      obtain ⟨g, hg, he⟩ := exists_of_findSome?_eq_some hstop
      exact (solid_of_sift (hrs g (mem_failures.1 hg))).2 f he
  · split at h
    · next he =>
        cases h
        refine solid_of_gathered (fun g hg => ?_) he
        obtain ⟨k, hk, hg⟩ := mem_flatMap.1 hg
        exact (solid_of_sift (hrs k (mem_failures.1 hk))).1 g hg
    · cases h

theorem eq_map_ok_of_not_mem (h : ∀ g, .error g ∉ rs) :
    rs = (rs.filterMap Except.toOption).map .ok := by
  induction rs with
  | nil => rfl
  | cons r rs ih =>
    simp only [mem_cons, not_or] at h
    cases r with
    | error g => exact absurd rfl (h g).1
    | ok x => simpa [Except.toOption] using ih fun g => (h g).2

/-- Outcomes of which results are left are all results. -/
theorem eq_map_ok_of_gather {xs : List α}
    (hrs : ∀ g, .error g ∈ rs → g.Solid) (h : gather rs = .ok xs) : rs = xs.map .ok := by
  unfold gather at h
  split at h
  · cases h
  · next hstop =>
      split at h
      · cases h
      · next hnone =>
          cases h
          have hkept : kept rs = [] := by
            unfold gathered at hnone
            split at hnone
            · next he => exact he
            · cases hnone
          have hok : ∀ g, .error g ∉ rs := by
            intro g hg
            have hmem := mem_failures.2 hg
            refine sift_ne_nil (hrs g hg) (findSome?_eq_none_iff.1 hstop g hmem) ?_
            exact flatMap_eq_nil_iff.1 hkept g hmem
          exact eq_map_ok_of_not_mem hok

theorem gather_map_ok (xs : List α) : gather (xs.map .ok) = .ok xs := by
  have hnone : (xs.filterMap fun _ => (none : Option Failure)) = [] := by simp
  simp [gather, stop?, kept, failures, gathered, filterMap_map, Function.comp_def,
    Except.toOption, hnone]

theorem eq_fault_of_sift (h : (f.sift isError).2 = some (.fault g)) : f = .fault g := by
  cases f with
  | group m fs =>
    simp only [sift, isError, isGroup, reject, Bool.false_eq_true, if_false, if_true] at h
    split at h <;> cases h
  | report r =>
    unfold sift at h
    split at h <;> cases h
  | fault g' => exact Option.some.inj h
  | exit c => cases h

theorem mem_of_gather_eq_fault (h : gather rs = .error (.fault g)) : .error (.fault g) ∈ rs := by
  unfold gather at h
  split at h
  · next stop hstop =>
      cases h
      obtain ⟨f, hf, he⟩ := exists_of_findSome?_eq_some hstop
      rw [eq_fault_of_sift he] at hf
      exact mem_failures.1 hf
  · split at h
    · next f hf =>
        cases h
        unfold gathered at hf
        split at hf <;> cases hf
    · cases h

/-! ### Ordinary failures -/

/-- A failure with a cause that is no endless recursion. -/
def Ordinary (f : Failure) : Prop := f.Solid ∧ f ≠ .fault .endlessRecursion

theorem ordinary_report (r : Report) : Ordinary (.report r) := ⟨solid_report r, nofun⟩

theorem ordinary_fault {f : Fault} (hf : f ≠ .endlessRecursion) : Ordinary (.fault f) :=
  ⟨solid_fault f, fun h => hf (Failure.fault.inj h)⟩

theorem ordinary_group (message : String) (hne : fs ≠ []) (hfs : ∀ f ∈ fs, f.Ordinary) :
    Ordinary (.group message fs) :=
  ⟨solid_group message hne fun f hf => (hfs f hf).1, nofun⟩

theorem ordinary_of_gather (hrs : ∀ g, .error g ∈ rs → g.Ordinary)
    (h : gather rs = .error f) : f.Ordinary := by
  refine ⟨solid_of_gather (fun g hg => (hrs g hg).1) h, ?_⟩
  rintro rfl
  exact (hrs _ (mem_of_gather_eq_fault h)).2 rfl

end Failure

end Boardwright
