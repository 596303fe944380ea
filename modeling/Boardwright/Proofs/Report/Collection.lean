import Boardwright.Proofs.Work
import Mathlib.Data.List.Induction

/-!
# What is raised together

Of the failures with the same details only the first is raised: `mem_distinct_iff`. So it does not
matter whether failures are put together level by level or all at once: `gather_map_gather`.

Work on a list of items is done on each item in turn, `inTurn`, as long as all failures are
`Collectable`. What is raised after it is made of the failures themselves and of the members of
groups. All groups that are such members have the same details, and so do reports of different
sorts that say the same: of these only the first is raised, and the others are lost.
-/

open List

namespace Boardwright

namespace Failure

variable {f g l : Failure} {fs gs : List Failure} {p : Failure → Bool}

/-! ### Failures with the same details -/

def hasDetails (fs : List Failure) (d : Option Report.Details) : Bool := fs.any (·.details == d)

theorem hasDetails_eq_true_iff {d : Option Report.Details} :
    hasDetails fs d = true ↔ ∃ f ∈ fs, f.details = d := by
  simp [hasDetails]

@[simp] theorem hasDetails_append (fs gs : List Failure) (d : Option Report.Details) :
    hasDetails (fs ++ gs) d = (hasDetails fs d || hasDetails gs d) := any_append

theorem distinct_concat (fs : List Failure) (f : Failure) :
    distinct (fs ++ [f]) =
      distinct fs ++ if hasDetails (distinct fs) f.details then [] else [f] := by
  rw [distinct, foldl_append, foldl_cons, foldl_nil]
  show (if hasDetails (distinct fs) f.details then distinct fs else distinct fs ++ [f]) = _
  split <;> simp

@[simp] theorem hasDetails_distinct (fs : List Failure) (d : Option Report.Details) :
    hasDetails (distinct fs) d = hasDetails fs d := by
  induction fs using List.reverseRecOn with
  | nil => rfl
  | append_singleton fs f ih =>
    rw [distinct_concat, hasDetails_append, hasDetails_append, ih]
    by_cases hf : hasDetails (distinct fs) f.details
    · rw [if_pos hf]
      by_cases hd : f.details = d
      · rw [hd] at hf
        simp [← ih, hf]
      · simp [hasDetails, hd]
    · rw [if_neg hf]

/-- What is distinct in two lists, one after the other: of the second one only what the first one
does not have. -/
theorem distinct_append (fs gs : List Failure) :
    distinct (fs ++ gs) =
      distinct fs ++ (distinct gs).filter fun g => !hasDetails fs g.details := by
  induction gs using List.reverseRecOn with
  | nil => simp [distinct]
  | append_singleton gs g ih =>
    rw [← append_assoc, distinct_concat, distinct_concat, hasDetails_distinct,
      hasDetails_distinct, ih, filter_append, append_assoc]
    congr 2
    by_cases hfs : hasDetails fs g.details <;> by_cases hgs : hasDetails gs g.details <;>
      simp [hfs, hgs]

@[simp] theorem distinct_distinct (fs : List Failure) : distinct (distinct fs) = distinct fs := by
  induction fs using List.reverseRecOn with
  | nil => rfl
  | append_singleton fs f ih =>
    rw [distinct_concat]
    split
    · rw [append_nil, ih]
    · next hf => rw [distinct_concat, hasDetails_distinct, if_neg hf, ih]

/-- Lists in which repetitions have been left out have the same in common as the lists
themselves. -/
theorem distinct_flatten_map (fss : List (List Failure)) :
    distinct (fss.map distinct).flatten = distinct fss.flatten := by
  induction fss with
  | nil => rfl
  | cons fs fss ih =>
    rw [map_cons, flatten_cons, flatten_cons, distinct_append, distinct_append,
      distinct_distinct, ih]
    simp only [hasDetails_distinct]

theorem distinct_sublist (fs : List Failure) : (distinct fs).Sublist fs := by
  induction fs using List.reverseRecOn with
  | nil => exact .refl _
  | append_singleton fs f ih =>
    rw [distinct_concat]
    split
    · exact ih.append (nil_sublist _)
    · exact ih.append (.refl _)

theorem distinct_eq_nil_iff : distinct fs = [] ↔ fs = [] := by
  constructor
  · intro h
    cases fs with
    | nil => rfl
    | cons f fs =>
      have hf : hasDetails (distinct (f :: fs)) f.details = true := by
        simp only [hasDetails_distinct, hasDetails_eq_true_iff]
        exact ⟨f, mem_cons_self, rfl⟩
      rw [h] at hf
      cases hf
  · rintro rfl
    rfl

theorem pairwise_distinct (fs : List Failure) :
    (distinct fs).Pairwise fun f g => f.details ≠ g.details := by
  induction fs using List.reverseRecOn with
  | nil => exact .nil
  | append_singleton fs f ih =>
    rw [distinct_concat]
    split
    · rwa [append_nil]
    · next hf =>
        rw [pairwise_append]
        refine ⟨ih, pairwise_singleton _ _, fun g hg f' hf' he => hf ?_⟩
        rw [mem_singleton.1 hf'] at he
        exact hasDetails_eq_true_iff.2 ⟨g, hg, he⟩

theorem distinct_eq_self (h : fs.Pairwise fun f g => f.details ≠ g.details) : distinct fs = fs := by
  induction fs using List.reverseRecOn with
  | nil => rfl
  | append_singleton fs f ih =>
    rw [pairwise_append] at h
    rw [distinct_concat, ih h.1, if_neg]
    intro hf
    obtain ⟨g, hg, he⟩ := hasDetails_eq_true_iff.1 hf
    exact h.2.2 g hg f (mem_singleton_self f) he

theorem find?_distinct (fs : List Failure) (d : Option Report.Details) :
    (distinct fs).find? (·.details == d) = fs.find? (·.details == d) := by
  induction fs using List.reverseRecOn with
  | nil => rfl
  | append_singleton fs f ih =>
    rw [distinct_concat, find?_append, find?_append, ih]
    split
    · next hf =>
        rw [hasDetails_distinct] at hf
        by_cases hd : f.details = d
        · obtain ⟨g, hg⟩ : ∃ g, fs.find? (·.details == d) = some g := by
            rw [← Option.isSome_iff_exists, find?_isSome]
            simpa [hasDetails, hd] using hf
          simp [hg]
        · simp [hd]
    · rfl

theorem mem_distinct_iff :
    f ∈ distinct fs ↔ fs.find? (·.details == f.details) = some f := by
  constructor
  · intro hf
    obtain ⟨before, after, he⟩ := append_of_mem hf
    have hpairwise := pairwise_distinct fs
    rw [he, pairwise_append] at hpairwise
    rw [← find?_distinct, he, find?_append, find?_cons_of_pos (by simp),
      find?_eq_none.2, Option.none_or]
    intro g hg
    simpa using hpairwise.2.2 g hg f mem_cons_self
  · intro hf
    rw [← find?_distinct] at hf
    exact mem_of_find?_eq_some hf

/-! ### Failures that are kept whole -/

/-- A failure of which all is kept for later: a report that work may go on after, or a group of
such failures. -/
inductive Collectable : Failure → Prop
  | report {r : Report} (hr : isError (.report r) = true) : Collectable (.report r)
  | group {message : String} {fs : List Failure} (hne : fs ≠ [])
    (hfs : ∀ f ∈ fs, Collectable f) : Collectable (.group message fs)

def opened : Failure → List Failure
  | .group _ fs => fs
  | f => [f]

theorem selectAll_eq_self (h : ∀ f ∈ fs, f.select p = some f) :
    selectAll p fs = fs := by
  induction fs with
  | nil => rfl
  | cons f fs ih =>
    rw [forall_mem_cons] at h
    rw [selectAll, h.1, ih h.2]
    rfl

theorem rejectAll_eq_nil (h : ∀ f ∈ fs, f.reject p = none) :
    rejectAll p fs = [] := by
  induction fs with
  | nil => rfl
  | cons f fs ih =>
    rw [forall_mem_cons] at h
    rw [rejectAll, h.1, ih h.2]
    rfl

theorem Collectable.select_eq (hf : f.Collectable) : f.select isError = some f := by
  induction hf with
  | report hr => simp [select, hr]
  | @group message fs hne hfs ih =>
    obtain ⟨g, gs, rfl⟩ := exists_cons_of_ne_nil hne
    rw [select, selectAll_eq_self ih]
    rfl

theorem Collectable.reject_eq (hf : f.Collectable) : f.reject isError = none := by
  induction hf with
  | report hr => simp [reject, hr]
  | group hne hfs ih =>
    rw [reject, rejectAll_eq_nil ih]
    rfl

theorem Collectable.sift_eq (hf : f.Collectable) : f.sift isError = (f.opened, none) := by
  have hselect := hf.select_eq
  have hreject := hf.reject_eq
  cases hf with
  | report hr => simp [sift, hr, opened]
  | group hne hfs =>
    rw [sift, if_neg (by simp [isError]), hselect, hreject]
    rfl

theorem Collectable.opened_ne_nil (hf : f.Collectable) : f.opened ≠ [] := by
  cases hf with
  | report hr => exact cons_ne_nil _ _
  | group hne hfs => exact hne

/-! ### Level by level -/

section Levels

variable {α : Type} {rs rs' : List (Except Failure α)} {r : Except Failure α}

@[simp] theorem stop?_append : stop? (rs ++ rs') = (stop? rs).or (stop? rs') := by
  rw [stop?, failures, filterMap_append, findSome?_append]
  rfl

@[simp] theorem kept_append : kept (rs ++ rs') = kept rs ++ kept rs' := by
  rw [kept, failures, filterMap_append, flatMap_append]
  rfl

theorem stop?_error : stop? [(.error f : Except Failure α)] = (f.sift isError).2 := by
  simp [stop?, failures]

theorem kept_error : kept [(.error f : Except Failure α)] = (f.sift isError).1 := by
  simp [kept, failures]

theorem stop?_cons : stop? (r :: rs) = (stop? [r]).or (stop? rs) := @stop?_append _ [r] rs

theorem kept_cons : kept (r :: rs) = kept [r] ++ kept rs := @kept_append _ [r] rs

theorem gather_of_stop? (h : stop? rs = some f) : gather rs = .error f := by
  simp only [gather, h]

theorem gather_of_kept (h : stop? rs = none) (hkept : kept rs ≠ []) :
    gather rs = .error (.group "" (distinct (kept rs))) := by
  obtain ⟨g, gs, hg⟩ := exists_cons_of_ne_nil hkept
  simp only [gather, h, hg, gathered]

theorem gather_of_nothing (h : stop? rs = none) (hkept : kept rs = []) :
    gather rs = .ok (rs.filterMap Except.toOption) := by
  simp only [gather, h, hkept, gathered]

theorem sift_of_not_isGroup (hf : f.isGroup = false) :
    f.sift isError = if f.isError then ([f], none) else ([], some f) := by
  rw [sift]
  split
  · rfl
  · simp [hf]

theorem Collectable.of_isError (hf : f.isError = true) : f.Collectable := by
  cases f with
  | report r => exact .report hf
  | fault r | exit c | group m fs => cases hf

def Single (rs : List (Except Failure α)) : Prop := ∀ f, .error f ∈ rs → f.isGroup = false

theorem Single.collectable (hrs : Single rs) (hkept : kept rs ≠ []) :
    Collectable (.group "" (distinct (kept rs))) := by
  refine .group (mt distinct_eq_nil_iff.1 hkept) fun f hf => ?_
  obtain ⟨g, hg, hfg⟩ := mem_flatMap.1 ((distinct_sublist _).subset hf)
  rw [sift_of_not_isGroup (hrs g (mem_failures.1 hg))] at hfg
  split at hfg
  · next herror =>
      rw [mem_singleton.1 hfg]
      exact .of_isError herror
  · exact absurd hfg not_mem_nil

theorem stop?_flatten (rss : List (List (Except Failure α))) :
    stop? rss.flatten = rss.findSome? stop? := by
  induction rss with
  | nil => rfl
  | cons rs rss ih =>
    rw [flatten_cons, stop?_append, ih, findSome?_cons]
    cases stop? rs <;> rfl

theorem kept_flatten (rss : List (List (Except Failure α))) :
    kept rss.flatten = (rss.map kept).flatten := by
  induction rss with
  | nil => rfl
  | cons rs rss ih => rw [flatten_cons, kept_append, ih, map_cons, flatten_cons]

theorem Single.stop?_gather (hrs : Single rs) : stop? [gather rs] = stop? rs := by
  cases hstop : stop? rs with
  | some f =>
    obtain ⟨g, hg, he⟩ := exists_of_findSome?_eq_some hstop
    have hsift := sift_of_not_isGroup (hrs g (mem_failures.1 hg))
    rw [gather_of_stop? hstop]
    rw [hsift] at he
    split at he
    · cases he
    · next herror =>
        cases he
        rw [stop?_error, hsift, if_neg herror]
  | none =>
    by_cases hkept : kept rs = []
    · rw [gather_of_nothing hstop hkept]
      rfl
    · rw [gather_of_kept hstop hkept, stop?_error, (hrs.collectable hkept).sift_eq]

theorem Single.kept_gather (hrs : Single rs) (hstop : stop? rs = none) :
    kept [gather rs] = distinct (kept rs) := by
  by_cases hkept : kept rs = []
  · rw [gather_of_nothing hstop hkept, hkept]
    rfl
  · rw [gather_of_kept hstop hkept, kept_error, (hrs.collectable hkept).sift_eq, opened]

/-- Putting failures together level by level is the same as putting them together at once. -/
theorem gather_map_gather {rss : List (List (Except Failure α))} (hrss : ∀ rs ∈ rss, Single rs) :
    (gather (rss.map gather)).map List.flatten = gather rss.flatten := by
  have hstops : stop? (rss.map gather) = stop? rss.flatten := by
    rw [stop?_flatten]
    induction rss with
    | nil => rfl
    | cons rs rss ih =>
      rw [forall_mem_cons] at hrss
      rw [map_cons, stop?_cons, hrss.1.stop?_gather, ih hrss.2, findSome?_cons]
      cases stop? rs <;> rfl
  cases hstop : stop? rss.flatten with
  | some f =>
    rw [gather_of_stop? hstop, gather_of_stop? (hstops.trans hstop)]
    rfl
  | none =>
    have hnone := hstop
    rw [stop?_flatten, findSome?_eq_none_iff] at hnone
    by_cases hkept : kept rss.flatten = []
    · have hok : rss.map gather = (rss.map fun rs => rs.filterMap Except.toOption).map .ok := by
        rw [map_map]
        refine map_congr_left fun rs hrs => gather_of_nothing (hnone rs hrs) ?_
        rw [kept_flatten, flatten_eq_nil_iff] at hkept
        exact hkept _ (mem_map_of_mem hrs)
      rw [hok, gather_map_ok, gather_of_nothing hstop hkept, filterMap_flatten]
      rfl
    · have hlevels : kept (rss.map gather) = ((rss.map kept).map distinct).flatten := by
        clear hkept hstop hstops
        induction rss with
        | nil => rfl
        | cons rs rss ih =>
          rw [forall_mem_cons] at hrss hnone
          rw [map_cons, kept_cons, hrss.1.kept_gather hnone.1, ih hrss.2 hnone.2]
          rfl
      have hdistinct : distinct (kept (rss.map gather)) = distinct (kept rss.flatten) := by
        rw [hlevels, distinct_flatten_map, kept_flatten]
      have hne : kept (rss.map gather) ≠ [] := by
        intro hnil
        rw [hnil] at hdistinct
        exact hkept (distinct_eq_nil_iff.1 hdistinct.symm)
      rw [gather_of_kept hstop hkept, gather_of_kept (hstops.trans hstop) hne, hdistinct]
      rfl

end Levels

/-! ### Leaves -/

theorem mem_leavesAll : l ∈ leavesAll fs ↔ ∃ f ∈ fs, l ∈ f.leaves := by
  induction fs with
  | nil => simp [leavesAll]
  | cons f fs ih => simp [leavesAll, ih]

theorem mem_leaves_iff_opened : l ∈ f.leaves ↔ ∃ g ∈ f.opened, l ∈ g.leaves := by
  cases f with
  | group message fs => rw [leaves, mem_leavesAll, opened]
  | report r | fault r | exit c => simp [leaves, opened]

end Failure

/-! ### Work on each item in turn -/

namespace Work

open Failure

variable {σ α β : Type} {work : α → Work σ β} {xs : List α} {s : σ}

/-- The outcomes of work on each item in turn, whether it fails or not, and the state that is
left. -/
def inTurn (work : α → Work σ β) : List α → σ → List (Except Failure β) × σ
  | [], s => ([], s)
  | x :: xs, s =>
    let first := (work x).outcome s
    let rest := inTurn work xs first.2
    (first.1 :: rest.1, rest.2)

/-- Work on each item comes to its end if all failures can be kept. -/
theorem outcome_collecting_inTurn
    (h : ∀ f, .error f ∈ (inTurn work xs s).1 → f.Collectable) (before : List Failure) :
    (collecting isError work xs before).outcome s =
      (.ok ((inTurn work xs s).1.filterMap Except.toOption,
        before ++ (failures (inTurn work xs s).1).flatMap opened), (inTurn work xs s).2) := by
  induction xs generalizing s before with
  | nil => simp [inTurn, collecting, failures]
  | cons x xs ih =>
    have hrest := fun f hf => h f (mem_cons_of_mem _ hf)
    rw [inTurn] at h ⊢
    dsimp only at h hrest ⊢
    rcases hout : (work x).outcome s with ⟨e | y, t⟩ <;> rw [hout] at h hrest <;>
      dsimp only at h hrest ⊢
    · rw [outcome_collecting_kept hout (h e mem_cons_self).sift_eq, ih hrest,
        filterMap_cons_none rfl]
      simp [failures]
    · rw [outcome_collecting_ok hout, outcome_map, ih hrest]
      simp [failures, Except.toOption, Except.map]

/-- If all failures can be kept, work is done on every item, and a group is raised exactly if it
fails on one of them. The members of this group are taken from the failures themselves and from the
members of those that are groups: of failures with the same details the first one. Its leaves are
leaves of the failures, and all of them if failures with the same details are the same. -/
theorem eachOf_raises_first (message : String) (work : α → Work σ β) (xs : List α) (s : σ)
    (h : ∀ f, .error f ∈ (inTurn work xs s).1 → f.Collectable) :
    let met := failures (inTurn work xs s).1
    let direct := met.flatMap opened
    (met = [] → (eachOf isError message work xs).outcome s =
      (.ok ((inTurn work xs s).1.filterMap Except.toOption), (inTurn work xs s).2)) ∧
    (met ≠ [] → ∃ members,
      (eachOf isError message work xs).outcome s =
        (.error (.group message members), (inTurn work xs s).2) ∧
      members.Sublist direct ∧ members.Pairwise (fun f g => f.details ≠ g.details) ∧
      (∀ f, f ∈ members ↔ direct.find? (·.details == f.details) = some f) ∧
      (∀ l ∈ leaves (.group message members), ∃ f ∈ met, l ∈ f.leaves) ∧
      ((∀ f ∈ direct, ∀ g ∈ direct, f.details = g.details → f = g) →
        ∀ f ∈ met, ∀ l ∈ f.leaves, l ∈ leaves (.group message members))) := by
  intro met direct
  have hcollecting := outcome_collecting_inTurn h []
  refine ⟨fun hmet => ?_, fun hmet => ⟨distinct direct, ?_, distinct_sublist _,
    pairwise_distinct _, fun f => mem_distinct_iff, fun l hl => ?_, fun hsame f hf l hl => ?_⟩⟩
  · rw [eachOf, outcome_bind_ok _ hcollecting]
    simp [show failures (inTurn work xs s).1 = [] from hmet, gathered]
  · obtain ⟨f, hf⟩ := List.exists_mem_of_ne_nil _ hmet
    have hdirect : direct ≠ [] := by
      rw [Ne, List.flatMap_eq_nil_iff]
      exact fun hnil => (h f (mem_failures.1 hf)).opened_ne_nil (hnil f hf)
    obtain ⟨g, gs, hg⟩ := List.exists_cons_of_ne_nil hdirect
    rw [eachOf, outcome_bind_ok _ hcollecting, List.nil_append, hg]
    simp [show (failures (inTurn work xs s).1).flatMap opened = g :: gs from hg, gathered]
  · rw [leaves, mem_leavesAll] at hl
    obtain ⟨g, hg, hlg⟩ := hl
    obtain ⟨f, hf, hgf⟩ := List.mem_flatMap.1 ((distinct_sublist _).subset hg)
    exact ⟨f, hf, mem_leaves_iff_opened.2 ⟨g, hgf, hlg⟩⟩
  · obtain ⟨g, hg, hlg⟩ := mem_leaves_iff_opened.1 hl
    have hdirect : g ∈ direct := List.mem_flatMap.2 ⟨f, hf, hg⟩
    rw [leaves, mem_leavesAll]
    refine ⟨g, mem_distinct_iff.2 ?_, hlg⟩
    obtain ⟨k, hk⟩ : ∃ k, direct.find? (·.details == g.details) = some k := by
      rw [← Option.isSome_iff_exists, List.find?_isSome]
      exact ⟨g, hdirect, by simp⟩
    have hdetails : k.details = g.details := by simpa using List.find?_some hk
    rw [hk, hsame k (List.mem_of_find?_eq_some hk) g hdirect hdetails]

/-- An error that is met twice, the second time in a group. -/
def repeated : List (Except Failure Unit) :=
  [.error (.report { kind := .unknownName, message := "x" }), .ok (),
   .error (.group "" [general "a", .report { kind := .unknownName, message := "x" }])]

theorem eachOf_raises_first_repeated :
    ∃ members, (eachOf isError "" ofExcept repeated).outcome () = (.error (.group "" members), ()) ∧
      members.Pairwise (fun f g => f.details ≠ g.details) ∧
      ∀ l ∈ leaves (.group "" [general "a", .report { kind := .unknownName, message := "x" }]),
        l ∈ leaves (.group "" members) := by
  have hcollectable : ∀ f, .error f ∈ (inTurn ofExcept repeated ()).1 → f.Collectable := by
    intro f hf
    replace hf : .error f ∈ repeated := hf
    simp only [repeated, List.mem_cons, Except.error.injEq, reduceCtorEq, List.not_mem_nil,
      or_false, false_or] at hf
    rcases hf with rfl | rfl
    · exact .report rfl
    · exact .group (List.cons_ne_nil _ _)
        (List.forall_mem_cons.2 ⟨.report rfl, List.forall_mem_singleton.2 (.report rfl)⟩)
  obtain ⟨members, houtcome, -, hpairwise, -, -, hleaves⟩ :=
    (eachOf_raises_first "" ofExcept repeated () hcollectable).2 (List.cons_ne_nil _ _)
  refine ⟨members, houtcome, hpairwise, hleaves ?_ _ (List.mem_cons_of_mem _ List.mem_cons_self)⟩
  intro f hf g hg
  replace hf : f ∈ [.report { kind := .unknownName, message := "x" }, general "a",
    .report { kind := .unknownName, message := "x" }] := hf
  replace hg : g ∈ [.report { kind := .unknownName, message := "x" }, general "a",
    .report { kind := .unknownName, message := "x" }] := hg
  simp only [List.mem_cons, List.not_mem_nil, or_false] at hf hg
  rcases hf with rfl | rfl | rfl <;> rcases hg with rfl | rfl | rfl <;> simp [details, general]

/-- Two reports that say the same but are of different sorts, and two groups within groups. -/
def lookalikes : List (Except Failure Unit) :=
  [.error (.report { kind := .unknownName, message := "x" }),
   .error (.report { kind := .wrongType, message := "x" }),
   .error (.group "" [.group "" [general "a"]]), .error (.group "" [.group "" [general "b"]])]

/-- Errors that have the details of others are lost, and so is a second group within a group. -/
theorem eachOf_lookalikes :
    (∀ f, .error f ∈ (inTurn ofExcept lookalikes ()).1 → f.Collectable) ∧
      ∃ raised, (eachOf isError "" ofExcept lookalikes).outcome () = (.error raised, ()) ∧
        (∃ f ∈ failures (inTurn ofExcept lookalikes ()).1,
          .report { kind := .wrongType, message := "x" } ∈ f.leaves) ∧
        .report { kind := .wrongType, message := "x" } ∉ raised.leaves ∧
        (∃ f ∈ failures (inTurn ofExcept lookalikes ()).1, general "b" ∈ f.leaves) ∧
        general "b" ∉ raised.leaves := by
  constructor
  · intro f hf
    replace hf : .error f ∈ lookalikes := hf
    simp only [lookalikes, List.mem_cons, Except.error.injEq, List.not_mem_nil, or_false] at hf
    have hgroup : ∀ m s, Collectable (.group m [general s]) := fun m s =>
      .group (List.cons_ne_nil _ _) (List.forall_mem_singleton.2 (.report rfl))
    rcases hf with rfl | rfl | rfl | rfl
    · exact .report rfl
    · exact .report rfl
    · exact .group (List.cons_ne_nil _ _) (List.forall_mem_singleton.2 (hgroup "" "a"))
    · exact .group (List.cons_ne_nil _ _) (List.forall_mem_singleton.2 (hgroup "" "b"))
  · refine ⟨.group "" [.report { kind := .unknownName, message := "x" },
      .group "" [general "a"]], rfl, ?_⟩
    simp [inTurn, lookalikes, failures, leaves, leavesAll, general]

end Work

end Boardwright
