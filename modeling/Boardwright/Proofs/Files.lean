import Boardwright.Files
import Boardwright.Proofs.Table
import Mathlib.Data.List.Infix
import Mathlib.Data.Set.Finite.Lattice
import Mathlib.Data.Set.Finite.List

/-!
# Routes that lead somewhere

There are finitely many files, but many routes lead to one file: a double dot takes back the
part before it. A route that has been resolved has no double dots apart from those of the
directory one is in, and then it is determined by the file or the directory it leads to. So only
finitely many of the routes that are resolved lead anywhere: `finite_resolved`.
-/

open List

namespace Boardwright

namespace Route

/-- The parts of a route that has been resolved: some that lead on from a directory above
`cwd`, without double dots. -/
def IsResolved (cwd parts : List String) : Prop :=
  ∃ c ns, c <+: cwd ∧ ".." ∉ ns ∧ parts = c ++ ns

theorem IsResolved.dropLast {cwd parts : List String} (h : IsResolved cwd parts) :
    IsResolved cwd parts.dropLast := by
  obtain ⟨c, ns, hc, hns, rfl⟩ := h
  by_cases hnil : ns = []
  · exact ⟨c.dropLast, [], ( dropLast_prefix c).trans hc, by simp, by simp [hnil]⟩
  · refine ⟨c, ns.dropLast, hc, fun hmem => hns (dropLast_subset _ hmem), ?_⟩
    rw [dropLast_append_of_ne_nil hnil]

theorem isResolved_follow {cwd at_ : List String} (h : IsResolved cwd at_) (ps : List String) :
    IsResolved cwd (follow at_ ps) := by
  induction ps generalizing at_ with
  | nil => exact h
  | cons p ps ih =>
    rw [follow]
    split
    · exact ih h.dropLast
    · next hp =>
        obtain ⟨c, ns, hc, hns, rfl⟩ := h
        have hp' : ".." ≠ p := fun h => hp (by simp [← h])
        exact ih ⟨c, ns ++ [p], hc, by simp [hns, hp'], by simp⟩

theorem isResolved_resolve (cwd : List String) (r : Route) : IsResolved cwd (r.resolve cwd) := by
  unfold resolve
  split
  · exact isResolved_follow ⟨[], [], by simp⟩ _
  · exact isResolved_follow ⟨cwd, [], by simp⟩ _

end Route

namespace Files

variable {fs : Files} {at_ parts ps qs : List String}

theorem walk_append (fs : Files) (at_ ps qs : List String) :
    fs.walk at_ (ps ++ qs) = (fs.walk at_ ps).bind fun bt => fs.walk bt qs := by
  induction ps generalizing at_ with
  | nil => rfl
  | cons p ps ih =>
    simp only [cons_append, walk]
    split
    · rfl
    · split <;> exact ih _

theorem eq_of_walk (hps : ".." ∉ ps) (h : fs.walk at_ ps = some qs) : qs = at_ ++ ps := by
  induction ps generalizing at_ with
  | nil => simpa [walk, eq_comm] using h
  | cons p ps ih =>
    simp only [mem_cons, not_or] at hps
    have hp : ¬(p == "..") := fun h => hps.1 (eq_of_beq h).symm
    rw [walk, if_neg hp] at h
    split at h
    · cases h
    · simpa using ih hps.2 h

/-- Only finitely many lists of parts lead anywhere. -/
theorem finite_node (fs : Files) : {parts | (fs.node? parts).isSome}.Finite := by
  apply (([] :: (fs.dirs ++ fs.texts.keys)).flatMap List.inits).finite_toSet.subset
  intro parts hparts
  simp only [Set.mem_ofPred_eq, mem_flatMap, mem_inits]
  simp only [Set.mem_ofPred_eq, node?] at hparts
  split at hparts
  · next text htext =>
      exact ⟨parts, by simp [Table.mem_keys_of_get? htext], prefix_rfl⟩
  · split at hparts
    · next hdir =>
        simp only [isDirectory, Bool.or_eq_true, List.isEmpty_iff, any_eq_true,
          Bool.and_eq_true, isPrefixOf_iff_prefix] at hdir
        rcases hdir with (rfl | ⟨k, hk, hpre⟩) | ⟨e, he, hpre, -⟩
        · exact ⟨[], by simp⟩
        · exact ⟨k, by simp [hk], hpre⟩
        · exact ⟨e.1, by simp [Table.keys, mem_map_of_mem he], hpre⟩
    · cases hparts

theorem finite_resolved (fs : Files) : {r | (∃ x, r = fs.resolve x) ∧ fs.exists? r}.Finite := by
  -- the parts after a directory above the one that one is in are those of a node
  have hafter : ∀ c, {ns | ∃ bt, fs.walk [] c = some bt ∧ (fs.node? (bt ++ ns)).isSome}.Finite := by
    intro c
    cases fs.walk [] c with
    | none => simp
    | some bt =>
      simpa using fs.finite_node.preimage (append_right_injective bt).injOn
  have hcover : (⋃ c ∈ {c | c ∈ fs.cwd.inits}, (fun ns => Route.ofParts (c ++ ns)) ''
      {ns | ∃ bt, fs.walk [] c = some bt ∧ (fs.node? (bt ++ ns)).isSome}).Finite :=
    fs.cwd.inits.finite_toSet.biUnion fun c _ => (hafter c).image _
  apply hcover.subset
  rintro r ⟨⟨x, rfl⟩, hr⟩
  obtain ⟨c, ns, hc, hns, hparts⟩ := Route.isResolved_resolve fs.cwd x
  simp only [resolve, hparts, exists?, find?, Route.ofParts, walk_append, if_true] at hr ⊢
  simp only [Set.mem_iUnion, Set.mem_ofPred_eq, mem_inits, exists_prop]
  refine ⟨c, hc, ns, ?_, rfl⟩
  cases hwalk : fs.walk [] c with
  | none => simp [hwalk] at hr
  | some bt =>
    refine ⟨bt, rfl, ?_⟩
    cases hend : fs.walk bt ns with
    | none => simp [hwalk, hend] at hr
    | some parts => simpa [hwalk, hend, eq_of_walk hns hend] using hr

end Files

end Boardwright
