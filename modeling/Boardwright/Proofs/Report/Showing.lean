import Boardwright.Proofs.Build.Tasks

/-!
# What is shown of a failure

A failure is gone through in the order in which it is written down, each group before its members:
`nodes`. A group is shown by its message and a report by its text, up to the first failure that is
neither: `notices_eq`. That one cannot be shown, and a fault is raised in its place. It is not
raised itself, and what comes after it is not shown.
-/

namespace Boardwright

namespace Failure

theorem filter_takeWhile_isShown (fs : List Failure) :
    ((fs.takeWhile isShown).filter fun g => !g.isGroup) =
      (fs.filter fun g => !g.isGroup).takeWhile isReport := by
  induction fs with
  | nil => rfl
  | cons f fs ih =>
    by_cases hgroup : f.isGroup
    · simp [isShown, hgroup, ih]
    · by_cases hreport : f.isReport <;> simp [isShown, hgroup, hreport, ih]

theorem all_isShown (fs : List Failure) :
    fs.all isShown = (fs.filter fun g => !g.isGroup).all isReport := by
  rw [List.all_filter]
  congr 1
  funext f
  rw [isShown, Bool.not_not]

end Failure

namespace Workshop

open Failure

variable {α : Type}

/-- A failure that is a report or a group is put into the log node by node, up to the first leaf
that is no report: the message of each group and the text of each leaf once, in order. If there is
no such leaf a fatal report is raised, and else a fault. -/
theorem handled_shows_nodes {w : Work Workshop α} {s t : Workshop} {f : Failure}
    (hw : w.outcome s = (.error f, t)) (hf : f.isError = true ∨ f.isGroup = true) :
    (handled w).outcome s =
      (.error (if f.leaves.all isReport then .report { kind := .fatal }
          else .fault .missingAttribute),
        { t with session.log := t.session.log ++
            (f.nodes.takeWhile isShown).flatMap (entries t.session.verbose) }) ∧
    (f.nodes.filter fun g => !g.isGroup) = f.leaves ∧
    ((f.nodes.takeWhile isShown).filter fun g => !g.isGroup) = f.leaves.takeWhile isReport := by
  refine ⟨?_, filter_nodes f, by rw [filter_takeWhile_isShown, filter_nodes]⟩
  have hshown : (f.isError || f.isGroup) = true := by simpa using hf
  rw [outcome_handled, hw, afterShowing, if_pos hshown, shows, notices_eq, shownOf, all_isShown,
    filter_nodes]
  split <;> rfl

/-- A group of a report, a report in a group of its own and a fatal report. -/
theorem handled_shows_nodes_nested :
    (handled (throw (.group "g" [general "a", .group "" [general "b"],
        .report { kind := .fatal, message := "c" }]) : Work Workshop Unit)).outcome {} =
      (.error (.report { kind := .fatal }),
        { session.log := [⟨.error, "g"⟩, ⟨.error, "[bold]Error[/]\n--> a"⟩,
            ⟨.error, "[bold]Error[/]\n--> b"⟩, ⟨.error, "[bold]FatalError[/]\n--> c"⟩] }) :=
  (handled_shows_nodes (f := .group "g" [general "a", .group "" [general "b"],
    .report { kind := .fatal, message := "c" }]) rfl (.inr rfl)).1

/-- A fatal report and a fault between two errors. The fatal report is shown, the second error is
not, and neither the fatal report nor the fault is raised. -/
def mixed : Failure :=
  .group "g" [general "a", .report { kind := .fatal, message := "c" }, .fault (.value "v"),
    general "b"]

theorem handled_mixed :
    ((handled (throw mixed : Work Workshop Unit)).outcome {}).1 =
      .error (.fault .missingAttribute) ∧
    ((handled (throw mixed : Work Workshop Unit)).outcome {}).2.session.log =
      [⟨.error, "g"⟩, ⟨.error, "[bold]Error[/]\n--> a"⟩, ⟨.error, "[bold]FatalError[/]\n--> c"⟩] ∧
    (mixed.leaves.filter isError).map (·.render false) =
      [.ok "[bold]Error[/]\n--> a", .ok "[bold]Error[/]\n--> b"] :=
  ⟨rfl, rfl, rfl⟩

end Workshop

end Boardwright
