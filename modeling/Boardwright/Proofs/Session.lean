import Boardwright.Proofs.Work
import Boardwright.Session

/-!
# Sessions and their libraries

Work on the design of a session is work on its library, and what is shown to the author is not
kept in the library. So work that leaves a library as it is leaves that of a session as it is,
also where a failure is shown as a warning and the work goes on.
-/

namespace Boardwright.Session

open Work

variable {α : Type} {P : α → Prop} {lib : Library} {s s' : Session} {x instead : α}
  {kinds : List Report.Kind} {w : Work Session α}

theorem outcome_design (w : Work Library α) (s : Session) :
    (design w).outcome s =
      ((w.outcome s.library).1, { s with library := (w.outcome s.library).2 }) := rfl

theorem outcome_library_of_design {w : Work Library α}
    (h : (design w).outcome s = (.ok x, s')) : w.outcome s.library = (.ok x, s'.library) := by
  obtain ⟨hok, rfl⟩ := Prod.mk.inj h
  exact Prod.ext hok rfl

theorem keeps_design {w : Work Library α} (hw : Keeps (· = lib) P w) :
    Keeps (·.library = lib) P (design w) := by
  intro s hs
  rw [outcome_design]
  exact hw s.library hs

/-- Work goes on with another value only after a report of one of the sorts. -/
theorem keeps_warned_of_report
    (hw : Keeps (·.library = lib) P w)
    (hinstead : ∀ s r s', s.library = lib → w.outcome s = (.error (.report r), s') →
      r.kind ∈ kinds → P instead) :
    Keeps (·.library = lib) P (warned kinds instead w) := by
  intro s hs
  have hkept := hw s hs
  unfold warned
  rw [outcome_downgraded]
  rcases hout : w.outcome s with ⟨f | x, t⟩ <;> rw [hout] at hkept
  · cases f with
    | report r =>
      dsimp only
      split
      · next hkind =>
          have hmem : r.kind ∈ kinds := by simpa using hkind
          cases (Failure.report r).render t.verbose with
          | ok text => exact ⟨hkept.1, fun x hx => Except.ok.inj hx ▸ hinstead s r t hs hout hmem⟩
          | error stop => exact ⟨hkept.1, nofun⟩
      · exact ⟨hkept.1, nofun⟩
    | _ => exact ⟨hkept.1, nofun⟩
  · exact hkept

theorem keeps_warned (hw : Keeps (·.library = lib) P w) (hinstead : P instead) :
    Keeps (·.library = lib) P (warned kinds instead w) :=
  keeps_warned_of_report hw fun _ _ _ _ _ _ => hinstead

end Boardwright.Session
