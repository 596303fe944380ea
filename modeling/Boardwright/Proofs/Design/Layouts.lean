import Boardwright.Proofs.Design.Relaid
import Boardwright.Proofs.Text.Pieces
import Mathlib.Algebra.Group.End

/-!
# Layout

A line may hold one simple statement or several, and those of a block may stand behind its header or
below it. None of this counts: `outcomes_relaid`. An equation goes on to the end of its line, so
what is written behind it on the line is not a statement of its own: `layer_equation_swallows`.
-/

namespace Boardwright

open Syntax List Function

/-! ### Routes -/

namespace Route

end Route

/-! ### Texts that are laid out anew -/

namespace Syntax

@[simp]
theorem Token.carry_id (t : Token) : t.carry id = t := rfl

@[simp]
theorem Path.carry_id (p : Path) : p.carry id = p := by
  simp [carry]

theorem PinDef.carry_id (p : PinDef) : p.carry id = p := by
  rcases p with ⟨word, _ | _⟩ <;> rfl

theorem Simple.carry_id (s : Simple) : s.carry id = s := by
  have hunit (o : Option Token) : o.map (Token.carry id) = o := by cases o <;> rfl
  have hside (c : Connectable) : c.carry id = c := by
    cases c <;> simp [Connectable.carry, SignalDef.carry, PinDef.carry_id]
  have hvalue (v : Assignable) : v.carry id = v := by
    rcases v with _ | _ | _ | _ | _ <;>
      simp [Assignable.carry, Physical.carry, Measure.carry, Tolerance.carry, hunit]
  cases s <;> simp [carry, SignalDef.carry, PinDef.carry_id, hside, hvalue]

theorem Header.carry_id (h : Header) : h.carry id = h := by
  obtain ⟨word, name, _ | w, colon⟩ := h <;> simp [carry]

end Syntax

theorem CarriedText.refl (text : String) : CarriedText id text text := by
  cases h : SourceFile.parse text with
  | error t => exact .inl ⟨t, h, h, rfl⟩
  | ok f => exact .inr ⟨f, f, h, h, .of_stmts Simple.carry_id Header.carry_id f.stmts, rfl⟩

/-- Texts whose pieces are found to be carried. -/
theorem CarriedText.of_within {n : Nat} {g : Pos → Pos} {text text' : String}
    (h : ((SourceFile.parse text).toOption.bind fun f =>
      (SourceFile.parse text').toOption.map fun f' =>
        pairedWithin (fun s s' => s.carry g = s') (fun h h' => h.carry g = h') n (pieces f.stmts)
          (pieces f'.stmts) && g f.start.pos = f'.start.pos) = some true) :
    CarriedText g text text' := by
  obtain ⟨f, hf, h⟩ := Option.bind_eq_some_iff.1 h
  obtain ⟨f', hf', h⟩ := Option.map_eq_some_iff.1 h
  rw [Bool.and_eq_true, decide_eq_true_eq] at h
  refine .inr ⟨f, f', eq_ok_of_toOption hf, eq_ok_of_toOption hf', ?_, h.2⟩
  exact (paired_of_within h.1).imp (fun _ _ => of_decide_eq_true) fun _ _ => of_decide_eq_true

namespace Library

end Library

end Boardwright
