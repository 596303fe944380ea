import Boardwright.Report.Collection

/-!
# Patience

Who is asked the same question again and again may not know how to leave. Every five
turns they are asked whether they want to; if so, the program ends. When it has ended
that way, or the question could not be put, there are no more turns.
-/

namespace Boardwright

/-- How many turns there have been, after how many the next question is put, and
whether there are no more. -/
structure Patience where
  turns : Nat := 0
  threshold : Nat := 5
  spent : Bool := false
  deriving Repr, DecidableEq

namespace Patience

/-- One more turn, if there is one. `ask` puts the question and `farewell` is what
comes before the end. -/
def turn {σ : Type} (ask : Work σ Bool) (farewell : Work σ Unit) : Work (Patience × σ) Bool := do
  let (p, _) ← get
  if p.spent then return false
  else if p.turns < p.threshold then
    modify fun (q, s) => ({ q with turns := q.turns + 1 }, s)
    return true
  else
    modify fun (q, s) => ({ q with spent := true }, s)
    let outside : Work σ Bool → Work (Patience × σ) Bool := Work.within (·.2) fun s (q, _) => (q, s)
    if ← outside ask then
      let _ ← outside do
        farewell
        return true
      throw (.exit 0)
    else
      modify fun (_, s) => (⟨p.turns + 1, p.threshold + 5, false⟩, s)
      return true

end Patience

end Boardwright
