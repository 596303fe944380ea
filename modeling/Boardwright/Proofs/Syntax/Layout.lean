import Boardwright.Proofs.Syntax.Acceptance

/-!
# What a layout does with a lexeme

A lexeme that is a token is passed on, and one that is passed over leaves nothing. The end of a
line makes a token of its own, and after it the layout opens one indentation or closes those that
are wider than the next line: `endLine_eq`. All that is said about the tokens of a text is said
from `step_cases`, for one lexeme, and `tokensFrom_append`, for a text that is read up to a place.
-/

namespace Boardwright.Syntax

namespace Layout

theorem close_eq (pos : Pos) (n : Nat) (ws : List Nat) :
    close pos n ws =
      (.replicate (ws.takeWhile (n < ·)).length ⟨.dedent, "", pos⟩, ws.dropWhile (n < ·)) := by
  induction ws with
  | nil => rfl
  | cons w ws ih => by_cases h : n < w <;> simp [close, ih, h, List.replicate_succ]

/-! ### The end of a line -/

/-- The spaces that the next line starts with. -/
def spacesOf (text : List Char) : List Char := text.filter fun c => !Lexeme.isBreak c

/-- The indentations that are open in a line of a width. -/
def indentsAt (ws : List Nat) (n : Nat) : List Nat :=
  if ws.headD 0 < n then n :: ws else ws.dropWhile (n < ·)

/-- The tokens that come before the first one of a line, at a place. -/
def marksAt (ws : List Nat) (spaces : List Char) (pos : Pos) : List Token :=
  if ws.headD 0 < width spaces then [⟨.indent, String.ofList spaces, pos⟩]
  else .replicate (ws.takeWhile (width spaces < ·)).length ⟨.dedent, "", pos⟩

theorem takeWhile_headD (ws : List Nat) : ws.takeWhile (ws.headD 0 < ·) = [] := by
  cases ws <;> simp

theorem dropWhile_headD (ws : List Nat) : ws.dropWhile (ws.headD 0 < ·) = ws := by
  cases ws <;> simp

theorem endLine_of_passes {l : Layout} {text ahead : List Char} (h : l.passes ahead = true) :
    l.endLine text ahead = (l.advance text, []) := by
  have hpasses : (l.advance text).passes ahead = true := h
  simp [endLine, hpasses]

/-- A line that is as wide as the innermost indentation is treated like a narrower one: no
indentation is wider than it, so none is closed. -/
theorem endLine_eq {l : Layout} {text ahead : List Char} (h : l.passes ahead = false) :
    l.endLine text ahead =
      ({ l.advance text with indents := indentsAt l.indents (width (spacesOf text)) },
        ⟨.newline, lineEndText text, (l.advance text).pos⟩ ::
          marksAt l.indents (spacesOf text) (l.advance text).pos) := by
  have hpasses : (l.advance text).passes ahead = false := h
  have hindents : (l.advance text).indents = l.indents := rfl
  rw [endLine]
  simp only [hpasses, close_eq, current, hindents, indentsAt, marksAt, ← spacesOf.eq_1]
  rw [if_neg Bool.false_ne_true]
  generalize width (spacesOf text) = n
  rcases Nat.lt_trichotomy (l.indents.headD 0) n with hlt | rfl | hgt
  · rw [if_neg hlt.ne', if_pos hlt, if_pos hlt, if_pos hlt]
  · rw [if_pos rfl, if_neg (Nat.lt_irrefl _), if_neg (Nat.lt_irrefl _)]
    rw [takeWhile_headD, dropWhile_headD]
    rfl
  · have hnot : ¬l.indents.headD 0 < n := Nat.not_lt.2 hgt.le
    rw [if_neg hgt.ne, if_neg hnot, if_neg hnot, if_neg hnot]

/-! ### One lexeme after another -/

/-- What one lexeme can do: a token is made of it; nothing is made of it; or a line ends. -/
theorem step_cases (l : Layout) (x : Lexeme) :
    (∃ kind, x.rule = .token kind ∧ (l.step x).1.indents = l.indents ∧
      (l.step x).2 = [⟨kind, String.ofList x.text, l.pos⟩]) ∨
    ((l.step x).1.indents = l.indents ∧ (l.step x).2 = []) ∨
    (∃ n, n.kind = .newline ∧ n.pos = (l.step x).1.pos ∧
      (l.step x).1.indents = indentsAt l.indents (width (spacesOf x.text)) ∧
      (l.step x).2 = n :: marksAt l.indents (spacesOf x.text) n.pos) := by
  rw [step]
  split
  · next kind hrule => exact .inl ⟨kind, hrule, rfl, rfl⟩
  · cases hpasses : l.passes x.ahead with
    | true =>
      rw [endLine_of_passes hpasses]
      exact .inr (.inl ⟨rfl, rfl⟩)
    | false =>
      rw [endLine_eq hpasses]
      exact .inr (.inr ⟨_, rfl, rfl, rfl, rfl⟩)
  · exact .inr (.inl ⟨rfl, rfl⟩)

def read : Layout → List Lexeme → Layout × List Token
  | l, [] => (l, [])
  | l, x :: xs => (((l.step x).1.read xs).1, (l.step x).2 ++ ((l.step x).1.read xs).2)

theorem tokensFrom_append (l : Layout) (xs ys : List Lexeme) :
    l.tokensFrom (xs ++ ys) = (l.read xs).2 ++ (l.read xs).1.tokensFrom ys := by
  induction xs generalizing l with
  | nil => rfl
  | cons x xs ih => simp [tokensFrom, read, ih]

theorem tokensFrom_eq (l : Layout) (xs : List Lexeme) :
    l.tokensFrom xs = (l.read xs).2 ++ (l.read xs).1.finish := by
  simpa [tokensFrom] using l.tokensFrom_append xs []

end Layout

end Boardwright.Syntax
