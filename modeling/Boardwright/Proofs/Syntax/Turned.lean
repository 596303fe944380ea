import Boardwright.Proofs.Syntax.Rearranged

/-!
# Connections written the other way round

A body is `Turned` if the two sides of some of its connections have been swapped, at any depth.
All other statements stay as and where they are, and positions do not count. What is not read off
connections is the same in both bodies: `Turned.filterMap_eq`.
-/

namespace Boardwright.Syntax

/-- A connection with its sides swapped. Other statements are left as they are. -/
def Simple.turn : Simple → Simple
  | .connect left mark right => .connect right mark left
  | s => s

/-- Statements that are the same, or the same connection written the other way round. -/
def Simple.Turned (s s' : Simple) : Prop :=
  s.unplaced = s'.unplaced ∨ s.turn.unplaced = s'.unplaced

instance (s s' : Simple) : Decidable (s.Turned s') := inferInstanceAs (Decidable (_ ∨ _))

namespace Simple

variable {s s' : Simple}

theorem turn_unplaced (s : Simple) : s.turn.unplaced = s.unplaced.turn := by
  cases s <;> rfl

@[simp]
theorem turn_turn (s : Simple) : s.turn.turn = s := by
  cases s <;> rfl

theorem Turned.symm (h : s.Turned s') : s'.Turned s := by
  rcases h with h | h
  · exact .inl h.symm
  · refine .inr ?_
    rw [turn_unplaced, ← h, turn_unplaced, turn_turn]

/-- A statement that is no connection is not changed. -/
theorem Turned.unplaced_eq (h : s.Turned s')
    (hs : ∀ left mark right, s ≠ .connect left mark right) : s.unplaced = s'.unplaced := by
  rcases h with h | h
  · exact h
  · cases s with
    | connect left mark right => exact absurd rfl (hs left mark right)
    | _ => exact h

/-- The sides of a connection stay or change places. -/
theorem Turned.exists_connect {left right : Connectable} {mark : Token}
    (h : (connect left mark right).Turned s') :
    ∃ left' mark' right', s' = .connect left' mark' right' ∧
      (left.unplaced = left'.unplaced ∧ right.unplaced = right'.unplaced ∨
        left.unplaced = right'.unplaced ∧ right.unplaced = left'.unplaced) := by
  cases s' with
  | connect left' mark' right' =>
    refine ⟨left', mark', right', rfl, ?_⟩
    rcases h with h | h
    · obtain ⟨hleft, -, hright⟩ := Simple.connect.inj h
      exact .inl ⟨hleft, hright⟩
    · obtain ⟨hright, -, hleft⟩ := Simple.connect.inj h
      exact .inr ⟨hleft, hright⟩
  | _ => rcases h with h | h <;> cases h

end Simple

/-- A list of pieces in which sides of connections have been swapped, also in the blocks among
them. -/
abbrev Turned : List Piece → List Piece → Prop :=
  Paired Simple.Turned fun h h' => h.unplaced = h'.unplaced

variable {ps ps' : List Piece}

namespace Turned

theorem symm (h : Turned ps ps') : Turned ps' ps :=
  h.flip.imp (fun _ _ hs => hs.symm) fun _ _ hh => hh.symm

/-- What is not read off connections, positions and what is in blocks stays the same. -/
theorem filterMap_eq {β : Type} {F : Piece → Option β} (h : Turned ps ps')
    (hF : ∀ p, F p.outline = F p)
    (hnone : ∀ left mark right, F (.simple (.connect left mark right)) = none) :
    ps.filterMap F = ps'.filterMap F := by
  induction h with
  | nil => rfl
  | @simple s s' _ _ hs _ ih =>
    have hsame : F (.simple s) = F (.simple s') := by
      by_cases hconnect : ∃ left mark right, s = .connect left mark right
      · obtain ⟨left, mark, right, rfl⟩ := hconnect
        obtain ⟨left', mark', right', rfl, -⟩ := hs.exists_connect
        rw [hnone, hnone]
      · push Not at hconnect
        rw [← hF, ← hF (.simple s'), Piece.outline, Piece.outline, hs.unplaced_eq hconnect]
    rw [List.filterMap_cons, List.filterMap_cons, hsame, ih]
  | @block header header' b b' _ _ hh _ _ _ ih =>
    have hsame : F (.block header b) = F (.block header' b') := by
      rw [← hF, ← hF (.block header' b'), Piece.outline, Piece.outline, hh]
    rw [List.filterMap_cons, List.filterMap_cons, hsame, ih]

end Turned

/-- Whether sides of connections were swapped, for bodies and blocks of a bounded size. -/
def turnedWithin : Nat → List Piece → List Piece → Bool :=
  pairedWithin (fun s s' => decide (s.Turned s')) fun h h' => decide (h.unplaced = h'.unplaced)

theorem turned_of_within {n : Nat} (h : turnedWithin n ps ps' = true) : Turned ps ps' :=
  (paired_of_within h).imp (fun _ _ => of_decide_eq_true) fun _ _ => of_decide_eq_true

end Boardwright.Syntax
