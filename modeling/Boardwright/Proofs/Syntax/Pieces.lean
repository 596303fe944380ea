import Boardwright.Proofs.Syntax.Unplaced
import Mathlib.Data.List.Forall2

/-!
# The pieces of a body

A body is made of simple statements and blocks, whatever lines they stand on: its `pieces`. Two
bodies are `Paired` if they have the same shape, and simple statements and headers that stand in the
same place are related, at any depth.
-/

namespace Boardwright.Syntax

namespace Piece

def declares : Piece → Bool
  | .block _ _ => true
  | .simple (.importing _ _ _ _) => true
  | .simple (.retype _ _ _) => true
  | .simple _ => false

def outline : Piece → Piece
  | .simple s => .simple s.unplaced
  | .block h _ => .block h.unplaced default

def simple? : Piece → Option Simple
  | .simple s => some s
  | .block _ _ => none

/-- The simple statement that a piece is, if it declares nothing. -/
def acts? (p : Piece) : Option Simple := if p.declares then none else p.simple?

def name? : Piece → Option String
  | .simple _ => none
  | .block h _ => some h.name.text

def imported? : Piece → Option Reference
  | .simple (.importing _ what _ _) => some what.names
  | _ => none

def retyped? : Piece → Option Reference
  | .simple (.retype target _ _) => some target.names
  | _ => none

@[simp]
theorem declares_outline (p : Piece) : p.outline.declares = p.declares := by
  cases p with
  | simple s => cases s <;> rfl
  | block h b => rfl

theorem acts?_unplaced (p : Piece) : p.acts?.map Simple.unplaced =
    if !p.outline.declares then p.outline.simple? else none := by
  rw [acts?, declares_outline]
  cases p with
  | simple s => cases (Piece.simple s).declares <;> rfl
  | block h b => rfl

theorem name?_outline (p : Piece) : p.outline.name? = p.name? := by
  cases p <;> rfl

theorem imported?_outline (p : Piece) : p.outline.imported? = p.imported? := by
  cases p with
  | simple s => cases s <;> simp [outline, imported?, Simple.carry]
  | block h b => rfl

theorem retyped?_outline (p : Piece) : p.outline.retyped? = p.retyped? := by
  cases p with
  | simple s => cases s <;> simp [outline, retyped?, Simple.carry]
  | block h b => rfl

end Piece

variable {ps ps' qs : List Piece} {ss : List Stmt}

theorem simplesOf_eq_pieces (ss : List Stmt) :
    simplesOf ss = (pieces ss).filterMap Piece.simple? := by
  induction ss with
  | nil => rfl
  | cons s ss ih =>
    rw [pieces_cons, List.filterMap_append, ← ih]
    cases s with
    | line l =>
      have hline : l.simples = (l.simples.map Piece.simple).filterMap Piece.simple? := by
        simp [List.filterMap_map, Function.comp_def, Piece.simple?]
      rw [Stmt.pieces, ← hline]
      rfl
    | block h b => rfl

theorem blockNames_eq_pieces (ss : List Stmt) :
    blockNames ss = ((pieces ss).filterMap Piece.name?).eraseDups := by
  rw [blockNames]
  congr 1
  induction ss with
  | nil => rfl
  | cons s ss ih =>
    rw [pieces_cons, List.filterMap_append, ← ih]
    cases s with
    | line l => simp [Stmt.pieces, List.filterMap_map, Function.comp_def, Piece.name?]
    | block h b => rfl

theorem pieces_eq_nil_iff : pieces ss = [] ↔ ss = [] := by
  cases ss with
  | nil => simp [pieces]
  | cons s ss => cases s <;> simp [Stmt.pieces, Line.simples]

/-! ### Bodies side by side -/

/-- Pieces of the same shape: simple statements that `S` relates, and blocks with headers that `H`
relates and with paired bodies. -/
inductive Paired (S : Simple → Simple → Prop) (H : Header → Header → Prop) :
    List Piece → List Piece → Prop
  | nil : Paired S H [] []
  | simple {s s' : Simple} {ps ps' : List Piece} (hs : S s s') (h : Paired S H ps ps') :
    Paired S H (.simple s :: ps) (.simple s' :: ps')
  | block {h h' : Header} {b b' : Block} {ps ps' : List Piece} (hh : H h h')
    (hb : Paired S H (pieces b.stmts) (pieces b'.stmts)) (hps : Paired S H ps ps') :
    Paired S H (.block h b :: ps) (.block h' b' :: ps')

abbrev SamePieces : List Piece → List Piece → Prop :=
  Paired (fun s s' => s.unplaced = s'.unplaced) fun h h' => h.unplaced = h'.unplaced

namespace Paired

variable {S S' : Simple → Simple → Prop} {H H' : Header → Header → Prop} {ss' : List Stmt}

theorem imp (h : Paired S H ps ps') (hS : ∀ s s', S s s' → S' s s')
    (hH : ∀ h h', H h h' → H' h h') : Paired S' H' ps ps' := by
  induction h with
  | nil => exact .nil
  | simple hs _ ih => exact .simple (hS _ _ hs) ih
  | block hh _ _ ihb ih => exact .block (hH _ _ hh) ihb ih

theorem flip (h : Paired S H ps ps') :
    Paired (fun s s' => S s' s) (fun h h' => H h' h) ps' ps := by
  induction h with
  | nil => exact .nil
  | simple hs _ ih => exact .simple hs ih
  | block hh _ _ ihb ih => exact .block hh ihb ih

theorem simples (hS : ∀ s, S s s) (xs : List Simple) (h : Paired S H ps ps') :
    Paired S H (xs.map .simple ++ ps) (xs.map .simple ++ ps') := by
  induction xs with
  | nil => exact h
  | cons x xs ih => exact .simple (hS x) ih

mutual

theorem of_block (hS : ∀ s, S s s) (hH : ∀ h, H h h) (b : Block) :
    Paired S H (pieces b.stmts) (pieces b.stmts) := by
  cases b with
  | inline l => exact simples hS l.simples .nil
  | indented newline indent body dedent => exact of_stmts hS hH body

theorem of_stmts (hS : ∀ s, S s s) (hH : ∀ h, H h h) (ss : List Stmt) :
    Paired S H (pieces ss) (pieces ss) := by
  cases ss with
  | nil => exact .nil
  | cons s ss =>
    cases s with
    | line l => exact simples hS l.simples (of_stmts hS hH ss)
    | block h b => exact .block (hH h) (of_block hS hH b) (of_stmts hS hH ss)

end

theorem eq_nil_iff (h : Paired S H ps ps') : ps = [] ↔ ps' = [] := by
  cases h <;> simp

/-- The simple statements of both bodies, one by one. -/
theorem simplesOf (h : Paired S H (pieces ss) (pieces ss')) :
    List.Forall₂ S (simplesOf ss) (simplesOf ss') := by
  rw [simplesOf_eq_pieces, simplesOf_eq_pieces]
  generalize pieces ss = ps at h
  generalize pieces ss' = ps' at h
  induction h with
  | nil => exact .nil
  | simple hs _ ih => exact .cons hs ih
  | block _ _ _ _ ih => exact ih

end Paired

/-- Whether bodies and blocks of a bounded size are paired. -/
def pairedWithin (S : Simple → Simple → Bool) (H : Header → Header → Bool) :
    Nat → List Piece → List Piece → Bool
  | _ + 1, [], [] => true
  | n + 1, .simple s :: ps, .simple s' :: ps' => S s s' && pairedWithin S H n ps ps'
  | n + 1, .block h b :: ps, .block h' b' :: ps' =>
    H h h' && pairedWithin S H n (pieces b.stmts) (pieces b'.stmts) && pairedWithin S H n ps ps'
  | _, _, _ => false

theorem paired_of_within {S : Simple → Simple → Bool} {H : Header → Header → Bool} {n : Nat}
    (h : pairedWithin S H n ps ps' = true) :
    Paired (fun s s' => S s s' = true) (fun h h' => H h h' = true) ps ps' := by
  fun_induction pairedWithin S H n ps ps' with
  | case1 => exact .nil
  | case2 n s ps s' ps' ih =>
    rw [Bool.and_eq_true] at h
    exact .simple h.1 (ih h.2)
  | case3 n header b ps header' b' ps' ihb ih =>
    rw [Bool.and_eq_true, Bool.and_eq_true] at h
    exact .block h.1.1 (ihb h.1.2) (ih h.2)
  | case4 => cases h

end Boardwright.Syntax
