import Boardwright.Proofs.Syntax.Pieces
import Mathlib.Data.List.Pairwise

/-!
# Bodies whose declarations stand elsewhere

A block, an import and a replacement of a type declare something of the file or the block that
they stand in. A body is `Rearranged` if declarations have been moved past other statements of it,
and past each other, at any depth and any number of times. The other statements keep their order,
and positions do not count.

What is read off a body in the order of the other statements stays the same, and what is read off
its declarations is permuted: `Rearranged.filterMap_eq`, `Rearranged.perm_filterMap`. A body is
`Distinct` if no two declarations of one sort in it are for the same thing, and the same holds in
all its blocks; then the order of declarations cannot be told from what they declare.
-/

open List

namespace Boardwright.Syntax

variable {ps ps' qs : List Piece} {ss : List Stmt} {b : Block} {n : Nat}

/-- The statements of a body that declare nothing. -/
def acting (ss : List Stmt) : List Simple := (pieces ss).filterMap Piece.acts?

/-! ### Moving declarations -/

/-- A list of pieces in which declarations have been moved, also in the blocks among them. -/
inductive Rearranged : List Piece → List Piece → Prop
  | nil : Rearranged [] []
  | simple {s s' : Simple} {ps ps' : List Piece} (hs : s.unplaced = s'.unplaced)
    (h : Rearranged ps ps') : Rearranged (.simple s :: ps) (.simple s' :: ps')
  | block {h h' : Header} {b b' : Block} {ps ps' : List Piece} (hh : h.unplaced = h'.unplaced)
    (hb : Rearranged (pieces b.stmts) (pieces b'.stmts)) (hps : Rearranged ps ps') :
    Rearranged (.block h b :: ps) (.block h' b' :: ps')
  | swap {p q : Piece} (hpq : p.declares ∨ q.declares) (ps : List Piece) :
    Rearranged (p :: q :: ps) (q :: p :: ps)
  | trans {ps qs rs : List Piece} (h : Rearranged ps qs) (h' : Rearranged qs rs) : Rearranged ps rs

namespace Rearranged

theorem symm (h : Rearranged ps ps') : Rearranged ps' ps := by
  induction h with
  | nil => exact .nil
  | simple hs _ ih => exact .simple hs.symm ih
  | block hh _ _ ihb ih => exact .block hh.symm ihb ih
  | swap hpq ps => exact .swap hpq.symm ps
  | trans _ _ ih ih' => exact ih'.trans ih

theorem of_samePieces (h : SamePieces ps ps') : Rearranged ps ps' := by
  induction h with
  | nil => exact .nil
  | simple hs _ ih => exact .simple hs ih
  | block hh _ _ ihb ih => exact .block hh ihb ih

/-- The body of a block, with nothing moved. -/
theorem of_block (b : Block) : Rearranged (pieces b.stmts) (pieces b.stmts) :=
  of_samePieces (Paired.of_block (by simp) (by simp) b)

/-- A list of statements, with nothing moved. -/
theorem of_stmts (ss : List Stmt) : Rearranged (pieces ss) (pieces ss) :=
  of_samePieces (Paired.of_stmts (by simp) (by simp) ss)

theorem perm_outline (h : Rearranged ps ps') :
    (ps.map Piece.outline).Perm (ps'.map Piece.outline) := by
  induction h with
  | nil => exact .nil
  | simple hs _ ih => simpa [Piece.outline, hs] using ih
  | block hh _ _ _ ih => simpa [Piece.outline, hh] using ih
  | swap _ ps => exact .swap _ _ _
  | trans _ _ ih ih' => exact ih.trans ih'

/-- The pieces that declare nothing stay in their order. -/
theorem outline_others (h : Rearranged ps ps') :
    (ps.map Piece.outline).filter (!·.declares) = (ps'.map Piece.outline).filter (!·.declares) := by
  induction h with
  | nil => rfl
  | simple hs _ ih => simp only [map_cons, filter_cons, Piece.outline, hs, ih]
  | block hh _ _ _ ih => simp only [map_cons, filter_cons, Piece.outline, hh, ih]
  | @swap p q hpq ps =>
    simp only [map_cons, filter_cons, Piece.declares_outline]
    rcases hpq with hp | hq
    · simp [hp]
    · simp [hq]
  | trans _ _ ih ih' => exact ih.trans ih'

variable {β : Type} {F : Piece → Option β}

/-- What is read off each piece without its position is permuted. -/
theorem perm_filterMap (h : Rearranged ps ps') (hF : ∀ p, F p.outline = F p) :
    (ps.filterMap F).Perm (ps'.filterMap F) := by
  have hmap : ∀ ps : List Piece, (ps.map Piece.outline).filterMap F = ps.filterMap F := by
    intro ps
    rw [filterMap_map]
    congr 1
    funext p
    exact hF p
  rw [← hmap ps, ← hmap ps']
  exact h.perm_outline.filterMap F

/-- What is not read off declarations stays in its order. -/
theorem filterMap_eq (h : Rearranged ps ps') (hF : ∀ p, F p.outline = F p)
    (hnone : ∀ p, p.declares → F p = none) : ps.filterMap F = ps'.filterMap F := by
  have hmap : ∀ ps : List Piece,
      ((ps.map Piece.outline).filter (!·.declares)).filterMap F = ps.filterMap F := by
    intro ps
    rw [filterMap_filter, filterMap_map]
    congr 1
    funext p
    cases hp : p.declares with
    | true => simp [hp, hnone p hp]
    | false => simp [hp, hF]
  rw [← hmap ps, ← hmap ps', h.outline_others]

/-- The statements that declare nothing are the same but for their positions. -/
theorem acting {ss ss' : List Stmt} (h : Rearranged (pieces ss) (pieces ss')) :
    List.Forall₂ (fun s s' => s.unplaced = s'.unplaced) (acting ss) (acting ss') := by
  have hpieces : ∀ ss, (Syntax.acting ss).map Simple.unplaced =
      (((pieces ss).map Piece.outline).filter (!·.declares)).filterMap Piece.simple? := by
    intro ss
    rw [Syntax.acting, map_filterMap, filterMap_filter, filterMap_map]
    congr 1
    funext p
    exact p.acts?_unplaced
  have hmap : (Syntax.acting ss).map Simple.unplaced = (Syntax.acting ss').map Simple.unplaced := by
    rw [hpieces, hpieces, h.outline_others]
  rwa [← forall₂_eq_eq_eq, forall₂_map_left_iff, forall₂_map_right_iff] at hmap

/-- Each block is found again, with a rearranged body. -/
theorem exists_block (h : Rearranged ps ps') {header : Header} (hb : .block header b ∈ ps) :
    ∃ header' b', .block header' b' ∈ ps' ∧ header.unplaced = header'.unplaced ∧
      Rearranged (pieces b.stmts) (pieces b'.stmts) := by
  induction h generalizing header b with
  | nil => cases hb
  | simple _ _ ih =>
    obtain ⟨header', b', hmem, hsame⟩ := ih (by simpa using hb)
    exact ⟨header', b', mem_cons_of_mem _ hmem, hsame⟩
  | @block h h' c c' ps ps' hh hc _ _ ih =>
    rcases mem_cons.1 hb with heq | hb
    · cases heq
      exact ⟨h', c', mem_cons_self, hh, hc⟩
    · obtain ⟨header', b', hmem, hsame⟩ := ih hb
      exact ⟨header', b', mem_cons_of_mem _ hmem, hsame⟩
  | swap _ ps => exact ⟨header, b, ((List.Perm.swap _ _ ps).mem_iff).1 hb, rfl, of_block b⟩
  | trans _ _ ih ih' =>
    obtain ⟨header', b', hmem, hh, hb'⟩ := ih hb
    obtain ⟨header'', b'', hmem', hh', hb''⟩ := ih' hmem
    exact ⟨header'', b'', hmem', hh.trans hh', hb'.trans hb''⟩

theorem eq_nil_iff (h : Rearranged ps ps') : ps = [] ↔ ps' = [] := by
  have hlength := h.perm_outline.length_eq
  rw [length_map, length_map] at hlength
  rw [← length_eq_zero_iff, hlength, length_eq_zero_iff]

end Rearranged

/-! ### Declarations of different things -/

/-- A list of pieces in which no two blocks have the same name, no two imports the same reference
and no two replacements the same target, and neither do those in any block among them. -/
inductive Distinct : List Piece → Prop
  | mk {ps : List Piece} (blocks : (ps.filterMap Piece.name?).Nodup)
    (imports : (ps.filterMap Piece.imported?).Nodup) (retypes : (ps.filterMap Piece.retyped?).Nodup)
    (inner : ∀ h b, .block h b ∈ ps → Distinct (pieces b.stmts)) : Distinct ps

namespace Distinct

theorem blocks (hd : Distinct ps) : (ps.filterMap Piece.name?).Nodup := by
  cases hd
  assumption

theorem imports (hd : Distinct ps) : (ps.filterMap Piece.imported?).Nodup := by
  cases hd
  assumption

theorem retypes (hd : Distinct ps) : (ps.filterMap Piece.retyped?).Nodup := by
  cases hd
  assumption

theorem inner (hd : Distinct ps) {h : Header} (hb : .block h b ∈ ps) :
    Distinct (pieces b.stmts) := by
  cases hd with
  | mk _ _ _ inner => exact inner h b hb

/-- Moving declarations keeps them different. -/
theorem rearranged (hd : Distinct ps) (h : Rearranged ps ps') : Distinct ps' := by
  induction hd generalizing ps' with
  | mk blocks imports retypes _ ih =>
    refine ⟨?_, ?_, ?_, fun header' b' hb' => ?_⟩
    · exact (h.perm_filterMap Piece.name?_outline).nodup_iff.1 blocks
    · exact (h.perm_filterMap Piece.imported?_outline).nodup_iff.1 imports
    · exact (h.perm_filterMap Piece.retyped?_outline).nodup_iff.1 retypes
    · obtain ⟨header, b, hb, -, hinner⟩ := h.symm.exists_block hb'
      exact ih header b hb hinner.symm

theorem block_unique (hd : Distinct ps) {h h' : Header} {b' : Block} (hb : .block h b ∈ ps)
    (hb' : .block h' b' ∈ ps) (hname : h.name.text = h'.name.text) : h = h' ∧ b = b' := by
  have hsymm : Std.Symm fun p q : Piece => ∀ x, p.name? = some x → ∀ y, q.name? = some y → x ≠ y :=
    ⟨fun p q hpq x hx y hy => (hpq y hy x hx).symm⟩
  have hsame : Piece.block h b = .block h' b' := by
    by_contra hne
    exact (pairwise_filterMap.1 hd.blocks).forall hb hb' hne _ rfl _ rfl hname
  exact Piece.block.inj hsame

end Distinct

/-! ### Bodies that are compared -/

def Piece.same (inner : List Piece → List Piece → Bool) : Piece → Piece → Bool
  | .simple s, .simple s' => s.unplaced = s'.unplaced
  | .block h b, .block h' b' => h.unplaced = h'.unplaced && inner (pieces b.stmts) (pieces b'.stmts)
  | _, _ => false

/-- The first piece of a body that is the same as `p`, and the other pieces, if `p` can be moved to
its place: each piece before it, or `p` itself, declares something. -/
def Piece.pull (inner : List Piece → List Piece → Bool) (p : Piece) :
    List Piece → Option (Piece × List Piece)
  | [] => none
  | q :: qs =>
    if p.same inner q then some (q, qs)
    else if p.declares || q.declares then (p.pull inner qs).map fun r => (r.1, q :: r.2)
    else none

/-- Whether declarations were moved, for bodies and blocks of a bounded size. -/
def rearrangedWithin : Nat → List Piece → List Piece → Bool
  | 0, _, _ => false
  | _ + 1, [], qs => qs.isEmpty
  | n + 1, p :: ps, qs => match p.pull (rearrangedWithin n) qs with
    | none => false
    | some r => rearrangedWithin n ps r.2

/-- Whether declarations are for different things, in blocks that stand in each other no deeper
than a bound. -/
def distinctWithin : Nat → List Piece → Bool
  | 0, _ => false
  | n + 1, ps =>
    decide (ps.filterMap Piece.name?).Nodup && decide (ps.filterMap Piece.imported?).Nodup &&
      decide (ps.filterMap Piece.retyped?).Nodup && ps.all fun p => match p with
        | .simple _ => true
        | .block _ b => distinctWithin n (pieces b.stmts)

theorem Rearranged.refl (ps : List Piece) : Rearranged ps ps := by
  induction ps with
  | nil => exact .nil
  | cons p ps ih =>
    cases p with
    | simple s => exact .simple rfl ih
    | block h b => exact .block rfl (of_block b) ih

theorem Rearranged.cons (p : Piece) (h : Rearranged ps ps') : Rearranged (p :: ps) (p :: ps') := by
  cases p with
  | simple s => exact .simple rfl h
  | block header b => exact .block rfl (of_block b) h

section

variable {inner : List Piece → List Piece → Bool} {p q : Piece}

theorem Piece.declares_of_same (h : p.same inner q) : p.declares = q.declares := by
  cases p with
  | simple s =>
    cases q with
    | simple s' =>
      have hs : s.unplaced = s'.unplaced := by simpa [same] using h
      rw [← declares_outline, outline, hs, ← outline, declares_outline]
    | block h' b' => cases h
  | block header b => cases q with
    | simple s' => cases h
    | block h' b' => rfl

theorem Piece.rearranged_same (hinner : ∀ ps ps', inner ps ps' → Rearranged ps ps')
    (h : p.same inner q) (hps : Rearranged ps ps') : Rearranged (p :: ps) (q :: ps') := by
  cases p with
  | simple s => cases q with
    | simple s' => exact .simple (by simpa [same] using h) hps
    | block h' b' => cases h
  | block header b => cases q with
    | simple s' => cases h
    | block h' b' =>
      have hsame : header.unplaced = h'.unplaced ∧ inner (pieces b.stmts) (pieces b'.stmts) := by
        simpa [same] using h
      exact .block hsame.1 (hinner _ _ hsame.2) hps

/-- A piece that is pulled out of a body can be moved to its front. -/
theorem Piece.rearranged_pull {r : Piece × List Piece} (h : p.pull inner qs = some r) :
    p.same inner r.1 ∧ Rearranged (r.1 :: r.2) qs := by
  induction qs generalizing r with
  | nil => cases h
  | cons q qs ih =>
    rw [pull] at h
    split at h
    · next hq =>
        cases h
        exact ⟨hq, .refl _⟩
    · split at h
      · next hpq =>
          obtain ⟨x, hx, rfl⟩ := Option.map_eq_some_iff.1 h
          obtain ⟨hsame, hmoved⟩ := ih hx
          rw [declares_of_same hsame, Bool.or_eq_true] at hpq
          -- it passes the pieces in front of it one by one
          exact ⟨hsame, (Rearranged.swap hpq x.2).trans (.cons q hmoved)⟩
      · cases h

end

theorem rearranged_of_within (h : rearrangedWithin n ps qs = true) :
    Rearranged ps qs := by
  induction n generalizing ps qs with
  | zero => cases h
  | succ n ih =>
    cases ps with
    | nil =>
      rw [rearrangedWithin, List.isEmpty_iff] at h
      subst h
      exact .nil
    | cons p ps =>
      rw [rearrangedWithin] at h
      split at h
      · cases h
      · next r hpull =>
          obtain ⟨hsame, hmoved⟩ := Piece.rearranged_pull hpull
          exact (Piece.rearranged_same (fun _ _ => ih) hsame (ih h)).trans hmoved

theorem distinct_of_within (h : distinctWithin n ps = true) : Distinct ps := by
  induction n generalizing ps with
  | zero => cases h
  | succ n ih =>
    simp only [distinctWithin, Bool.and_eq_true, decide_eq_true_eq, all_eq_true] at h
    obtain ⟨⟨⟨hblocks, himports⟩, hretypes⟩, hinner⟩ := h
    exact ⟨hblocks, himports, hretypes, fun header b hb => ih (hinner _ hb)⟩

end Boardwright.Syntax
