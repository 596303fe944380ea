import Boardwright.Proofs.Text
import Boardwright.Text.Blank
import Mathlib.Data.List.Basic
import Mathlib.Data.List.Infix
import Mathlib.Data.List.TakeWhile

/-!
# Stripping, cutting and splitting

Characters at the ends of a text that are to be stripped do not matter to what is left:
`strip_append`. Pieces are found again where a text is split at the mark that they are joined with, if
the first character of the mark does not stand in them: `splitOn_intercalate`. A text may be
stripped before it is split or the pieces after it, as long as no character of the mark is stripped:
`map_strip_splitOn`.
-/

open List

namespace Boardwright.Text

variable {p : Char → Bool} {mark s l r : List Char} {c : Char} {ss : List (List Char)}

/-! ### Stripping -/

theorem strip_append (hl : ∀ c ∈ l, p c = true) (hr : ∀ c ∈ r, p c = true) (s : List Char) :
    strip p (l ++ s ++ r) = strip p s := by
  have hfront : (l ++ s ++ r).dropWhile p = (s ++ r).dropWhile p := by
    rw [append_assoc, dropWhile_append_of_pos hl]
  have hback (u : List Char) : (u ++ r).reverse.dropWhile p = u.reverse.dropWhile p := by
    rw [reverse_append, dropWhile_append_of_pos (by simpa using hr)]
  rw [strip, strip, hfront, dropWhile_append]
  split
  · next hempty =>
      rw [List.isEmpty_iff.1 hempty, dropWhile_eq_nil_iff.2 hr]
  · rw [hback]

theorem strip_append_left (hl : ∀ c ∈ l, p c = true) (s : List Char) :
    strip p (l ++ s) = strip p s := by
  simpa using strip_append (r := []) hl (by simp) s

theorem strip_append_right (hr : ∀ c ∈ r, p c = true) (s : List Char) :
    strip p (s ++ r) = strip p s :=
  strip_append (l := []) (by simp) hr s

theorem exists_strip (p : Char → Bool) (s : List Char) :
    ∃ l r, s = l ++ strip p s ++ r ∧ (∀ c ∈ l, p c = true) ∧ ∀ c ∈ r, p c = true := by
  refine ⟨s.takeWhile p, ((s.dropWhile p).reverse.takeWhile p).reverse, ?_,
    fun c hc => mem_takeWhile_imp hc,
    fun c hc => mem_takeWhile_imp (mem_reverse.1 hc)⟩
  rw [strip, append_assoc, ← reverse_append, takeWhile_append_dropWhile,
    reverse_reverse, takeWhile_append_dropWhile]

theorem strip_eq_self (hfirst : ∀ c ∈ s.head?, p c = false) (hlast : ∀ c ∈ s.getLast?, p c = false) :
    strip p s = s := by
  have hdrop {u : List Char} (hu : ∀ c ∈ u.head?, p c = false) : u.dropWhile p = u := by
    cases u with
    | nil => rfl
    | cons c u => simp [hu c rfl]
  rw [strip, hdrop hfirst, hdrop (by simpa using hlast), reverse_reverse]

/-- A text in which nothing is to be stripped is left if and only if all that follows it is
stripped. -/
theorem strip_append_eq_iff (hs : ∀ c ∈ s, p c = false) :
    strip p (s ++ r) = s ↔ ∀ c ∈ r, p c = true := by
  constructor
  · intro h
    obtain ⟨l, r', hcut, hl, hr'⟩ := exists_strip p (s ++ r)
    rw [h, append_assoc] at hcut
    cases s with
    | nil =>
      rw [nil_append, nil_append] at hcut
      rw [hcut]
      exact forall_mem_append.2 ⟨hl, hr'⟩
    | cons c s =>
      -- the first character of the text stays, so nothing is stripped before it
      have hempty : l = [] := by
        cases l with
        | nil => rfl
        | cons d l =>
          obtain ⟨rfl, -⟩ := List.cons.inj hcut
          simp [hs c (by simp)] at hl
      rw [hempty, nil_append, append_cancel_left_eq] at hcut
      rwa [hcut]
  · intro hr
    rw [strip_append_right hr]
    exact strip_eq_self (fun c hc => hs c (mem_of_mem_head? hc))
      fun c hc => hs c (mem_of_getLast? hc)

/-! ### Cutting at a mark -/

theorem cut_eq_none_iff (hmark : mark ≠ []) : cut mark s = none ↔ ¬mark <:+: s := by
  induction s with
  | nil => simp [cut, hmark]
  | cons c s ih =>
    rw [cut, infix_cons_iff, not_or, ← isPrefixOf_iff_prefix]
    split
    · simp_all
    · simp_all

theorem length_le_of_cut {before after : List Char} (h : cut mark s = some (before, after))
    (hs : s = l ++ mark ++ r) : before.length ≤ l.length := by
  induction s generalizing before l with
  | nil =>
    have hbefore := eq_append_of_cut h
    simp_all
  | cons c s ih =>
    rw [cut] at h
    split at h
    · obtain ⟨rfl, -⟩ := Prod.mk.inj (Option.some.inj h)
      exact Nat.zero_le _
    · next hstarts =>
        obtain ⟨⟨b, a⟩, hcut, heq⟩ := Option.map_eq_some_iff.1 h
        obtain ⟨rfl, rfl⟩ := Prod.mk.inj heq
        cases l with
        | nil => exact absurd ( isPrefixOf_iff_prefix.2 ⟨r, hs.symm⟩) hstarts
        | cons d l =>
          obtain ⟨-, hs⟩ := List.cons.inj hs
          simpa using ih hcut hs

/-! ### Splitting at a mark -/

theorem splitFrom_skip (mark piece u s : List Char) :
    splitFrom mark u.length piece (u ++ s) = splitFrom mark 0 piece s := by
  induction u with
  | nil => rfl
  | cons d u ih => simpa [splitFrom] using ih

theorem splitFrom_pass (mark : List Char) (hs : c ∉ s) (piece rest : List Char) :
    splitFrom (c :: mark) 0 piece (s ++ rest) =
      splitFrom (c :: mark) 0 (s.reverse ++ piece) rest := by
  induction s generalizing piece with
  | nil => rfl
  | cons d s ih =>
    rw [mem_cons, not_or] at hs
    have hcd : (c == d) = false := beq_eq_false_iff_ne.2 hs.1
    rw [cons_append, splitFrom]
    simp [List.isPrefixOf, hcd, ih hs.2]

theorem splitFrom_mark (mark piece rest : List Char) :
    splitFrom (c :: mark) 0 piece (c :: mark ++ rest) =
      piece.reverse :: splitFrom (c :: mark) 0 [] rest := by
  have hstarts : (c :: mark).isPrefixOf (c :: mark ++ rest) = true :=
    isPrefixOf_iff_prefix.2 (prefix_append _ _)
  rw [cons_append] at hstarts ⊢
  rw [splitFrom, if_pos (by rw [hstarts]; rfl)]
  simp [splitFrom_skip]

theorem cut_of_not_mem (mark : List Char) (hs : c ∉ s) : cut (c :: mark) s = none := by
  simpa [cut] using cut_append mark hs []

theorem splitOn_of_cut_eq_none (h : cut mark s = none) : splitOn mark s = [s] := by
  have hfrom (piece : List Char) : splitFrom mark 0 piece s = [piece.reverse ++ s] := by
    induction s generalizing piece with
    | nil => simp [splitFrom]
    | cons d s ih =>
      rw [cut] at h
      split at h
      · cases h
      · next hstarts =>
          rw [splitFrom, if_neg (by simp [hstarts]), ih (Option.map_eq_none_iff.1 h)]
          simp
  exact hfrom []

theorem splitOn_append (mark : List Char) (hs : c ∉ s) (rest : List Char) :
    splitOn (c :: mark) (s ++ (c :: mark) ++ rest) = s :: splitOn (c :: mark) rest := by
  rw [splitOn, append_assoc, splitFrom_pass mark hs, splitFrom_mark]
  simp [splitOn]

theorem mem_intercalate (h : c ∈ mark.intercalate ss) :
    c ∈ mark ∨ ∃ s ∈ ss, c ∈ s := by
  induction ss with
  | nil => simp at h
  | cons s ss ih =>
    cases ss with
    | nil => exact .inr ⟨s, by simp, by simpa using h⟩
    | cons t ss =>
      rw [intercalate_cons_cons, mem_append, mem_append] at h
      rcases h with (h | h) | h
      · exact .inr ⟨s, by simp, h⟩
      · exact .inl h
      · exact (ih h).imp_right fun ⟨u, hu, hc⟩ => ⟨u, mem_cons_of_mem s hu, hc⟩

/-- Pieces that are joined are found again. -/
theorem splitOn_intercalate (mark : List Char) (hne : ss ≠ [])
    (hss : ∀ s ∈ ss, c ∉ s) : splitOn (c :: mark) ((c :: mark).intercalate ss) = ss := by
  induction ss with
  | nil => contradiction
  | cons s ss ih =>
    rw [forall_mem_cons] at hss
    cases ss with
    | nil => simpa using splitOn_of_cut_eq_none (cut_of_not_mem mark hss.1)
    | cons t ss =>
      rw [intercalate_cons_cons, splitOn_append mark hss.1, ih (by simp) hss.2]

/-! ### Stripping and splitting -/

theorem splitFrom_append_piece (mark : List Char) (k : Nat) (piece q s : List Char) :
    splitFrom mark k (piece ++ q) s = (splitFrom mark k piece s).modifyHead (q.reverse ++ ·) := by
  induction s generalizing k piece with
  | nil => cases k <;> simp [splitFrom]
  | cons d s ih =>
    cases k with
    | zero =>
      rw [splitFrom, splitFrom]
      split
      · simp
      · rw [← cons_append, ih]
    | succ k => rw [splitFrom, splitFrom, ih]

theorem map_strip_modifyHead (hl : ∀ c ∈ l, p c = true) (ss : List (List Char)) :
    (ss.modifyHead (l ++ ·)).map (strip p) = ss.map (strip p) := by
  cases ss with
  | nil => rfl
  | cons s ss => simp [strip_append_left hl]

theorem isPrefixOf_append (hr : ∀ c ∈ r, c ∉ mark) :
    mark.isPrefixOf (s ++ r) = mark.isPrefixOf s := by
  rw [Bool.eq_iff_iff, isPrefixOf_iff_prefix, isPrefixOf_iff_prefix]
  refine ⟨fun h => ?_, fun h => h.trans (prefix_append _ _)⟩
  obtain ⟨t, ht⟩ := h
  rcases append_eq_append_iff.1 ht with ⟨u, rfl, -⟩ | ⟨u, rfl, rfl⟩
  · exact prefix_append _ _
  · -- what of the mark stands in `r` is nothing
    cases u with
    | nil => simp
    | cons d u => exact absurd (by simp) (hr d (by simp))

theorem map_strip_splitFrom (mark : List Char) (hr : ∀ d ∈ r, p d = true ∧ d ∉ c :: mark) {k : Nat}
    (hk : k ≤ s.length) (piece : List Char) :
    (splitFrom (c :: mark) k piece (s ++ r)).map (strip p) =
      (splitFrom (c :: mark) k piece s).map (strip p) := by
  induction s generalizing k piece with
  | nil =>
    obtain rfl : k = 0 := by simpa using hk
    have hc : c ∉ r := fun h => (hr c h).2 (by simp)
    have hstrip := strip_append_right (fun d hd => (hr d hd).1) piece.reverse
    have hpass := splitFrom_pass mark hc piece []
    rw [append_nil] at hpass
    simpa [hpass, splitFrom] using hstrip
  | cons d s ih =>
    cases k with
    | succ k => exact ih (by simpa using hk) piece
    | zero =>
      have hstarts := isPrefixOf_append (s := d :: s) fun e he => (hr e he).2
      rw [cons_append, splitFrom, splitFrom, ← cons_append, hstarts]
      split
      · next h =>
          have hlength : (c :: mark).length ≤ (d :: s).length :=
            ( isPrefixOf_iff_prefix.1 (by simpa using h)).length_le
          rw [map_cons, map_cons, ih (by simpa using hlength)]
      · exact ih (Nat.zero_le _) _

theorem map_strip_splitOn (mark : List Char) (hl : ∀ d ∈ l, p d = true ∧ d ∉ c :: mark)
    (hr : ∀ d ∈ r, p d = true ∧ d ∉ c :: mark) (s : List Char) :
    (splitOn (c :: mark) (l ++ s ++ r)).map (strip p) =
      (splitOn (c :: mark) s).map (strip p) := by
  have hc : c ∉ l := fun h => (hl c h).2 (by simp)
  rw [splitOn, splitOn, append_assoc, splitFrom_pass mark hc,
    map_strip_splitFrom mark hr (Nat.zero_le _), append_nil]
  have hpiece := splitFrom_append_piece (c :: mark) 0 [] l.reverse s
  rw [nil_append, reverse_reverse] at hpiece
  rw [hpiece, map_strip_modifyHead fun d hd => (hl d hd).1]

end Boardwright.Text
