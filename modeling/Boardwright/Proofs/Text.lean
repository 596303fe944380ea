import Boardwright.Text.Split

/-!
# Laws of cutting text

What `cut` leaves can be put together again, and a part of a text in which the first
character of a mark does not stand is passed over. So is, from the end of a text, a part in which
the last character of a mark does not stand, by `cutLast`. At a mark of one character
`Text.splitOn` is `List.splitOn`. A number is read back from the text that it is written as.
-/

open List

namespace Boardwright.Text

variable {mark s before after : List Char} {c : Char}

theorem eq_append_of_cut (h : cut mark s = some (before, after)) :
    s = before ++ mark ++ after := by
  induction s generalizing before with
  | nil =>
    rw [cut] at h
    split at h
    · simp_all
    · simp at h
  | cons c s ih =>
    rw [cut] at h
    split at h
    · next hm =>
        obtain ⟨r, hr⟩ := isPrefixOf_iff_prefix.1 hm
        rw [← hr, drop_left] at h
        simp only [Option.some.injEq, Prod.mk.injEq] at h
        rw [← hr, ← h.1, ← h.2, nil_append]
    · obtain ⟨⟨b, r⟩, hb, he⟩ := Option.map_eq_some_iff.1 h
      obtain ⟨rfl, rfl⟩ := Prod.mk.inj he
      rw [ih hb]
      rfl

theorem cut_append (mark : List Char) (hs : c ∉ s) (after : List Char) :
    cut (c :: mark) (s ++ after) =
      (cut (c :: mark) after).map fun (b, r) => (s ++ b, r) := by
  induction s with
  | nil => simp
  | cons d s ih =>
    have hcd : (c == d) = false := by
      rw [beq_eq_false_iff_ne]
      rintro rfl
      simp at hs
    rw [cons_append, cut, ih fun h => hs (mem_cons_of_mem d h)]
    simp [List.isPrefixOf, hcd, Function.comp_def]

theorem cutLast_append (mark before : List Char) (hafter : c ∉ after) :
    cutLast (mark ++ [c]) (before ++ (mark ++ [c]) ++ after) = some (before, after) := by
  have hreverse : (before ++ (mark ++ [c]) ++ after).reverse =
      after.reverse ++ ((c :: mark.reverse) ++ before.reverse) := by simp
  have hcut : cut (c :: mark.reverse) ((c :: mark.reverse) ++ before.reverse) =
      some ([], before.reverse) := by
    have hprefix : (c :: mark.reverse).isPrefixOf ((c :: mark.reverse) ++ before.reverse) = true :=
      isPrefixOf_iff_prefix.2 (prefix_append _ _)
    rw [cons_append] at hprefix ⊢
    rw [cut, if_pos hprefix]
    simp
  rw [cutLast, hreverse, reverse_append, reverse_singleton, singleton_append,
    cut_append _ (by simpa using hafter), hcut]
  simp

theorem splitFrom_singleton (c : Char) (piece s : List Char) :
    splitFrom [c] 0 piece s = List.splitOnPPrepend (· == c) s piece := by
  induction s generalizing piece with
  | nil => rfl
  | cons d s ih =>
    rw [splitFrom, splitOnPPrepend_cons_eq_if]
    by_cases hcd : c = d
    · subst hcd
      simp [ih]
    · simp [hcd, Ne.symm hcd, ih]

theorem splitOn_singleton (c : Char) (s : List Char) : splitOn [c] s = s.splitOn c := by
  rw [splitOn, splitFrom_singleton]
  rfl

theorem toString_injective {m n : Nat} (h : toString m = toString n) : m = n := by
  have hdigits : ∀ k : Nat, (toString k).toList = Nat.toDigits 10 k := by
    intro k
    rw [Nat.toString_eq_repr, Nat.toList_repr]
  calc
    m = Nat.ofDigitChars 10 (Nat.toDigits 10 m) 0 := Nat.ofDigitChars_ten_toDigits.symm
    _ = Nat.ofDigitChars 10 (Nat.toDigits 10 n) 0 := by rw [← hdigits, ← hdigits, h]
    _ = n := Nat.ofDigitChars_ten_toDigits

end Boardwright.Text
