import Boardwright.Proofs.Syntax.Lexeme

/-!
# Strings

A string is closed by the first mark that can close it, so a string that is closed before a place
is the same whatever comes after the place: `stringLength_append`. But a text that comes after the
end of a line may close a string that another one leaves open. Then with the other one the string
has no end, or it is over at its second mark, since the three marks of a long string begin with
the two of an empty one: `quotedLength_cross`.
-/

open List

namespace Boardwright.Syntax

variable {bytes : Bool} {c : Char} {j k : Nat} {p s t t' : List Char}

namespace Lexeme

/-! ### Marks that close a string -/

/-- The marks of strings. -/
def isQuote (c : Char) : Bool := c == '\'' || c == '"'

variable {cs : List Char} {q : Char} {n : Nat}

section

variable {q : Char} {plain escaped : Char → Bool} {joins : Bool}

theorem closeShort_escape {e : Char} (h : ¬(e = '\r' ∧ cs.head? = some '\n')) :
    closeShort q plain escaped joins ('\\' :: e :: cs) =
      if escaped e then (closeShort q plain escaped joins cs).map (· + 2) else none := by
  rw [closeShort]
  rintro us rfl rfl
  simp at h

theorem closeShort_char (hc : c ≠ '\\') (cs : List Char) :
    closeShort q plain escaped joins (c :: cs) =
      if c == q then some 1
      else if plain c then (closeShort q plain escaped joins cs).map (· + 1) else none := by
  rw [closeShort]
  · rintro us rfl
    contradiction
  · rintro e us rfl
    contradiction

theorem head?_take {α : Type} (hk : 0 < k) (s t : List α) (hs : s ≠ []) :
    (s.take k ++ t).head? = s.head? := by
  cases s with
  | nil => contradiction
  | cons c s =>
    cases k with
    | zero => contradiction
    | succ k => rfl

/-- A string that is closed is closed whatever comes after its mark. -/
theorem closeShort_take (hq : q ≠ '\\') (h : closeShort q plain escaped joins s = some k)
    (t : List Char) : 0 < k ∧ closeShort q plain escaped joins (s.take k ++ t) = some k := by
  fun_induction closeShort q plain escaped joins s generalizing k with
  | case1 => simp at h
  | case2 cs hjoins ih =>
    obtain ⟨m, hm, rfl⟩ := Option.map_eq_some_iff.1 h
    subst hjoins
    simp [closeShort, (ih hm).2]
  | case3 => simp at h
  | case4 e cs hne he ih =>
    obtain ⟨m, hm, rfl⟩ := Option.map_eq_some_iff.1 h
    obtain ⟨hpos, hrest⟩ := ih hm
    have hcs : cs ≠ [] := by
      rintro rfl
      simp [closeShort] at hm
    have hpair : ¬(e = '\r' ∧ (cs.take m ++ t).head? = some '\n') := by
      rw [head?_take hpos cs t hcs]
      rintro ⟨rfl, hhead⟩
      obtain ⟨us, rfl⟩ := List.head?_eq_some_iff.1 hhead
      exact hne us rfl rfl
    simp only [List.take_succ_cons, List.cons_append, closeShort_escape hpair, he, if_true, hrest]
    exact ⟨Nat.succ_pos _, rfl⟩
  | case5 => simp at h
  | case6 c cs hne hne' hc =>
    obtain rfl := Option.some.inj h
    have hslash : c ≠ '\\' := by
      rintro rfl
      simp [hq.symm] at hc
    simp [closeShort_char hslash, hc]
  | case7 c cs hne hne' hc hplain ih =>
    obtain ⟨m, hm, rfl⟩ := Option.map_eq_some_iff.1 h
    have hslash : c ≠ '\\' := by
      rintro rfl
      cases cs with
      | nil => simp [closeShort] at hm
      | cons e cs => exact hne' e cs rfl rfl
    simp [closeShort_char hslash, hc, hplain, (ih hm).2]
  | case8 => simp at h

theorem closeLong_escape (e : Char) (cs : List Char) :
    closeLong q plain escaped ('\\' :: e :: cs) =
      if escaped e then (closeLong q plain escaped cs).map (· + 2) else none := by
  rw [closeLong]

theorem closeLong_char (hc : c ≠ '\\') (cs : List Char) :
    closeLong q plain escaped (c :: cs) =
      if c == q && [q, q].isPrefixOf cs then some 3
      else if plain c then (closeLong q plain escaped cs).map (· + 1) else none := by
  rw [closeLong]
  rintro e us rfl
  contradiction

theorem closeLong_take (hq : q ≠ '\\') (h : closeLong q plain escaped s = some k) (t : List Char) :
    2 < k ∧ closeLong q plain escaped (s.take k ++ t) = some k := by
  fun_induction closeLong q plain escaped s generalizing k with
  | case1 => simp at h
  | case2 e cs he ih =>
    obtain ⟨m, hm, rfl⟩ := Option.map_eq_some_iff.1 h
    obtain ⟨hpos, hrest⟩ := ih hm
    simp [closeLong_escape, he, hrest]
    omega
  | case3 => simp at h
  | case4 c cs hne hc =>
    obtain rfl := Option.some.inj h
    simp only [Bool.and_eq_true, beq_iff_eq, List.isPrefixOf_iff_prefix] at hc
    obtain ⟨rfl, us, rfl⟩ := hc
    simp [closeLong_char hq]
  | case5 c cs hne hc hplain ih =>
    obtain ⟨m, hm, rfl⟩ := Option.map_eq_some_iff.1 h
    obtain ⟨hpos, hrest⟩ := ih hm
    match cs with
    | [] => simp [closeLong] at hm
    | [d] =>
      by_cases hd : plain d <;> simp [closeLong, hd] at hm
    | d :: e :: cs =>
      have hslash : c ≠ '\\' := fun hslash => hne d (e :: cs) hslash rfl
      obtain ⟨m, rfl⟩ : ∃ n, m = n + 2 := ⟨m - 2, by omega⟩
      have hmarks : [q, q].isPrefixOf ((d :: e :: cs).take (m + 2) ++ t) =
          [q, q].isPrefixOf (d :: e :: cs) := by simp [List.isPrefixOf]
      rw [List.take_succ_cons, List.cons_append, closeLong_char hslash, hmarks, if_neg hc,
        if_pos hplain, hrest]
      exact ⟨by omega, rfl⟩
  | case6 => simp at h

theorem closeShort_le (h : closeShort q plain escaped joins s = some k) : k ≤ s.length := by
  fun_induction closeShort q plain escaped joins s generalizing k <;>
    grind [Option.map_eq_some_iff]

theorem closeLong_le (h : closeLong q plain escaped s = some k) : k ≤ s.length := by
  fun_induction closeLong q plain escaped s generalizing k <;>
    grind [Option.map_eq_some_iff, isPrefixOf_iff_prefix, IsPrefix.length_le]

end

/-- The string of one line that starts after a mark. -/
def shortAfter (bytes : Bool) (q : Char) (cs : List Char) : Option Nat :=
  let any := fun c : Char => !bytes || c.toNat < 128
  if bytes then closeShort q (isShortByte q) any false cs
  else closeShort q (isShortChar q) any true cs

/-- The long string that starts after a mark. -/
def longAfter (bytes : Bool) (q : Char) (cs : List Char) : Option Nat :=
  let any := fun c : Char => !bytes || c.toNat < 128
  if [q, q].isPrefixOf cs then
    (closeLong q (fun c => any c && c != '\\') any (cs.drop 2)).map (· + 2)
  else none

theorem quotedLength_cons (hq : isQuote q = true) (cs : List Char) :
    quotedLength bytes (q :: cs) =
      ((longAfter bytes q cs).or (shortAfter bytes q cs)).elim 0 (· + 1) := by
  have hmark : (q != '\'' && q != '"') = false := by
    simpa [isQuote, or_iff_not_imp_left] using hq
  rw [quotedLength, if_neg (by simp [hmark])]
  dsimp only [longAfter, shortAfter]
  generalize (if bytes = true then _ else _ : Option Nat) = short
  generalize (if [q, q].isPrefixOf cs = true then _ else _ : Option Nat) = long
  cases long <;> cases short <;> rfl

theorem quotedLength_of_not_isQuote (hq : isQuote q = false) (cs : List Char) :
    quotedLength bytes (q :: cs) = 0 := by
  have hmark : (q != '\'' && q != '"') = true := by simpa [isQuote] using hq
  rw [quotedLength, if_pos hmark]

theorem ne_backslash_of_isQuote (hq : isQuote q = true) : q ≠ '\\' := by
  rintro rfl
  simp [isQuote] at hq

theorem shortAfter_take (hq : isQuote q = true) (h : shortAfter bytes q s = some k)
    (t : List Char) : shortAfter bytes q (s.take k ++ t) = some k := by
  cases bytes
  all_goals exact (closeShort_take (ne_backslash_of_isQuote hq) h t).2

theorem longAfter_take (hq : isQuote q = true) (h : longAfter bytes q s = some k)
    (t : List Char) : longAfter bytes q (s.take k ++ t) = some k := by
  rw [longAfter] at h
  split at h
  · next hmarks =>
      obtain ⟨n, hn, rfl⟩ := Option.map_eq_some_iff.1 h
      obtain ⟨us, rfl⟩ := List.isPrefixOf_iff_prefix.1 hmarks
      obtain ⟨-, hclosed⟩ := closeLong_take (ne_backslash_of_isQuote hq) hn t
      simpa [longAfter] using hclosed
  · contradiction

/-- Two ways to close a string before a place, and what they become with another text after it. -/
theorem or_eq_of_le {long long' short short' : Option Nat}
    (hlong : ∀ k ≤ n, long = some k ↔ long' = some k)
    (hshort : ∀ k ≤ n, short = some k ↔ short' = some k)
    (h : ∀ k, long.or short = some k → k ≤ n) (h' : ∀ k, long'.or short' = some k → k ≤ n) :
    long.or short = long'.or short' := by
  cases long with
  | some k => rw [(hlong k (h k rfl)).1 rfl]; rfl
  | none =>
    cases long' with
    | some k => cases (hlong k (h' k rfl)).2 rfl
    | none =>
      cases short with
      | some k => rw [(hshort k (h k rfl)).1 rfl]
      | none =>
        cases short' with
        | some k => cases (hshort k (h' k rfl)).2 rfl
        | none => rfl

/-- What closes a string before a place closes it whatever comes after. -/
theorem closes_append {f : List Char → Option Nat}
    (hf : ∀ s k t, f s = some k → f (s.take k ++ t) = some k) (p t t' : List Char)
    (hk : k ≤ p.length) : f (p ++ t) = some k ↔ f (p ++ t') = some k := by
  have himp : ∀ u u', f (p ++ u) = some k → f (p ++ u') = some k := by
    intro u u' h
    have htake := hf _ _ (p.drop k ++ u') h
    rwa [List.take_append_of_le_length hk, ← List.append_assoc, List.take_append_drop] at htake
  exact ⟨himp t t', himp t' t⟩

/-- If a string ends before a place with either of two texts after it, it is the same string. -/
theorem quotedLength_append (hp : p ≠ []) (h : quotedLength bytes (p ++ t) ≤ p.length)
    (h' : quotedLength bytes (p ++ t') ≤ p.length) :
    quotedLength bytes (p ++ t) = quotedLength bytes (p ++ t') := by
  cases p with
  | nil => contradiction
  | cons q p =>
    cases hq : isQuote q with
    | false => simp [quotedLength_of_not_isQuote hq]
    | true =>
      simp only [List.cons_append, quotedLength_cons hq, List.length_cons] at h h' ⊢
      rw [or_eq_of_le (n := p.length)]
      · exact fun k hk => closes_append (f := longAfter bytes q)
          (fun _ _ t h => longAfter_take hq h t) p t t' hk
      · exact fun k hk => closes_append (f := shortAfter bytes q)
          (fun _ _ t h => shortAfter_take hq h t) p t t' hk
      · intro k hk
        simpa [hk] using h
      · intro k hk
        simpa [hk] using h'

/-- How many letters there are before the marks of a string, and whether it is one of bytes. -/
def opening : List Char → Option (Nat × Bool)
  | [] => none
  | a :: s =>
    if isQuote a then some (0, false)
    else match s with
      | [] => none
      | b :: _ =>
        if isQuote b then
          if a.toLower == 'r' || a.toLower == 'u' || a.toLower == 'f' then some (1, false)
          else if a.toLower == 'b' then some (1, true)
          else none
        else if (a.toLower == 'f' && b.toLower == 'r') ||
            (a.toLower == 'r' && b.toLower == 'f') then
          some (2, false)
        else if (a.toLower == 'b' && b.toLower == 'r') ||
            (a.toLower == 'r' && b.toLower == 'b') then
          some (2, true)
        else none

theorem quotedAfter_zero (bytes : Bool) (s : List Char) :
    quotedAfter bytes 0 s = quotedLength bytes s := by
  rw [quotedAfter, List.drop_zero]
  split
  · next h => exact h.symm
  · rfl

theorem quotedAfter_of_not_isQuote (hs : s.drop n = c :: cs)
    (hc : isQuote c = false) : quotedAfter bytes n s = 0 := by
  rw [quotedAfter, hs, quotedLength_of_not_isQuote hc]
  rfl

theorem quotedAfter_of_length_le (hs : s.length ≤ n) : quotedAfter bytes n s = 0 := by
  rw [quotedAfter, List.drop_of_length_le hs]
  rfl

theorem isQuote_iff : isQuote c = true ↔ c = '\'' ∨ c = '"' := by simp [isQuote]

theorem stringLength_eq (s : List Char) :
    stringLength s = (opening s).elim 0 fun x => quotedAfter x.2 x.1 s := by
  match s with
  | [] => decide
  | [a] =>
    cases ha : isQuote a with
    | true =>
      rcases isQuote_iff.1 ha with rfl | rfl <;> decide
    | false =>
      simp [stringLength, opening, ha, quotedLength_of_not_isQuote ha,
        quotedAfter_of_length_le]
  | a :: b :: s =>
    cases ha : isQuote a with
    | true =>
      have hzero := quotedAfter_zero false (a :: b :: s)
      rcases isQuote_iff.1 ha with rfl | rfl <;> simp [stringLength, opening, ha, hzero]
    | false =>
      cases hb : isQuote b with
      | true =>
        have hletter : b.toLower ≠ 'r' ∧ b.toLower ≠ 'f' ∧ b.toLower ≠ 'b' := by
          rcases isQuote_iff.1 hb with rfl | rfl <;> decide
        simp [stringLength, opening, ha, hb, quotedLength_of_not_isQuote ha, hletter]
        split <;> split <;> simp_all
      | false =>
        have hone (bytes : Bool) : quotedAfter bytes 1 (a :: b :: s) = 0 :=
          quotedAfter_of_not_isQuote rfl hb
        simp [stringLength, opening, ha, hb, quotedLength_of_not_isQuote ha, hone]
        split <;> split <;> grind

theorem opening_append (hp : p ≠ []) (c : Char) (t t' : List Char) :
    opening (p ++ c :: t) = opening (p ++ c :: t') := by
  match p with
  | [_] => rfl
  | _ :: _ :: _ => rfl

theorem isQuote_of_isBreak (hc : isBreak c = true) : isQuote c = false :=
  eq_false_of_isBreak (by decide) hc

theorem fst_le_of_opening (hp : p ≠ []) (hc : isBreak c = true)
    (h : opening (p ++ c :: t) = some (j, bytes)) : j ≤ p.length := by
  match p with
  | [a] =>
    have hquote := isQuote_of_isBreak hc
    have hletters : c.toLower ≠ 'r' ∧ c.toLower ≠ 'f' ∧ c.toLower ≠ 'b' := by
      rcases isBreak_iff.1 hc with rfl | rfl | rfl <;> decide
    simp [opening, hquote, hletters] at h
    simp [← h.2.1]
  | a :: b :: p =>
    simp only [cons_append, opening] at h
    simp only [length_cons]
    grind

theorem shortAfter_self (hq : isQuote q = true) (cs : List Char) :
    shortAfter bytes q (q :: cs) = some 1 := by
  have hslash := ne_backslash_of_isQuote hq
  cases bytes <;> simp [shortAfter, closeShort_char hslash]

/-- The three marks of a long string are on one line. -/
theorem exists_of_longAfter (hq : isQuote q = true) (hc : isBreak c = true)
    (h : longAfter bytes q (p ++ c :: t) = some k) : ∃ rest, p = q :: q :: rest := by
  have hne : q ≠ c := by
    rintro rfl
    simp [isQuote_of_isBreak hc] at hq
  rw [longAfter] at h
  split at h
  · next hmarks =>
      match p with
      | [] => simp [List.isPrefixOf, hne] at hmarks
      | [_] => simp [List.isPrefixOf, hne] at hmarks
      | _ :: _ :: rest =>
        simp only [cons_append, List.isPrefixOf, Bool.and_eq_true, beq_iff_eq] at hmarks
        obtain ⟨rfl, rfl, -⟩ := hmarks
        exact ⟨rest, rfl⟩
  · contradiction

/-- A string that starts in front of the end of a line and does not end there: with one text after
the end of the line it does not end at all, or is over at its second mark. -/
theorem quotedLength_cross (hc : isBreak c = true) (h : quotedLength bytes (p ++ c :: t) ≤ p.length)
    (h' : p.length < quotedLength bytes (p ++ c :: t')) :
    ∃ q rest, p = q :: rest ∧ isQuote q = true ∧
      (quotedLength bytes (p ++ c :: t) = 0 ∨
        quotedLength bytes (p ++ c :: t) = 2 ∧ ∃ rest', rest = q :: q :: rest') := by
  cases p with
  | nil => simp [quotedLength_of_not_isQuote (isQuote_of_isBreak hc)] at h'
  | cons q p =>
    cases hq : isQuote q with
    | false => simp [quotedLength_of_not_isQuote hq] at h'
    | true =>
      refine ⟨q, p, rfl, hq, ?_⟩
      simp only [cons_append, quotedLength_cons hq, length_cons] at h h' ⊢
      have hlong (k : Nat) (hk : k ≤ p.length) := closes_append (f := longAfter bytes q)
        (fun _ _ t h => longAfter_take hq h t) p (c :: t) (c :: t') hk
      have hshort (k : Nat) (hk : k ≤ p.length) := closes_append (f := shortAfter bytes q)
        (fun _ _ t h => shortAfter_take hq h t) p (c :: t) (c :: t') hk
      cases hlong' : longAfter bytes q (p ++ c :: t') with
      | some k' =>
        have hk' : p.length < k' := by simpa [hlong'] using h'
        have hnone : longAfter bytes q (p ++ c :: t) = none := by
          cases hfound : longAfter bytes q (p ++ c :: t) with
          | none => rfl
          | some k =>
            have hk : k ≤ p.length := by simpa [hfound] using h
            have hsame := hlong'.symm.trans ((hlong k hk).1 hfound)
            have := Option.some.inj hsame
            omega
        obtain ⟨rest, rfl⟩ := exists_of_longAfter hq hc hlong'
        rw [hnone, cons_append, shortAfter_self hq]
        exact .inr ⟨rfl, rest, rfl⟩
      | none =>
        left
        cases hshort' : shortAfter bytes q (p ++ c :: t') with
        | none => simp [hlong', hshort'] at h'
        | some k' =>
          have hk' : p.length < k' := by simpa [hlong', hshort'] using h'
          cases hfound : longAfter bytes q (p ++ c :: t) with
          | some k =>
            have hk : k ≤ p.length := by simpa [hfound] using h
            cases hlong'.symm.trans ((hlong k hk).1 hfound)
          | none =>
            cases hclosed : shortAfter bytes q (p ++ c :: t) with
            | none => rfl
            | some k =>
              have hk : k ≤ p.length := by simpa [hfound, hclosed] using h
              have hsame := hshort'.symm.trans ((hshort k hk).1 hclosed)
              have := Option.some.inj hsame
              omega

/-! ### Strings that end before a place -/

theorem quotedAfter_le_iff (hj : j ≤ p.length) (t : List Char) :
    quotedAfter bytes j (p ++ t) ≤ p.length ↔
      quotedLength bytes (p.drop j ++ t) ≤ (p.drop j).length := by
  rw [quotedAfter, drop_append_of_le_length hj, length_drop]
  split <;> omega

theorem quotedAfter_append (hj : j < p.length) (h : quotedAfter bytes j (p ++ t) ≤ p.length)
    (h' : quotedAfter bytes j (p ++ t') ≤ p.length) :
    quotedAfter bytes j (p ++ t) = quotedAfter bytes j (p ++ t') := by
  have hne : p.drop j ≠ [] := by simpa using hj
  have hlength := quotedLength_append hne ((quotedAfter_le_iff hj.le t).1 h)
    ((quotedAfter_le_iff hj.le t').1 h')
  rw [quotedAfter, quotedAfter, drop_append_of_le_length hj.le,
    drop_append_of_le_length hj.le, hlength]

theorem stringLength_of_opening (h : opening s = some (j, bytes)) :
    stringLength s = quotedAfter bytes j s := by
  rw [stringLength_eq, h]
  rfl

/-- No string starts with the end of a line. -/
theorem quotedAfter_length (p : List Char) (hc : isBreak c = true) (t : List Char) :
    quotedAfter bytes p.length (p ++ c :: t) = 0 :=
  quotedAfter_of_not_isQuote drop_left (isQuote_of_isBreak hc)

theorem stringLength_append (hp : p ≠ []) (hc : isBreak c = true)
    (h : stringLength (p ++ c :: t) ≤ p.length) (h' : stringLength (p ++ c :: t') ≤ p.length) :
    stringLength (p ++ c :: t) = stringLength (p ++ c :: t') := by
  have hsame := opening_append hp c t t'
  cases hopening : opening (p ++ c :: t') with
  | none => rw [stringLength_eq, stringLength_eq, hsame, hopening]; rfl
  | some x =>
    obtain ⟨j, bytes⟩ := x
    rw [stringLength_of_opening (hsame.trans hopening)] at h ⊢
    rw [stringLength_of_opening hopening] at h' ⊢
    rcases (fst_le_of_opening hp hc hopening).lt_or_eq with hj | rfl
    · exact quotedAfter_append hj h h'
    · rw [quotedAfter_length p hc, quotedAfter_length p hc]

theorem longAfter_le (h : longAfter bytes q s = some k) : k ≤ s.length := by
  rw [longAfter] at h
  split at h
  · next hmarks =>
      obtain ⟨n, hn, rfl⟩ := Option.map_eq_some_iff.1 h
      have hle := closeLong_le hn
      have htwo : 2 ≤ s.length := ( isPrefixOf_iff_prefix.1 hmarks).length_le
      rw [length_drop] at hle
      omega
  · cases h

theorem quotedLength_le (bytes : Bool) (s : List Char) : quotedLength bytes s ≤ s.length := by
  cases s with
  | nil => exact Nat.zero_le _
  | cons q cs =>
    cases hq : isQuote q with
    | false => simp [quotedLength_of_not_isQuote hq]
    | true =>
      rw [quotedLength_cons hq]
      cases h : (longAfter bytes q cs).or (shortAfter bytes q cs) with
      | none => exact Nat.zero_le _
      | some k =>
        rcases Option.or_eq_some_iff.1 h with h | ⟨-, h⟩
        · exact Nat.succ_le_succ (longAfter_le h)
        · cases bytes <;> exact Nat.succ_le_succ (closeShort_le h)

theorem stringLength_le (s : List Char) : stringLength s ≤ s.length := by
  rw [stringLength_eq]
  cases opening s with
  | none => exact Nat.zero_le _
  | some x =>
    have hle := quotedLength_le x.2 (s.drop x.1)
    rw [length_drop] at hle
    rw [Option.elim_some, quotedAfter]
    split
    · exact Nat.zero_le _
    · next hne =>
        have hpos := Nat.pos_of_ne_zero hne
        omega

end Lexeme

end Boardwright.Syntax
