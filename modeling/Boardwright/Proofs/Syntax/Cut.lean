import Boardwright.Proofs.Syntax.Quoted
import Mathlib.Data.List.Chain

/-!
# Where a text is cut

The lexemes of a text are cut off one after the other, each by the rule that takes most
characters. `Cuts` says this of pieces of a text in front of the rest of it, so that pieces can be
kept when only what follows them changes.

A lexeme looks no further than the end of its line, except for strings: a mark that opens a string
can find the end of it on any later line, and if it finds none it is a lexeme of its own. So what
stands behind the end of a line matters to the lexemes before it only if some string is not
closed. In a text that can be read this does not happen, and then its rules are `Quiet`:
`Cuts.congr`.
-/

open List

namespace Boardwright.Syntax

variable {c : Char} {s t : List Char}

namespace Lexeme

/-! ### What is cut where a text starts with a mark -/

theorem literalLength_of_head {text : String} (hc : text.toList.head? ≠ some c)
    (htext : text.toList ≠ []) (s : List Char) : literalLength text (c :: s) = 0 := by
  rw [literalLength, if_neg]
  intro h
  obtain ⟨us, hus⟩ := isPrefixOf_iff_prefix.1 h
  cases hw : text.toList with
  | nil => exact htext hw
  | cons d ds =>
    rw [hw, cons_append] at hus
    exact hc (by rw [hw, (List.cons.inj hus).1]; rfl)

/-- A character that only strings, ends of lines and what is passed over start with. -/
def isApart (c : Char) : Bool :=
  !c.isDigit && !Text.isNameStart c &&
    (keywords ++ marks).all fun w => w.1.toList.head? != some c

theorem numberLength_of_head (hc : c.isDigit = false) (s : List Char) :
    numberLength (c :: s) = 0 := by
  rw [numberLength_eq, if_pos]
  simp [run, hc]

theorem equationLength_of_head (hc : c ≠ 'e') (s : List Char) : equationLength (c :: s) = 0 := by
  rw [equationLength, literalLength_of_head (by simpa using hc.symm) (by decide)]
  rfl

/-- Fixed texts that a text does not start with do not count. -/
theorem next_of_literals (h : ∀ w ∈ keywords ++ marks, literalLength w.1 s = 0) (first : Bool) :
    next first s = best (.token .unknown, 0)
      [(.token .string, stringLength s), (.token .number, numberLength s),
        (.token .equation, equationLength s), (.lineEnd, lineEndLength first s),
        (.token .name, nameLength s), (.skipped, skippedLength s), (.token .unknown, 1)] := by
  have hdrop {ws : List (String × Kind)} (hws : ws ⊆ keywords ++ marks) (found : Rule × Nat) :
      best found (ws.map fun w => (Rule.token w.2, literalLength w.1 s)) = found := by
    refine best_of_le (forall_mem_map.2 fun w hw => ?_)
    rw [h w (hws hw)]
    exact Nat.zero_le _
  simp only [next, candidates, best_append, hdrop (subset_append_left _ _),
    hdrop (subset_append_right _ _)]
  rfl

/-- The rules that count where a text starts with such a character. -/
theorem next_of_isApart (hc : isApart c = true) (first : Bool) (s : List Char) :
    next first (c :: s) = best (.token .unknown, 0)
      [(.token .string, stringLength (c :: s)), (.lineEnd, lineEndLength first (c :: s)),
        (.skipped, skippedLength (c :: s)), (.token .unknown, 1)] := by
  simp only [isApart, Bool.and_eq_true, Bool.not_eq_true', all_eq_true, bne_iff_ne] at hc
  obtain ⟨⟨hdigit, hname⟩, hliteral⟩ := hc
  have hnonempty : ∀ w ∈ keywords ++ marks, w.1.toList ≠ [] := by decide
  have he : c ≠ 'e' := by
    rintro rfl
    simp [show Text.isNameStart 'e' = true by decide] at hname
  rw [next_of_literals fun w hw => literalLength_of_head (hliteral w hw) (hnonempty w hw) s,
    numberLength_of_head hdigit s, equationLength_of_head he s]
  simp [best, nameLength, hname]

theorem lineEndLength_of_not_isBreak (hc : isBreak c = false) (hspace : isSpace c = false)
    (first : Bool) (s : List Char) : lineEndLength first (c :: s) = 0 := by
  have hbreak : breakLength (c :: s) = 0 := by
    rw [breakLength_cons, if_neg, hc]
    · rfl
    · rintro ⟨rfl, -⟩
      simp [isBreak] at hc
  rw [lineEndLength, hbreak]
  simp [run, hspace]

theorem lineEndLength_pos (hc : isBreak c = true) (first : Bool) (s : List Char) :
    0 < lineEndLength first (c :: s) := by
  have hbreak : breakLength (c :: s) ≠ 0 := by
    rw [breakLength_cons, if_pos hc]
    split <;> simp
  rw [lineEndLength]
  split <;> omega

theorem skippedLength_of_head (hhash : c ≠ '#') (hslash : c ≠ '\\') (s : List Char) :
    skippedLength (c :: s) = run isSpace (c :: s) := by
  rw [skippedLength]
  · simpa using hhash
  · simpa using hslash

theorem stringLength_of_head (hquote : isQuote c = false)
    (hletter : c.toLower ≠ 'r' ∧ c.toLower ≠ 'u' ∧ c.toLower ≠ 'f' ∧ c.toLower ≠ 'b')
    (s : List Char) : stringLength (c :: s) = 0 := by
  rw [stringLength_eq]
  cases s <;> simp [opening, hquote, hletter]

theorem next_of_isBreak (hc : isBreak c = true) (first : Bool) (s : List Char) :
    next first (c :: s) = (.lineEnd, lineEndLength first (c :: s)) := by
  have hapart : isApart c = true := by
    rcases isBreak_iff.1 hc with rfl | rfl | rfl <;> decide
  have hletter : c.toLower ≠ 'r' ∧ c.toLower ≠ 'u' ∧ c.toLower ≠ 'f' ∧ c.toLower ≠ 'b' := by
    rcases isBreak_iff.1 hc with rfl | rfl | rfl <;> decide
  have hspace : isSpace c = false := eq_false_of_isBreak (by decide) hc
  have hskipped : skippedLength (c :: s) = 0 := by
    rw [skippedLength_of_head (ne_of_isBreak hc (by decide)) (ne_of_isBreak hc (by decide))]
    simp [run, hspace]
  have hpos := lineEndLength_pos hc first s
  rw [next_of_isApart hapart, stringLength_of_head (isQuote_of_isBreak hc) hletter, hskipped]
  exact best_eq [_] [_, _] hpos (by simpa using hpos) (by simp; omega)

/-- A comment goes on to the end of its line. -/
theorem next_hash (first : Bool) (s : List Char) :
    next first ('#' :: s) = (.skipped, run (fun c => !isBreak c) s + 1) := by
  rw [next_of_isApart (by decide), stringLength_of_head (by decide) (by decide),
    lineEndLength_of_not_isBreak (by decide) (by decide), skippedLength]
  exact best_eq [_, _] [_] (by simp) (by simp) (by simp)

/-- Spaces at the beginning of a text are cut like the end of a line. -/
theorem next_of_isSpace (hc : isSpace c = true) (s : List Char) :
    next true (c :: s) = (.lineEnd, run isSpace (c :: s)) := by
  have hcases : c = ' ' ∨ c = '\t' := by simpa [isSpace] using hc
  have hapart : isApart c = true := by rcases hcases with rfl | rfl <;> decide
  have hbreak : breakLength (c :: s) = 0 := by
    rcases hcases with rfl | rfl <;> rfl
  have hline : lineEndLength true (c :: s) = run isSpace (c :: s) := by
    rw [lineEndLength, hbreak]
    rfl
  have hskipped : skippedLength (c :: s) = run isSpace (c :: s) := by
    rcases hcases with rfl | rfl <;> rfl
  have hstring : stringLength (c :: s) = 0 := by
    rcases hcases with rfl | rfl <;> exact stringLength_of_head (by decide) (by decide) s
  have hpos : 0 < run isSpace (c :: s) := by simp [run, hc]
  rw [next_of_isApart hapart, hstring, hline, hskipped]
  exact best_eq [_] [_, _] hpos (by simpa using hpos) (by simp; omega)

theorem isAlpha_of_toLower {d : Char} (h : c.toLower = d) (hd : d.isAlpha = true) :
    c.isAlpha = true := by
  delta Char.toLower at h
  split at h
  · next hupper =>
      delta Char.isAlpha Char.isUpper
      simpa using Or.inl hupper
  · exact h ▸ hd

/-- The letters that may stand before the marks of a string. -/
def isOpener (c : Char) : Bool := ['r', 'u', 'f', 'b'].contains c.toLower

theorem isAlpha_of_isOpener (hc : isOpener c = true) : c.isAlpha = true := by
  have hmem : c.toLower = 'r' ∨ c.toLower = 'u' ∨ c.toLower = 'f' ∨ c.toLower = 'b' := by
    simpa [isOpener] using hc
  rcases hmem with h | h | h | h <;> exact isAlpha_of_toLower h (by decide)

theorem isDigit_of_isAlpha (hc : c.isAlpha = true) : c.isDigit = false := by
  delta Char.isAlpha Char.isUpper Char.isLower at hc
  simp only [Bool.or_eq_true, Bool.and_eq_true, decide_eq_true_eq, ge_iff_le,
    UInt32.le_iff_toNat_le] at hc
  simp only [Char.isDigit, Bool.and_eq_false_iff, decide_eq_false_iff_not, ge_iff_le,
    UInt32.le_iff_toNat_le]
  have hA : 'A'.val.toNat = 65 := rfl
  have ha : 'a'.val.toNat = 97 := rfl
  have hnine : '9'.val.toNat = 57 := rfl
  omega

theorem isNameStart_of_isAlpha (hc : c.isAlpha = true) :
    Text.isNameStart c = true ∧ Text.isNamePart c = true := by
  have hlt : c.toNat < 128 := by
    delta Char.isAlpha Char.isUpper Char.isLower at hc
    simp only [Bool.or_eq_true, Bool.and_eq_true, decide_eq_true_eq, ge_iff_le,
      UInt32.le_iff_toNat_le] at hc
    have hnat : c.toNat = c.val.toNat := rfl
    have hZ : 'Z'.val.toNat = 90 := rfl
    have hz : 'z'.val.toNat = 122 := rfl
    omega
  simp [Text.isNameStart, Text.isNamePart, hlt, hc, Char.isAlphanum]

theorem opening_cases {j : Nat} {bytes : Bool} (h : opening s = some (j, bytes)) :
    j ≤ 2 ∧ j ≤ s.length ∧ ∀ c ∈ s.take j, isOpener c = true := by
  match s with
  | [] => simp [opening] at h
  | [a] =>
    simp [opening] at h
    simp [← h.2.1]
  | a :: b :: s =>
    simp only [opening] at h
    simp only [isOpener, length_cons]
    grind

variable {q : Char} {p t' : List Char} {first : Bool} {r : Rule} {n : Nat}

/-- A fixed text without marks of strings ends before such a mark. -/
theorem prefix_of_quote {w : List Char} (hw : ∀ c ∈ w, isQuote c = false)
    (hq : isQuote q = true) {rest : List Char} (h : w <+: p ++ q :: rest) : w <+: p := by
  have hnot : q ∉ w := fun hmem => by simp [hw q hmem] at hq
  have hcut : p ++ [q] <+: p ++ q :: rest := ⟨rest, by simp⟩
  rcases prefix_or_prefix_of_prefix h hcut with h | h
  · rcases prefix_concat_iff.1 h with rfl | h
    · simp at hnot
    · exact h
  · exact absurd (h.subset (by simp)) hnot

/-- No fixed text is made of letters that may stand before a string, apart from longer words. -/
theorem literalLength_of_isOpener {w : String × Kind}
    (hw : w ∈ ("eqn:", .equation) :: keywords ++ marks) (hp : ∀ c ∈ p, isOpener c = true) (hlength : p.length ≤ 2)
    (hq : isQuote q = true) (rest : List Char) : literalLength w.1 (p ++ q :: rest) = 0 := by
  have htexts : ∀ w ∈ ("eqn:", Kind.equation) :: keywords ++ marks,
      w.1.toList.all (fun c => !isQuote c) = true ∧
      (w.1.toList.length ≤ 2 → w.1.toList.all isOpener = false) := by decide
  obtain ⟨hquote, hopener⟩ := htexts w hw
  simp only [all_eq_true, Bool.not_eq_true'] at hquote
  rw [literalLength, if_neg]
  intro h
  have hinitial := prefix_of_quote hquote hq ( isPrefixOf_iff_prefix.1 h)
  have hfalse := hopener (Nat.le_trans hinitial.length_le hlength)
  obtain ⟨c, hc, hnot⟩ := all_eq_false.1 hfalse
  exact hnot (hp c (hinitial.subset hc))

section

variable {p : List Char} {q : Char}

theorem nameLength_of_isOpener (hp : ∀ c ∈ p, isOpener c = true) (hq : isQuote q = true)
    (rest : List Char) : nameLength (p ++ q :: rest) = p.length := by
  have hname : Text.isNameStart q = false ∧ Text.isNamePart q = false := by
    rcases isQuote_iff.1 hq with rfl | rfl <;> decide
  cases p with
  | nil => simp [nameLength, hname]
  | cons a p =>
    rw [forall_mem_cons] at hp
    have hstart := (isNameStart_of_isAlpha (isAlpha_of_isOpener hp.1)).1
    have hrun : run Text.isNamePart p = p.length := by
      rw [run, takeWhile_eq_self_iff.2]
      exact fun c hc => (isNameStart_of_isAlpha (isAlpha_of_isOpener (hp.2 c hc))).2
    simp [nameLength, hstart, run_append hname.2, hrun]

theorem head_cases (hp : ∀ c ∈ p, isOpener c = true) (hq : isQuote q = true) (rest : List Char) :
    ∃ c s, p ++ q :: rest = c :: s ∧ c.isDigit = false ∧ isSpace c = false ∧ isBreak c = false ∧
      c ≠ '#' ∧ c ≠ '\\' := by
  cases p with
  | nil =>
    refine ⟨q, rest, rfl, ?_⟩
    rcases isQuote_iff.1 hq with rfl | rfl <;> decide
  | cons a p =>
    have halpha := isAlpha_of_isOpener (hp a mem_cons_self)
    have hne {c : Char} (hc : c.isAlpha = false) : a ≠ c := by
      rintro rfl
      simp [halpha] at hc
    refine ⟨a, p ++ q :: rest, rfl, isDigit_of_isAlpha halpha, ?_, ?_, hne (by decide),
      hne (by decide)⟩
    · simp [isSpace, hne (c := ' ') (by decide), hne (c := '\t') (by decide)]
    · simp [isBreak, hne (c := '\n') (by decide), hne (c := '\r') (by decide),
        hne (c := '\x0c') (by decide)]

/-- What is cut where the letters and the mark of a string stand: the string, if it is closed;
otherwise the letters are a name, and a mark without letters is taken alone. -/
theorem next_of_quote (hp : ∀ c ∈ p, isOpener c = true) (hlength : p.length ≤ 2)
    (hq : isQuote q = true) (first : Bool) (rest : List Char) :
    next first (p ++ q :: rest) = best (.token .unknown, 0)
      [(.token .string, stringLength (p ++ q :: rest)), (.token .name, p.length),
        (.token .unknown, 1)] := by
  have hliteral {w : String × Kind} (hw : w ∈ ("eqn:", Kind.equation) :: keywords ++ marks) :=
    literalLength_of_isOpener hw hp hlength hq rest
  have hequation : equationLength (p ++ q :: rest) = 0 := by
    rw [equationLength, hliteral (w := ("eqn:", .equation)) (by simp)]
    rfl
  obtain ⟨c, s, hhead, hdigit, hspace, hbreak, hhash, hslash⟩ := head_cases hp hq rest
  have hskipped : skippedLength (p ++ q :: rest) = 0 := by
    rw [hhead, skippedLength_of_head hhash hslash]
    simp [run, hspace]
  have hnumber : numberLength (p ++ q :: rest) = 0 := hhead ▸ numberLength_of_head hdigit s
  have hline : lineEndLength first (p ++ q :: rest) = 0 :=
    hhead ▸ lineEndLength_of_not_isBreak hbreak hspace first s
  rw [next_of_literals fun w hw => hliteral (mem_cons_of_mem _ hw), hnumber, hequation, hline,
    nameLength_of_isOpener hp hq rest, hskipped]
  simp [best]

end

theorem next_of_isQuote (hq : isQuote q = true) (first : Bool) (s : List Char) :
    (next first (q :: s)).1 = .token .string ∨ (next first (q :: s)).1 = .token .unknown := by
  have hnext := next_of_quote (p := []) (by simp) (by simp) hq first s
  rw [nil_append] at hnext
  rw [hnext]
  by_cases hzero : stringLength (q :: s) = 0
  · rw [hzero]
    exact .inr rfl
  · have hpos : 0 < stringLength (q :: s) := Nat.pos_of_ne_zero hzero
    left
    have hbest : best (.token .unknown, 0) [(.token .string, stringLength (q :: s)),
        (.token .name, 0), (.token .unknown, 1)] = (.token .string, stringLength (q :: s)) :=
      best_eq [] [_, _] hpos (by simp) (by simp; omega)
    exact congrArg Prod.fst hbest

/-! ### What follows the end of a line -/

/-- The next lexeme, if it ends before the end of a line, is the same whatever follows there,
unless a string goes beyond it. -/
theorem next_append (hp : p ≠ []) (hc : isBreak c = true) (h : next first (p ++ c :: t) = (r, n)) (hn : n ≤ p.length)
    (hstring : stringLength (p ++ c :: t') ≤ p.length) : next first (p ++ c :: t') = (r, n) := by
  have hle : ∀ x ∈ candidates first (p ++ c :: t), x.2 ≤ p.length := by
    intro x hx
    have hbest := le_best (.token .unknown, 0) _ x (mem_cons_of_mem _ hx)
    rw [← next, h] at hbest
    exact Nat.le_trans hbest hn
  have htexts : ∀ w ∈ keywords ++ marks, w.1.toList.all (fun d => !isBreak d) = true := by decide
  have hliteral (w : String × Kind) (hw : w ∈ keywords ++ marks) :
      literalLength w.1 (p ++ c :: t') = literalLength w.1 (p ++ c :: t) :=
    (bounded_literalLength (htexts w hw)).eq p c t t' hc
  have hwords : keywords.map (fun w => (Rule.token w.2, literalLength w.1 (p ++ c :: t'))) =
      keywords.map fun w => (Rule.token w.2, literalLength w.1 (p ++ c :: t)) :=
    map_congr_left fun w hw => by rw [hliteral w (mem_append_left _ hw)]
  have hmarks : marks.map (fun w => (Rule.token w.2, literalLength w.1 (p ++ c :: t'))) =
      marks.map fun w => (Rule.token w.2, literalLength w.1 (p ++ c :: t)) :=
    map_congr_left fun w hw => by rw [hliteral w (mem_append_right _ hw)]
  have hstring' := stringLength_append hp hc
    (hle (.token .string, stringLength (p ++ c :: t)) (by simp [candidates])) hstring
  have hline := local_lineEndLength first p c t t' hp hc
    (hle (.lineEnd, lineEndLength first (p ++ c :: t)) (by simp [candidates]))
  have hskipped := local_skippedLength p c t t' hp hc
    (hle (.skipped, skippedLength (p ++ c :: t)) (by simp [candidates]))
  have hequal : candidates first (p ++ c :: t') = candidates first (p ++ c :: t) := by
    simp only [candidates, ← hstring', hline, hskipped, hwords, hmarks,
      bounded_numberLength.eq p c t t' hc, bounded_equationLength.eq p c t t' hc,
      bounded_nameLength.eq p c t t' hc]
  rw [next, hequal, ← next, h]

/-- If a string goes beyond the end of a line with one text after it, but with another one the
next lexeme ends before, then this is an unclosed mark, or the lexeme after it starts with a mark
and directly follows a name or a string. -/
theorem next_cross (hp : p ≠ []) (hc : isBreak c = true) (h : next first (p ++ c :: t) = (r, n)) (hn : n ≤ p.length)
    (hcross : p.length < stringLength (p ++ c :: t')) :
    r = .token .unknown ∨
      (r = .token .name ∨ r = .token .string) ∧
        ∃ q rest, p.drop n = q :: rest ∧ isQuote q = true := by
  have hsame := opening_append hp c t t'
  cases hopening : opening (p ++ c :: t') with
  | none => simp [stringLength_eq, hopening] at hcross
  | some x =>
    obtain ⟨j, bytes⟩ := x
    rw [stringLength_of_opening hopening] at hcross
    rcases (fst_le_of_opening hp hc hopening).lt_or_eq with hj | rfl
    · obtain ⟨htwo, -, hopeners⟩ := opening_cases hopening
      rw [take_append_of_le_length hj.le] at hopeners
      have hlength : (p.take j).length = j := length_take_of_le hj.le
      have hle := le_best (.token .unknown, 0) (candidates first (p ++ c :: t))
        (.token .string, stringLength (p ++ c :: t)) (by simp [candidates])
      rw [← next, h, stringLength_of_opening (hsame.trans hopening)] at hle
      obtain ⟨q, rest, hrest, hq, hclosed⟩ := quotedLength_cross (p := p.drop j) hc
        ((quotedAfter_le_iff hj.le _).1 (Nat.le_trans hle hn))
        (Nat.not_le.1 fun hle => Nat.not_le.2 hcross ((quotedAfter_le_iff hj.le _).2 hle))
      have hcut : p.take j ++ q :: (rest ++ c :: t) = p ++ c :: t := by
        rw [← cons_append, ← hrest, ← append_assoc, take_append_drop]
      have hnext := next_of_quote hopeners (by omega) hq first (rest ++ c :: t)
      rw [hcut, h, stringLength_of_opening (hsame.trans hopening), quotedAfter,
        drop_append_of_le_length hj.le, hlength] at hnext
      rcases hclosed with hopen | ⟨hempty, rest', rfl⟩
      · rw [hopen] at hnext
        cases j with
        | zero => exact .inl (congrArg Prod.fst hnext)
        | succ j =>
          have hname : (r, n) = (.token .name, j + 1) := by
            rw [hnext]
            simp [best]
          obtain ⟨rfl, rfl⟩ := Prod.mk.inj hname
          exact .inr ⟨.inl rfl, q, rest, hrest, hq⟩
      · have hstring : (r, n) = (.token .string, 2 + j) := by
          rw [hnext, hempty]
          exact best_eq [] [_, _] (Nat.lt_of_lt_of_le Nat.zero_lt_two (Nat.le_add_right 2 j))
            (by simp) (by simp; omega)
        obtain ⟨rfl, rfl⟩ := Prod.mk.inj hstring
        refine .inr ⟨.inr rfl, q, rest', ?_, hq⟩
        rw [Nat.add_comm, ← drop_drop, hrest]
        rfl
    · rw [quotedAfter_length p hc] at hcross
      contradiction

/-! ### The pieces of a text -/

/-- A piece of a text and the rule that takes it. -/
abbrev Piece := Rule × List Char

/-- The text in front of another one is cut into pieces, the last of which ends where the other one
begins. -/
inductive Cuts : Bool → List Char → List Char → List Piece → Prop
  | nil {first : Bool} {u : List Char} : Cuts first [] u []
  | cons {first : Bool} {r : Rule} {w p u : List Char} {ps : List Piece} (hw : w ≠ [])
      (hnext : next first (w ++ p ++ u) = (r, w.length)) (h : Cuts false p u ps) :
      Cuts first (w ++ p) u ((r, w) :: ps)

def ofPieces : List Piece → List Char → List Lexeme
  | [], _ => []
  | (r, w) :: ps, u => ⟨r, w, (ps.flatMap (·.2) ++ u).take 2⟩ :: ofPieces ps u

variable {first : Bool} {p u : List Char} {ps : List Piece}

theorem allFrom_skip (n : Nat) (s : List Char) :
    allFrom false n s = allFrom false 0 (s.drop n) := by
  induction n generalizing s with
  | zero => simp
  | succ n ih =>
    cases s with
    | nil => simp [allFrom]
    | cons c s => rw [allFrom, ih, drop_succ_cons]

theorem next_pos (first : Bool) (s : List Char) : 0 < (next first s).2 :=
  le_best (.token .unknown, 0) (candidates first s) (.token .unknown, 1) (by simp [candidates])

/-- No rule takes more than there is. -/
theorem next_le (hs : s ≠ []) : (next first s).2 ≤ s.length := by
  have hliteral (ws : List (String × Kind)) :
      ∀ w ∈ ws.map fun w => (Rule.token w.2, literalLength w.1 s), w.2 ≤ s.length :=
    forall_mem_map.2 fun w _ => literalLength_le w.1 s
  have hall : ∀ c ∈ (.token .unknown, 0) :: candidates first s, c.2 ≤ s.length := by
    simp only [candidates, forall_mem_append, forall_mem_cons, not_mem_nil, false_imp_iff,
      implies_true, and_true]
    exact ⟨Nat.zero_le _, ⟨⟨⟨⟨stringLength_le s, numberLength_le s⟩, hliteral _⟩,
      equationLength_le s, lineEndLength_le first s, nameLength_le s⟩, hliteral _⟩,
      skippedLength_le s, length_pos_iff.2 hs⟩
  exact hall _ (best_mem _ _)

theorem allFrom_eq (hs : s ≠ []) :
    allFrom first 0 s =
      ⟨(next first s).1, s.take (next first s).2, (s.drop (next first s).2).take 2⟩ ::
        allFrom false 0 (s.drop (next first s).2) := by
  cases s with
  | nil => contradiction
  | cons c s =>
    obtain ⟨n, hn⟩ : ∃ n, (next first (c :: s)).2 = n + 1 :=
      ⟨_, (Nat.succ_pred_eq_of_pos (next_pos first (c :: s))).symm⟩
    rw [allFrom]
    simp [hn, allFrom_skip n s]

theorem Cuts.flatMap_eq (h : Cuts first p u ps) : ps.flatMap (·.2) = p := by
  induction h with
  | nil => rfl
  | cons hw hnext h ih => simp [ih]

theorem Cuts.allFrom_eq (h : Cuts first p u ps) :
    allFrom first 0 (p ++ u) = ofPieces ps u ++ allFrom (first && ps.isEmpty) 0 u := by
  induction h with
  | nil => simp [ofPieces]
  | @cons first r w p u ps hw hnext h ih =>
    rw [Lexeme.allFrom_eq (by simp [hw]), hnext]
    simp [ofPieces, h.flatMap_eq, ih]

theorem exists_cuts {xs ys : List Lexeme} (h : allFrom first 0 s = xs ++ ys) :
    ∃ p u ps, s = p ++ u ∧ Cuts first p u ps ∧ xs = ofPieces ps u ∧
      ys = allFrom (first && ps.isEmpty) 0 u := by
  induction xs generalizing first s with
  | nil => exact ⟨[], s, [], rfl, .nil, rfl, by simpa using h.symm⟩
  | cons x xs ih =>
    have hs : s ≠ [] := by
      rintro rfl
      simp [allFrom] at h
    rw [Lexeme.allFrom_eq hs, cons_append] at h
    obtain ⟨rfl, hrest⟩ := List.cons.inj h
    obtain ⟨p, u, ps, hdrop, hcuts, rfl, hu⟩ := ih hrest
    have hlength : (s.take (next first s).2).length = (next first s).2 :=
      length_take_of_le (next_le hs)
    have hcut : s.take (next first s).2 ++ p ++ u = s := by
      rw [append_assoc, ← hdrop, take_append_drop]
    have hw : s.take (next first s).2 ≠ [] := by
      rw [← length_pos_iff, hlength]
      exact next_pos first s
    refine ⟨_, u, ((next first s).1, _) :: ps, hcut.symm, .cons hw ?_ hcuts, ?_,
      by simpa using hu⟩
    · rw [hcut, hlength]
    · rw [ofPieces, hcuts.flatMap_eq, hdrop]

theorem Cuts.head?_eq (h : Cuts first p u ps) {cs : List Char} (hp : p = c :: cs) :
    (ps.map (·.1)).head? = some (next first (c :: cs ++ u)).1 := by
  rw [← hp]
  cases h with
  | nil => cases hp
  | cons hw hnext h => rw [hnext]; rfl

theorem Cuts.ne_nil (h : Cuts first p u ps) : ∀ x ∈ ps, x.2 ≠ [] := by
  induction h with
  | nil => simp
  | cons hw hnext h ih => exact forall_mem_cons.2 ⟨hw, ih⟩

theorem map_rule_ofPieces (ps : List Piece) (u : List Char) :
    (ofPieces ps u).map (·.rule) = ps.map (·.1) := by
  induction ps with
  | nil => rfl
  | cons x ps ih => simp [ofPieces, ih]

theorem flatMap_text_ofPieces (ps : List Piece) (u : List Char) :
    (ofPieces ps u).flatMap (·.text) = ps.flatMap (·.2) := by
  induction ps with
  | nil => rfl
  | cons x ps ih => simp [ofPieces, ih]

/-- The rules of lexemes in which no mark of a string was left unclosed: no such mark was taken
alone, and no string follows a name or a string. -/
def Quiet (rs : List Rule) : Prop :=
  Rule.token .unknown ∉ rs ∧
  rs.IsChain fun r r' => (r = .token .name ∨ r = .token .string) → r' ≠ .token .string

/-- Such lexemes in front of the end of a line stay what they are whatever follows it. -/
theorem Cuts.congr (h : Cuts first p (c :: t) ps) (hps : Quiet (ps.map (·.1)))
    (hc : isBreak c = true) (t' : List Char) : Cuts first p (c :: t') ps := by
  generalize hu : c :: t = u at h
  induction h with
  | nil => exact .nil
  | @cons first r w p u ps hw hnext h ih =>
    subst hu
    obtain ⟨hunknown, hchain⟩ := hps
    rw [map_cons, mem_cons, not_or] at hunknown
    rw [map_cons] at hchain
    refine .cons hw ?_ (ih ⟨hunknown.2, hchain.tail⟩ rfl)
    have hne : w ++ p ≠ [] := by simp [hw]
    refine next_append hne hc hnext (by simp) (Nat.le_of_not_lt fun hcross => ?_)
    -- a string that crosses the end of the line would have left a mark behind
    rcases next_cross hne hc hnext (by simp) hcross with hr | ⟨hr, q, rest, hdrop, hq⟩
    · exact hunknown.1 hr.symm
    · rw [drop_left] at hdrop
      have hrule := h.head?_eq hdrop
      rw [cons_append] at hrule
      rcases next_of_isQuote hq false (rest ++ c :: t) with hstring | hunknown'
      · rw [hstring] at hrule
        exact (isChain_cons.1 hchain).1 _ hrule hr rfl
      · rw [hunknown'] at hrule
        exact hunknown.2 (mem_of_mem_head? hrule)

end Lexeme

end Boardwright.Syntax
