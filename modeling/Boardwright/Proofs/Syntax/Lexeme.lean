import Boardwright.Proofs.Syntax.Names
import Mathlib.Data.List.TakeWhile

/-!
# How much each rule takes

A rule says how many characters of a text it takes. Most rules take nothing beyond the first end
of a line and do not even look there: they are `Bounded`. The rules for ends of lines and for what
is passed over may take an end of a line; if they end before one, what follows it does not matter
to them either: they are `Local`. Strings are another matter, since a mark that is far away may
close them.
-/

open List

namespace Boardwright.Syntax

variable {P : Char → Bool} {c : Char} {n : Nat} {p : List Char}

namespace Lexeme

/-! ### The rules -/

def rules : List Rule := (candidates false []).map (·.1)

theorem map_fst_candidates (first : Bool) (s : List Char) :
    (candidates first s).map (·.1) = rules := by
  simp [candidates, rules, Function.comp_def]

theorem next_mem_rules (first : Bool) (s : List Char) : (next first s).1 ∈ rules := by
  rcases mem_cons.1 (best_mem (.token .unknown, 0) (candidates first s)) with h | h
  · rw [next, h]
    decide
  · rw [← map_fst_candidates first s]
    exact mem_map_of_mem h

theorem rule_mem_rules {first : Bool} {skip : Nat} {s : List Char} {x : Lexeme}
    (hx : x ∈ allFrom first skip s) : x.rule ∈ rules := by
  obtain ⟨first, c, cs, n, hnext, -⟩ := exists_next hx
  have hmem := next_mem_rules first (c :: cs)
  rwa [hnext] at hmem

theorem token_not_mem_rules {k : Kind} (hk : k ∈ [Kind.newline, .indent, .dedent, .eof]) :
    Rule.token k ∉ rules := by
  revert k
  decide

/-! ### The longest -/

theorem best_append (found : Rule × Nat) (cs ds : List (Rule × Nat)) :
    best found (cs ++ ds) = best (best found cs) ds := by
  induction cs generalizing found with
  | nil => rfl
  | cons c cs ih => simp [best, ih]

theorem best_of_le {found : Rule × Nat} {cs : List (Rule × Nat)} (h : ∀ c ∈ cs, c.2 ≤ found.2) :
    best found cs = found := by
  induction cs with
  | nil => rfl
  | cons c cs ih =>
    rw [forall_mem_cons] at h
    rw [best, if_neg (Nat.not_lt.2 h.1), ih h.2]

/-- The first rule that takes more than those before it and no less than those after it. -/
theorem best_eq {found d : Rule × Nat} (cs ds : List (Rule × Nat)) (hfound : found.2 < d.2)
    (hcs : ∀ c ∈ cs, c.2 < d.2) (hds : ∀ c ∈ ds, c.2 ≤ d.2) :
    best found (cs ++ d :: ds) = d := by
  have hbefore : (best found cs).2 < d.2 := by
    rcases mem_cons.1 (best_mem found cs) with h | h
    · rwa [h]
    · exact hcs _ h
  rw [best_append, best, if_pos hbefore, best_of_le hds]

/-! ### Rules that end with the line -/

theorem isBreak_iff : isBreak c = true ↔ c = '\n' ∨ c = '\r' ∨ c = '\x0c' := by
  simp [isBreak, or_assoc]

theorem eq_false_of_isBreak (h : P '\n' = false ∧ P '\r' = false ∧ P '\x0c' = false)
    (hc : isBreak c = true) : P c = false := by
  rcases isBreak_iff.1 hc with rfl | rfl | rfl
  · exact h.1
  · exact h.2.1
  · exact h.2.2

theorem ne_of_isBreak {d : Char} (hc : isBreak c = true) (hd : isBreak d = false) : c ≠ d := by
  rintro rfl
  simp [hc] at hd

theorem run_append (hc : P c = false) (p t : List Char) : run P (p ++ c :: t) = run P p := by
  induction p with
  | nil => simp [run, hc]
  | cons d p ih => by_cases hd : P d = true <;> simp_all [run]

theorem run_le (P : Char → Bool) (s : List Char) : run P s ≤ s.length :=
  ( takeWhile_prefix P).length_le

/-- A rule that takes nothing beyond the first end of a line, and does not look there. -/
def Bounded (f : List Char → Nat) : Prop :=
  ∀ (p : List Char) (c : Char) (t : List Char), isBreak c = true → f (p ++ c :: t) = f p

theorem bounded_run (h : P '\n' = false ∧ P '\r' = false ∧ P '\x0c' = false) : Bounded (run P) :=
  fun p _ t hc => run_append (eq_false_of_isBreak h hc) p t

theorem bounded_run_isSpace : Bounded (run isSpace) :=
  bounded_run (by decide)

theorem bounded_run_isDigit : Bounded (run Char.isDigit) :=
  bounded_run (by decide)

/-- What is left of a line. -/
theorem bounded_run_not_isBreak : Bounded (run fun c => !isBreak c) :=
  bounded_run (by decide)

theorem bounded_nameLength : Bounded nameLength := by
  intro p c t hc
  cases p with
  | nil =>
    have hstart : Text.isNameStart c = false :=
      eq_false_of_isBreak (by decide) hc
    simp [nameLength, hstart]
  | cons d p =>
    have hpart : Text.isNamePart c = false :=
      eq_false_of_isBreak (by decide) hc
    have hrun := run_append hpart p t
    simp [nameLength, hrun]

theorem bounded_exponentLength : Bounded exponentLength := by
  intro p c t hc
  have hdigit : Char.isDigit c = false :=
    eq_false_of_isBreak (by decide) hc
  cases p with
  | nil =>
    have he : c ≠ 'e' := ne_of_isBreak hc (by decide)
    have hE : c ≠ 'E' := ne_of_isBreak hc (by decide)
    simp [exponentLength, he, hE]
  | cons e p =>
    cases p with
    | nil =>
      have hplus : c ≠ '+' := ne_of_isBreak hc (by decide)
      have hminus : c ≠ '-' := ne_of_isBreak hc (by decide)
      simp [exponentLength, hplus, hminus, run, hdigit]
    | cons d p =>
      have hrun := run_append hdigit (d :: p) t
      have hsigned := run_append hdigit p t
      by_cases hd : d = '+' ∨ d = '-' <;> simp_all [exponentLength]

theorem bounded_basedLength (letter : Char) (isDigit : Char → Bool)
    (hletter : letter.isAlpha = true)
    (hdigit : isDigit '\n' = false ∧ isDigit '\r' = false ∧ isDigit '\x0c' = false) :
    Bounded (basedLength letter isDigit) := by
  intro p c t hc
  match p with
  | [] =>
    have h0 : c ≠ '0' := ne_of_isBreak hc (by decide)
    cases t <;> simp [basedLength, h0]
  | [d] =>
    have hlower : (c.toLower == letter) = false := by
      rw [beq_eq_false_iff_ne]
      rintro rfl
      rcases isBreak_iff.1 hc with rfl | rfl | rfl <;> simp at hletter
    by_cases hd : d = '0' <;> simp_all [basedLength]
  | d :: e :: p =>
    have hrun := run_append (eq_false_of_isBreak hdigit hc) p t
    by_cases hd : d = '0' <;> simp_all [basedLength]

theorem imaginary_append (hc : isBreak c = true) (t : List Char) (hn : n ≤ p.length)
    (otherwise : Nat) : imaginary (p ++ c :: t) n otherwise = imaginary p n otherwise := by
  have hj : c ≠ 'j' := ne_of_isBreak hc (by decide)
  have hJ : c ≠ 'J' := ne_of_isBreak hc (by decide)
  rw [imaginary, imaginary, drop_append_of_le_length hn]
  cases p.drop n <;> simp [hj, hJ]

def pointedLength (s : List Char) (n : Nat) : Nat :=
  match s.drop n with
  | '.' :: cs =>
    match run Char.isDigit cs with
    | 0 => 0
    | m => n + 1 + m
  | _ => 0

def scaledLength (s : List Char) (n : Nat) : Nat :=
  match exponentLength (s.drop n) with
  | 0 => 0
  | m => n + m

/-- The lengths of the numbers that a text may start with, if it starts with `n` digits. -/
def numberLengths (s : List Char) (n : Nat) : List Nat :=
  let whole := if s.head? == some '0' then run (· == '0') s else n
  let pointed := pointedLength s n
  let scaled := scaledLength s n
  let pointedScaled := if pointed = 0 then 0 else scaledLength s pointed
  let based := [basedLength 'o' (fun c => '0' ≤ c && c ≤ '7') s,
    basedLength 'x' (fun c => c.isDigit || ('a' ≤ c.toLower && c.toLower ≤ 'f')) s,
    basedLength 'b' (fun c => c == '0' || c == '1') s].foldl max 0
  let reals := [n, pointed, scaled, pointedScaled].map fun m =>
    if m = 0 then 0 else imaginary s m 0
  [whole, pointed, scaled, pointedScaled, based] ++ reals

theorem pointedLength_append (hc : isBreak c = true) (t : List Char) (hn : n ≤ p.length) :
    pointedLength (p ++ c :: t) n = pointedLength p n := by
  have hdot : c ≠ '.' := ne_of_isBreak hc (by decide)
  have hdigit : Char.isDigit c = false :=
    eq_false_of_isBreak (by decide) hc
  rw [pointedLength, pointedLength, drop_append_of_le_length hn]
  cases p.drop n with
  | nil => simp [hdot]
  | cons d ds =>
    have hrun := run_append hdigit ds t
    by_cases hd : d = '.' <;> simp_all

theorem exponentLength_le (s : List Char) : exponentLength s ≤ s.length := by
  match s with
  | [] => simp [exponentLength]
  | [e] => simp [exponentLength, run]
  | e :: d :: ds =>
    have hrun := run_le Char.isDigit (d :: ds)
    have hsigned := run_le Char.isDigit ds
    by_cases hd : d = '+' ∨ d = '-' <;> grind [exponentLength]

theorem scaledLength_append (hc : isBreak c = true) (t : List Char) (hn : n ≤ p.length) :
    scaledLength (p ++ c :: t) n = scaledLength p n := by
  rw [scaledLength, scaledLength, drop_append_of_le_length hn,
    bounded_exponentLength _ c t hc]

theorem scaledLength_le (hn : n ≤ p.length) : scaledLength p n ≤ p.length := by
  have hexponent := exponentLength_le (p.drop n)
  rw [length_drop] at hexponent
  rw [scaledLength]
  split <;> omega

theorem pointedLength_le : pointedLength p n ≤ p.length := by
  rw [pointedLength]
  split
  · next ds hdrop =>
      have hlength := congrArg List.length hdrop
      have hrun := run_le Char.isDigit ds
      simp only [length_drop, length_cons] at hlength
      split <;> omega
  · exact Nat.zero_le _

theorem numberLength_eq (s : List Char) :
    numberLength s = if run Char.isDigit s = 0 then 0
      else (numberLengths s (run Char.isDigit s)).foldl max 0 := rfl

theorem numberLengths_append (hc : isBreak c = true) (t : List Char) (hpos : 0 < n)
    (hn : n ≤ p.length) : numberLengths (p ++ c :: t) n = numberLengths p n := by
  have hhead : (p ++ c :: t).head? = p.head? := by
    cases p with
    | nil => simp at hn; omega
    | cons d p => rfl
  have hzeros := run_append (P := (· == '0')) (by simpa using ne_of_isBreak hc (by decide)) p t
  have hpointed := pointedLength_append hc t hn
  have hscaled := scaledLength_append hc t hn
  have hboth := scaledLength_append hc t (pointedLength_le (p := p) (n := n))
  have hoctal := bounded_basedLength 'o' (fun c => '0' ≤ c && c ≤ '7')
    (by decide) (by decide) p c t hc
  have hhex := bounded_basedLength 'x'
    (fun c => c.isDigit || ('a' ≤ c.toLower && c.toLower ≤ 'f')) (by decide) (by decide) p c t hc
  have hbinary := bounded_basedLength 'b' (fun c => c == '0' || c == '1')
    (by decide) (by decide) p c t hc
  simp only [numberLengths, hhead, hzeros, hpointed, hscaled, hboth, hoctal, hhex, hbinary]
  congr 1
  simp only [map_cons, map_nil]
  rw [imaginary_append hc t hn, imaginary_append hc t pointedLength_le,
    imaginary_append hc t (scaledLength_le hn), imaginary_append hc t]
  split
  · omega
  · exact scaledLength_le pointedLength_le

theorem bounded_numberLength : Bounded numberLength := by
  intro p c t hc
  rw [numberLength_eq, numberLength_eq, bounded_run_isDigit p c t hc]
  split
  · rfl
  · next hpos => rw [numberLengths_append hc t (Nat.pos_of_ne_zero hpos) (run_le _ p)]

theorem isPrefixOf_append {w : List Char} (hw : ∀ d ∈ w, isBreak d = false) (hc : isBreak c = true)
    (p t : List Char) : w.isPrefixOf (p ++ c :: t) = w.isPrefixOf p := by
  induction w generalizing p with
  | nil => simp
  | cons d w ih =>
    rw [forall_mem_cons] at hw
    cases p with
    | nil => simp [List.isPrefixOf, (ne_of_isBreak hc hw.1).symm]
    | cons e p => simp [List.isPrefixOf, ih hw.2]

theorem bounded_literalLength {text : String}
    (htext : text.toList.all (fun d => !isBreak d) = true) :
    Bounded (literalLength text) := by
  intro p c t hc
  rw [literalLength, literalLength, isPrefixOf_append (by simpa using htext) hc]

theorem literalLength_le (text : String) (s : List Char) : literalLength text s ≤ s.length := by
  rw [literalLength]
  split
  · next h => exact ( isPrefixOf_iff_prefix.1 h).length_le
  · exact Nat.zero_le _

theorem bounded_equationLength : Bounded equationLength := by
  intro p c t hc
  have hword : literalLength "eqn:" (p ++ c :: t) = literalLength "eqn:" p :=
    bounded_literalLength (by decide) p c t hc
  have hrest := bounded_run_not_isBreak (p.drop (literalLength "eqn:" p)) c t hc
  rw [← drop_append_of_le_length (literalLength_le "eqn:" p)] at hrest
  rw [equationLength, equationLength, hword]
  split
  · rfl
  · rw [hrest]

/-! ### Rules that may take the end of a line -/

/-- The rules whose length depends on nothing behind the end of a line, if they end before it. -/
def Local (f : List Char → Nat) : Prop :=
  ∀ (p : List Char) (c : Char) (t t' : List Char), p ≠ [] → isBreak c = true →
    f (p ++ c :: t) ≤ p.length → f (p ++ c :: t') = f (p ++ c :: t)

theorem Bounded.eq {f : List Char → Nat} (hf : Bounded f) (p : List Char) (c : Char)
    (t t' : List Char) (hc : isBreak c = true) : f (p ++ c :: t') = f (p ++ c :: t) :=
  (hf p c t' hc).trans (hf p c t hc).symm

theorem breakLength_cons (d : Char) (s : List Char) :
    breakLength (d :: s) =
      if d = '\r' ∧ s.head? = some '\n' then 2 else if isBreak d then 1 else 0 := by
  rw [breakLength.eq_def]
  split
  · next cs h =>
      obtain ⟨rfl, rfl⟩ := List.cons.inj h
      simp
  · next e cs hne h =>
      obtain ⟨rfl, rfl⟩ := List.cons.inj h
      have hpair : ¬(d = '\r' ∧ s.head? = some '\n') := by
        rintro ⟨rfl, hs⟩
        obtain ⟨us, rfl⟩ := head?_eq_some_iff.1 hs
        exact hne us rfl rfl
      rw [if_neg hpair]
  · contradiction

theorem breakLength_append (hp : p ≠ []) (c : Char) (t t' : List Char) :
    breakLength (p ++ c :: t') = breakLength (p ++ c :: t) := by
  cases p with
  | nil => contradiction
  | cons d p =>
    have hhead : ∀ u, (p ++ c :: u).head? = (p ++ [c]).head? := by cases p <;> simp
    rw [cons_append, cons_append, breakLength_cons, breakLength_cons, hhead t,
      hhead t']

theorem local_lineEndLength (first : Bool) : Local (lineEndLength first) := by
  intro p c t t' hp hc hle
  have hbreak := breakLength_append hp c t t'
  rw [lineEndLength] at hle ⊢
  rw [lineEndLength, hbreak]
  split at hle
  · next h => rw [bounded_run_isSpace p c t hc, bounded_run_isSpace p c t' hc]
  · next h =>
      have hn : breakLength (p ++ c :: t) ≤ p.length := by omega
      rw [drop_append_of_le_length hn, drop_append_of_le_length hn,
        bounded_run_isSpace _ c t hc, bounded_run_isSpace _ c t' hc]

theorem local_skippedLength : Local skippedLength := by
  intro p c t t' hp hc hle
  cases p with
  | nil => contradiction
  | cons d p =>
    by_cases hhash : d = '#'
    · subst hhash
      simp only [cons_append, skippedLength, bounded_run_not_isBreak p c _ hc]
    · by_cases hslash : d = '\\'
      · subst hslash
        have hn := run_le isSpace p
        simp only [cons_append, skippedLength, bounded_run_isSpace p c _ hc,
          drop_append_of_le_length hn] at hle ⊢
        cases hrest : p.drop (run isSpace p) with
        | nil =>
          -- the end of the line belongs to the lexeme, so it does not end before it
          have hlength := congrArg List.length hrest
          have hpos : 0 < breakLength (c :: t) := by
            rw [breakLength_cons, if_pos hc]
            split <;> simp
          rw [hrest, nil_append] at hle
          rw [length_drop, length_nil] at hlength
          rw [length_cons] at hle
          split at hle <;> omega
        | cons e rest => rw [breakLength_append (by simp) c t t']
      · have hskip : ∀ u, skippedLength (d :: p ++ c :: u) = run isSpace (d :: p ++ c :: u) := by
          intro u
          rw [cons_append, skippedLength]
          · simpa using hhash
          · simpa using hslash
        rw [hskip, hskip, bounded_run_isSpace _ c t hc, bounded_run_isSpace _ c t' hc]

/-! ### Rules take no more than there is -/

theorem imaginary_le (s : List Char) (n : Nat) : imaginary s n 0 ≤ s.length := by
  cases h : s.drop n with
  | nil => simp [imaginary, h]
  | cons c cs =>
    have hlength := congrArg List.length h
    rw [length_drop, length_cons] at hlength
    rw [imaginary, h]
    dsimp only
    split <;> omega

theorem basedLength_le (letter : Char) (isDigit : Char → Bool) (s : List Char) :
    basedLength letter isDigit s ≤ s.length := by
  fun_cases basedLength letter isDigit s <;> grind [run_le]

theorem numberLength_le (s : List Char) : numberLength s ≤ s.length := by
  rw [numberLength_eq]
  split
  · exact Nat.zero_le _
  · have hrun := run_le Char.isDigit s
    have hpointed := pointedLength_le (p := s) (n := run Char.isDigit s)
    simp only [numberLengths, map_cons, map_nil, cons_append, nil_append, foldl_cons, foldl_nil,
      Nat.max_le]
    grind [run_le, basedLength_le, imaginary_le, scaledLength_le]

theorem breakLength_le (s : List Char) : breakLength s ≤ s.length := by
  fun_cases breakLength s <;> grind

theorem equationLength_le (s : List Char) : equationLength s ≤ s.length := by
  fun_cases equationLength s <;> grind [run_le, literalLength_le]

theorem lineEndLength_le (first : Bool) (s : List Char) : lineEndLength first s ≤ s.length := by
  fun_cases lineEndLength first s <;> grind [run_le, breakLength_le]

theorem nameLength_le (s : List Char) : nameLength s ≤ s.length := by
  fun_cases nameLength s <;> grind [run_le]

theorem skippedLength_le (s : List Char) : skippedLength s ≤ s.length := by
  fun_cases skippedLength s <;> grind [run_le, breakLength_le]

end Lexeme

end Boardwright.Syntax
