import Boardwright.Proofs.Syntax.BlankLines

/-!
# The width of each line

Each lexeme stands on a line that starts with some spaces: those of the last end of a line before
it. The place of a lexeme tells it apart from the others, so the `indentation` of a place in a text
is the width of these spaces.

The tokens of a text are `Laid` out by it. Each token is on a line that is as wide as the innermost
open indentation, or the line comes after one that was closed and is narrower than that: `Stands`.
Only the lines that the layout does not pass over count, but on a line that is passed over there
is no token: `resumes_allFrom`.
-/

open List

namespace Boardwright

variable {s : List Char} {w : Nat}

/-! ### Places -/

/-- A place that comes before another one. -/
def Pos.Before (p q : Pos) : Prop := p.line < q.line ∨ p.line = q.line ∧ p.column < q.column

namespace Pos.Before

variable {p q r : Pos}

theorem trans (h : p.Before q) (h' : q.Before r) : p.Before r := by
  unfold Before at *
  omega

theorem ne (h : p.Before q) : q ≠ p := by
  rintro rfl
  unfold Before at h
  omega

theorem after (p : Pos) (c : Char) : p.Before (p.after c) := by
  unfold Before Pos.after
  split
  · exact .inl (Nat.lt_succ_self _)
  · exact .inr ⟨rfl, Nat.lt_succ_self _⟩

theorem foldl_after (p : Pos) (hs : s ≠ []) : p.Before (s.foldl Pos.after p) := by
  induction s generalizing p with
  | nil => contradiction
  | cons c s ih =>
    by_cases hempty : s = []
    · subst hempty
      exact after p c
    · exact (after p c).trans (ih (p.after c) hempty)

end Pos.Before

namespace Syntax

variable {xs : List Lexeme} {resting : Bool} {n : Nat}

namespace Lexeme

def lineWidth (w : Nat) (x : Lexeme) : Nat :=
  if x.rule = .lineEnd then Layout.width (Layout.spacesOf x.text) else w

/-- The width of the line that the lexeme at a place is on. The first lexeme is at `pos`, on a line
of width `w`. -/
def widthAt (place : Pos) : Pos → Nat → List Lexeme → Nat
  | _, w, [] => w
  | pos, w, x :: xs =>
    if pos = place then w else widthAt place (x.text.foldl Pos.after pos) (x.lineWidth w) xs

def Agree (ind : Pos → Nat) : Pos → Nat → List Lexeme → Prop
  | _, _, [] => True
  | pos, w, x :: xs => ind pos = w ∧ Agree ind (x.text.foldl Pos.after pos) (x.lineWidth w) xs

theorem agree_widthAt {ind : Pos → Nat} {pos : Pos} (hxs : ∀ x ∈ xs, x.text ≠ [])
    (hind : ∀ place, place = pos ∨ pos.Before place → ind place = widthAt place pos w xs) :
    Agree ind pos w xs := by
  induction xs generalizing pos w with
  | nil => trivial
  | cons x xs ih =>
    rw [forall_mem_cons] at hxs
    have hnext : pos.Before (x.text.foldl Pos.after pos) := .foldl_after pos hxs.1
    refine ⟨by simp [hind pos (.inl rfl), widthAt], ih hxs.2 fun place hplace => ?_⟩
    have hlater : pos.Before place := by
      rcases hplace with rfl | hplace
      · exact hnext
      · exact hnext.trans hplace
    rw [hind place (.inr hlater), widthAt, if_neg hlater.ne.symm]

theorem text_ne_nil {first : Bool} {x : Lexeme} (hx : x ∈ allFrom first 0 s) : x.text ≠ [] := by
  obtain ⟨xs, ys, h⟩ := append_of_mem hx
  obtain ⟨p, u, ps, -, -, -, hu⟩ := exists_cuts h
  cases u with
  | nil => cases hu
  | cons c u =>
    rw [allFrom_eq (cons_ne_nil c u)] at hu
    obtain ⟨rfl, -⟩ := List.cons.inj hu
    have hpos := next_pos (first && ps.isEmpty) (c :: u)
    simpa using Nat.ne_of_gt hpos

/-! ### Lines that are passed over -/

def Resumes : Bool → List Lexeme → Prop
  | _, [] => True
  | resting, x :: xs =>
    match x.rule with
    | .token _ => resting = false ∧ Resumes false xs
    | .skipped => Resumes resting xs
    | .lineEnd => Resumes (({} : Layout).passes x.ahead) xs

/-- What may follow the end of a line that is passed over: an empty line or a comment. -/
def IsOver (s : List Char) : Prop := ∀ c ∈ s.head?, isBreak c = true ∨ c = '#'

theorem isOver_of_passes (h : ({} : Layout).passes (s.take 2) = true) : IsOver s := by
  match s with
  | [] => exact nofun
  | [c] => cases h
  | c :: d :: s =>
    rintro _ ⟨⟩
    have hc : (c = '\n' ∨ c = '\r') ∨ c = '#' := by simpa [Layout.passes] using h
    exact hc.imp_left fun hc => isBreak_iff.2 (hc.imp_right .inl)

theorem resumes_allFrom {first : Bool} (hs : resting = true → IsOver s) :
    Resumes resting (allFrom first 0 s) := by
  induction hlength : s.length using Nat.strong_induction_on generalizing first resting s with
  | _ n ih =>
    cases s with
    | nil => trivial
    | cons c s =>
      rw [allFrom_eq (cons_ne_nil c s)]
      have hshorter : ((c :: s).drop (next first (c :: s)).2).length < n := by
        have hpos := next_pos first (c :: s)
        rw [length_drop, ← hlength]
        exact Nat.sub_lt (by simp) hpos
      -- in an empty line or a comment the next lexeme is no token
      have hcases : resting = true → isBreak c = true ∨ c = '#' := fun h => hs h c rfl
      rw [Resumes]
      split
      · next kind hrule =>
          refine ⟨Bool.eq_false_iff.2 fun hresting => ?_, ih _ hshorter nofun rfl⟩
          rcases hcases hresting with hc | rfl
          · simp [next_of_isBreak hc] at hrule
          · simp [next_hash] at hrule
      · next hrule =>
          refine ih _ hshorter (fun hresting => ?_) rfl
          rcases hcases hresting with hc | rfl
          · simp [next_of_isBreak hc] at hrule
          · rw [next_hash, drop_succ_cons, drop_run]
            intro d hd
            have hbreak := head?_dropWhile_not (fun c => !isBreak c) s
            rw [Option.mem_def.1 hd] at hbreak
            exact .inl (by simpa using hbreak)
      · exact ih _ hshorter isOver_of_passes rfl

end Lexeme

def indentation (text : String) (place : Pos) : Nat :=
  Lexeme.widthAt place ⟨1, 0⟩ 0 (Lexeme.all text.toList)

theorem agree_indentation (text : String) :
    Lexeme.Agree (indentation text) ⟨1, 0⟩ 0 (Lexeme.all text.toList) :=
  Lexeme.agree_widthAt (fun _ => Lexeme.text_ne_nil) fun _ _ => rfl

/-! ### Tokens on their lines -/

/-- Whether a token of a sort is a word or a mark of the text. -/
def Kind.isWord (k : Kind) : Bool := !k.isLayout && k != .eof

/-- The width `n` of a line in an open indentation of width `w`: the line is as wide as this, or
between it and an indentation that is closed in front of the line. -/
def Stands (w : Nat) (closed : Option Nat) (n : Nat) : Prop :=
  n = w ∨ ∃ v ∈ closed, w < n ∧ n < v

theorem stands_none : Stands w none n ↔ n = w := by simp [Stands]

theorem stands_some {v : Nat} : Stands w (some v) n ↔ n = w ∨ w < n ∧ n < v := by simp [Stands]

theorem Stands.le {closed : Option Nat} (h : Stands w closed n) : w ≤ n := by
  rcases h with rfl | ⟨v, -, hn, -⟩
  · exact Nat.le_refl n
  · exact Nat.le_of_lt hn

/-- Tokens on lines of the widths `ind`, in a line of width `n` with the indentations `ws` open. The
widest of those that were closed in front of this line and left the others open is `closed`. -/
inductive Laid (ind : Pos → Nat) : List Nat → Option Nat → Nat → List Token → Prop
  | eof {ws : List Nat} {closed : Option Nat} {n : Nat} {t : Token} (ht : t.kind = .eof) :
    Laid ind ws closed n [t]
  | word {ws : List Nat} {closed : Option Nat} {n : Nat} {t : Token} {ts : List Token}
    (ht : t.kind.isWord = true) (hind : ind t.pos = n) (hn : Stands (ws.headD 0) closed n)
    (h : Laid ind ws closed n ts) : Laid ind ws closed n (t :: ts)
  | newline {ws : List Nat} {closed : Option Nat} {n n' : Nat} {t : Token} {ts : List Token}
    (ht : t.kind = .newline) (h : Laid ind ws none n' ts) : Laid ind ws closed n (t :: ts)
  | indent {ws : List Nat} {n : Nat} {t : Token} {ts : List Token} (ht : t.kind = .indent)
    (hn : ws.headD 0 < n) (h : Laid ind (n :: ws) none n ts) : Laid ind ws none n (t :: ts)
  | dedent {ws : List Nat} {closed : Option Nat} {n v : Nat} {t : Token} {ts : List Token}
    (ht : t.kind = .dedent) (hn : n < v) (h : Laid ind ws (some v) n ts) :
    Laid ind (v :: ws) closed n (t :: ts)

namespace Laid

variable {ind : Pos → Nat} {ws : List Nat} {closed : Option Nat} {n v : Nat} {t : Token}
  {ts : List Token}

theorem of_word (h : Laid ind ws closed n (t :: ts)) (ht : t.kind.isWord = true) :
    ind t.pos = n ∧ Stands (ws.headD 0) closed n ∧ Laid ind ws closed n ts := by
  cases h with
  | word _ hind hn h => exact ⟨hind, hn, h⟩
  | eof hkind | newline hkind | indent hkind | dedent hkind =>
    simp [hkind, Kind.isWord, Kind.isLayout] at ht

theorem of_words {us : List Token} (h : Laid ind ws closed n (us ++ ts))
    (hus : ∀ u ∈ us, u.kind.isWord = true) : Laid ind ws closed n ts := by
  induction us with
  | nil => exact h
  | cons u us ih =>
    rw [forall_mem_cons] at hus
    exact ih (h.of_word hus.1).2.2 hus.2

theorem of_newline (h : Laid ind ws closed n (t :: ts)) (ht : t.kind = .newline) :
    ∃ n', Laid ind ws none n' ts := by
  cases h with
  | newline _ h => exact ⟨_, h⟩
  | word hkind => simp [ht, Kind.isWord, Kind.isLayout] at hkind
  | eof hkind | indent hkind | dedent hkind => simp [ht] at hkind

theorem of_indent (h : Laid ind ws closed n (t :: ts)) (ht : t.kind = .indent) :
    ws.headD 0 < n ∧ Laid ind (n :: ws) none n ts := by
  cases h with
  | indent _ hn h => exact ⟨hn, h⟩
  | word hkind => simp [ht, Kind.isWord, Kind.isLayout] at hkind
  | eof hkind | newline hkind | dedent hkind => simp [ht] at hkind

theorem of_dedent (h : Laid ind (v :: ws) closed n (t :: ts)) (ht : t.kind = .dedent) :
    n < v ∧ Laid ind ws (some v) n ts := by
  cases h with
  | dedent _ hn h => exact ⟨hn, h⟩
  | word hkind => simp [ht, Kind.isWord, Kind.isLayout] at hkind
  | eof hkind | newline hkind | indent hkind => simp [ht] at hkind

end Laid

namespace Layout

variable {ind : Pos → Nat} {ws : List Nat} {closed : Option Nat} {n : Nat} {ts : List Token}

/-- The last indentation that is closed in front of a line of a width. -/
def closedAt (ws : List Nat) (n : Nat) : Option Nat := (ws.takeWhile (n < ·)).getLast?

theorem headD_dropWhile_le (ws : List Nat) (n : Nat) : (ws.dropWhile (n < ·)).headD 0 ≤ n := by
  induction ws with
  | nil => exact Nat.zero_le n
  | cons w ws ih => by_cases h : n < w <;> simp_all

/-- A line stands in the innermost indentation that is open in it. -/
theorem stands_indentsAt (ws : List Nat) (n : Nat) :
    Stands ((indentsAt ws n).headD 0) (closedAt ws n) n := by
  rw [indentsAt]
  split
  · exact .inl rfl
  · next hle =>
      rcases Nat.eq_or_lt_of_le (headD_dropWhile_le ws n) with heq | hlt
      · exact .inl heq.symm
      · -- what is open is narrower than the line, so something wider was closed
        have hne : ws.takeWhile (n < ·) ≠ [] := by
          intro hnil
          have hall := takeWhile_append_dropWhile (p := (n < ·)) (l := ws)
          rw [hnil, nil_append] at hall
          rw [hall] at hlt
          exact hle hlt
        refine .inr ⟨_, getLast?_eq_some_getLast hne, hlt, ?_⟩
        simpa using mem_takeWhile_imp (getLast_mem hne)

theorem laid_dedents (pos : Pos)
    (h : Laid ind (ws.dropWhile (n < ·)) ((closedAt ws n).or closed) n ts) :
    Laid ind ws closed n
      (.replicate (ws.takeWhile (n < ·)).length ⟨.dedent, "", pos⟩ ++ ts) := by
  induction ws generalizing closed with
  | nil => exact h
  | cons w ws ih =>
    by_cases hw : n < w
    · simp only [closedAt, hw, takeWhile_cons, dropWhile_cons, decide_true, if_true,
        length_cons, replicate_succ, cons_append] at h ⊢
      refine .dedent rfl hw (ih ?_)
      rw [getLast?_cons] at h
      rw [closedAt]
      cases hlast : (ws.takeWhile (n < ·)).getLast? with
      | none => simpa [hlast] using h
      | some v => simpa [hlast] using h
    · simpa [closedAt, hw] using h

/-- The tokens in front of a line open and close the indentations up to it. -/
theorem laid_marksAt {spaces : List Char} (pos : Pos)
    (h : Laid ind (indentsAt ws (width spaces)) (closedAt ws (width spaces)) (width spaces) ts) :
    Laid ind ws none (width spaces) (marksAt ws spaces pos ++ ts) := by
  rw [indentsAt] at h
  rw [marksAt]
  split
  · next hlt =>
      rw [if_pos hlt] at h
      have hnone : closedAt ws (width spaces) = none := by
        cases ws with
        | nil => rfl
        | cons w ws =>
          have hw : ¬width spaces < w := Nat.not_lt.2 (Nat.le_of_lt hlt)
          simp [closedAt, hw]
      rw [hnone] at h
      exact .indent rfl hlt h
  · next hle =>
      rw [if_neg hle] at h
      exact laid_dedents pos (by rwa [Option.or_none])

theorem laid_finish (l : Layout) (closed : Option Nat) (n : Nat) :
    Laid ind l.indents closed n l.finish := by
  rw [finish]
  split
  · exact .eof rfl
  · have hclose : Laid ind l.indents none 0
        ((close l.pos 0 l.indents).1 ++ [⟨.eof, "<EOF>", l.pos⟩]) := by
      rw [close_eq]
      exact laid_dedents l.pos (.eof rfl)
    exact .newline rfl hclose

/-- The layout puts tokens on their lines. While a line is passed over, `resting` says so, and no token
comes before the next line. -/
theorem laid_tokensFrom {l : Layout} (hl : l.brackets = 0)
    (hxs : ∀ x ∈ xs, ∀ k, x.rule = .token k → bracket k = 0 ∧ k.isWord = true)
    (hagree : Lexeme.Agree ind l.pos w xs) (hresting : Lexeme.Resumes resting xs)
    (hn : resting = false → n = w ∧ Stands l.current closed n) :
    Laid ind l.indents closed n (l.tokensFrom xs) := by
  induction xs generalizing l w resting closed n with
  | nil => exact laid_finish l closed n
  | cons x xs ih =>
    rw [forall_mem_cons] at hxs
    obtain ⟨hind, hagree⟩ := hagree
    rw [Lexeme.lineWidth] at hagree
    rw [Lexeme.Resumes] at hresting
    rw [tokensFrom, step]
    cases hrule : x.rule with
    | token kind =>
      simp only [hrule, reduceCtorEq, if_false] at hagree hresting
      obtain ⟨rfl, hresting⟩ := hresting
      obtain ⟨rfl, hstands⟩ := hn rfl
      obtain ⟨hbracket, hword⟩ := hxs.1 kind hrule
      have hl' : l.brackets + bracket kind = 0 := by rw [hl, hbracket, Int.add_zero]
      exact .word hword hind hstands
        (ih (l := { l.advance x.text with brackets := l.brackets + bracket kind }) hl' hxs.2
          hagree hresting fun _ => ⟨rfl, hstands⟩)
    | skipped =>
      simp only [hrule, reduceCtorEq, if_false] at hagree hresting
      exact ih (l := l.advance x.text) hl hxs.2 hagree hresting hn
    | lineEnd =>
      have hpasses : ({} : Layout).passes x.ahead = l.passes x.ahead := by simp [passes, hl]
      simp only [hrule, if_true, hpasses] at hagree hresting
      cases hpass : l.passes x.ahead with
      | true =>
        simp only [endLine_of_passes hpass]
        rw [hpass] at hresting
        exact ih (l := l.advance x.text) hl hxs.2 hagree hresting (by simp)
      | false =>
        simp only [endLine_eq hpass]
        rw [hpass] at hresting
        exact .newline rfl (laid_marksAt _
          (ih (l := { l.advance x.text with
              indents := indentsAt l.indents (width (spacesOf x.text)) })
            hl hxs.2 hagree hresting fun _ => ⟨rfl, stands_indentsAt _ _⟩))

end Layout

theorem laid_tokens {text : String} (h : ∀ t ∈ tokens text, Layout.bracket t.kind = 0) :
    Laid (indentation text) [] none 0 (tokens text) := by
  have hresting : Lexeme.Resumes false (Lexeme.all text.toList) := Lexeme.resumes_allFrom nofun
  refine Layout.laid_tokensFrom (l := {}) rfl (fun x hx k hrule => ?_) (agree_indentation text)
    hresting fun _ => ⟨rfl, .inl rfl⟩
  obtain ⟨t, ht, rfl⟩ := Layout.exists_of_rule (l := {}) hx hrule
  refine ⟨h t ht, ?_⟩
  have hkind : ∀ k ∈ [Kind.newline, .indent, .dedent, .eof], t.kind ≠ k := by
    rintro k hk rfl
    exact Lexeme.token_not_mem_rules hk (hrule ▸ Lexeme.rule_mem_rules hx)
  simp [Kind.isWord, Kind.isLayout, hkind]

end Syntax

end Boardwright
