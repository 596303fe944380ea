import Boardwright.Proofs.Syntax.Cut
import Boardwright.Proofs.Syntax.Layout

/-!
# What blank lines change

Outside brackets, what counts of a lexeme is the token it makes or the line it begins: an `Event`.
The tokens of a text, apart from their places, depend on its events and on nothing else:
`map_bare_tokensFrom`.

A blank line is taken up by the mark that ends the line before it and by a mark of its own. The
first of them is passed over, because an empty line or a comment follows it, and the second does
what the first did before. Only at the beginning and at the end of a text is this different:
`alters_events` says which events a blank line may change.
-/

open List

namespace Boardwright.Syntax

variable {c : Char} {m v w b t v' a : List Char} {ps : List Lexeme.Piece}

/-! ### Events -/

/-- What counts of a lexeme: a token, or a line that starts with some spaces. -/
inductive Event
  | token (kind : Kind) (text : List Char)
  | line (spaces : List Char)

def Lexeme.event (x : Lexeme) : Option Event :=
  match x.rule with
  | .token kind => some (.token kind x.text)
  | .lineEnd => if ({} : Layout).passes x.ahead then none else some (.line (Layout.spacesOf x.text))
  | .skipped => none

def events (xs : List Lexeme) : List Event := xs.filterMap Lexeme.event

/-- A token without its place; the text of the end of a line, which depends on how the line was
ended, does not count. -/
def Token.bare (t : Token) : Token := ⟨t.kind, if t.kind = .newline then "" else t.text, ⟨1, 0⟩⟩

@[simp] theorem Token.kind_bare (t : Token) : t.bare.kind = t.kind := rfl

def lineToken : Token := ⟨.newline, "", ⟨1, 0⟩⟩

def endToken : Token := ⟨.eof, "<EOF>", ⟨1, 0⟩⟩

namespace Layout

def lay : List Nat → List Event → List Token
  | ws, [] =>
    (if ws.isEmpty then [] else lineToken :: marksAt ws [] ⟨1, 0⟩) ++ [endToken]
  | ws, .token kind text :: es => Token.bare ⟨kind, String.ofList text, ⟨1, 0⟩⟩ :: lay ws es
  | ws, .line spaces :: es =>
    lineToken :: marksAt ws spaces ⟨1, 0⟩ ++ lay (indentsAt ws (width spaces)) es

theorem map_bare_marksAt (ws : List Nat) (spaces : List Char) (pos : Pos) :
    (marksAt ws spaces pos).map Token.bare = marksAt ws spaces ⟨1, 0⟩ := by
  rw [marksAt, marksAt]
  split <;> simp [Token.bare]

theorem map_bare_finish (l : Layout) : l.finish.map Token.bare = lay l.indents [] := by
  have hclose : (close l.pos 0 l.indents).1 = marksAt l.indents [] l.pos := by
    rw [close_eq, marksAt, if_neg (show ¬l.indents.headD 0 < width [] from Nat.not_lt_zero _)]
    rfl
  rw [finish, hclose, lay, map_append]
  split
  · rfl
  · rw [map_cons, map_bare_marksAt]
    rfl

/-- Outside brackets, the tokens of a text depend on what its lexemes do, and on nothing else. -/
theorem map_bare_tokensFrom {l : Layout} {xs : List Lexeme} (hl : l.brackets = 0)
    (hxs : ∀ x ∈ xs, ∀ k, x.rule = .token k → bracket k = 0) :
    (l.tokensFrom xs).map Token.bare = lay l.indents (events xs) := by
  induction xs generalizing l with
  | nil => exact map_bare_finish l
  | cons x xs ih =>
    rw [forall_mem_cons] at hxs
    have hpasses : l.passes x.ahead = ({} : Layout).passes x.ahead := by simp [passes, hl]
    rw [tokensFrom, map_append, events, filterMap_cons]
    cases hrule : x.rule with
    | token kind =>
      have hbracket := hxs.1 kind hrule
      simp only [step, hrule, Lexeme.event]
      rw [ih (by simp [hl, hbracket]) hxs.2]
      rfl
    | skipped =>
      simp only [step, hrule, Lexeme.event]
      rw [ih (by simpa [advance] using hl) hxs.2]
      rfl
    | lineEnd =>
      simp only [step, hrule, Lexeme.event]
      rw [← hpasses]
      cases hover : l.passes x.ahead with
      | true =>
        rw [endLine_of_passes hover, ih (by simpa [advance] using hl) hxs.2]
        rfl
      | false =>
        rw [endLine_eq hover, ih (by simpa [advance] using hl) hxs.2]
        rw [map_cons, map_bare_marksAt]
        rfl

end Layout

open Lexeme

theorem events_append (xs ys : List Lexeme) : events (xs ++ ys) = events xs ++ events ys :=
  filterMap_append

theorem events_cons (x : Lexeme) (xs : List Lexeme) :
    events (x :: xs) = x.event.toList ++ events xs := by
  rw [events, filterMap_cons, ← events]
  cases x.event <;> rfl

/-! ### Beginnings of lines -/

def IsMark (m : List Char) : Prop :=
  m = ['\n'] ∨ m = ['\r'] ∨ m = ['\r', '\n'] ∨ m = ['\x0c']

/-- A mark ends a line in front of a text, if it does not become another mark there. -/
def EndsLine (m b : List Char) : Prop := IsMark m ∧ ¬(m = ['\r'] ∧ b.head? = some '\n')

theorem EndsLine.breakLength_eq (h : EndsLine m b) :
    breakLength (m ++ b) = m.length := by
  obtain ⟨rfl | rfl | rfl | rfl, hr⟩ := h
  · rfl
  · rw [singleton_append, breakLength_cons, if_neg (by simpa using hr)]
    rfl
  · rfl
  · rfl

theorem IsMark.exists_cons (h : IsMark m) : ∃ c cs, m = c :: cs ∧ isBreak c = true := by
  rcases h with rfl | rfl | rfl | rfl <;> exact ⟨_, _, rfl, by decide⟩

theorem IsMark.isBreak {m : List Char} (h : IsMark m) : ∀ c ∈ m, isBreak c = true := by
  rcases h with rfl | rfl | rfl | rfl <;> simp [Lexeme.isBreak]

theorem isBreak_of_isSpace (hc : isSpace c = true) : isBreak c = false := by
  have hcases : c = ' ' ∨ c = '\t' := by simpa [isSpace] using hc
  rcases hcases with rfl | rfl <;> decide

theorem takeWhile_isBreak (hw : ∀ c ∈ w, isSpace c = true) : w.takeWhile isBreak = [] := by
  cases w with
  | nil => rfl
  | cons c w => simp [isBreak_of_isSpace (hw c (by simp))]

theorem drop_run (P : Char → Bool) (s : List Char) : s.drop (run P s) = s.dropWhile P := by
  induction s with
  | nil => rfl
  | cons c s ih => by_cases hc : P c = true <;> simp_all [run]

theorem take_run (P : Char → Bool) (s : List Char) : s.take (run P s) = s.takeWhile P :=
  (prefix_iff_eq_take.1 ( takeWhile_prefix P)).symm

theorem spacesOf_append (hm : ∀ c ∈ m, isBreak c = true) (hw : ∀ c ∈ w, isSpace c = true) :
    Layout.spacesOf (m ++ w) = w := by
  have hbreaks : m.filter (fun c => !isBreak c) = [] := by simpa using hm
  have hspaces : w.filter (fun c => !isBreak c) = w := by
    simpa using fun c hc => isBreak_of_isSpace (hw c hc)
  rw [Layout.spacesOf, filter_append, hbreaks, hspaces, nil_append]

/-- What happens in a text from the beginning of a line on. -/
def after (b : List Char) : List Event :=
  (if ({} : Layout).passes ((b.dropWhile isSpace).take 2) then []
    else [.line (b.takeWhile isSpace)]) ++ events (allFrom false 0 (b.dropWhile isSpace))

theorem EndsLine.allFrom_eq (h : EndsLine m b) (first : Bool) :
    allFrom first 0 (m ++ b) =
      ⟨.lineEnd, m ++ b.takeWhile isSpace, (b.dropWhile isSpace).take 2⟩ ::
        allFrom false 0 (b.dropWhile isSpace) := by
  obtain ⟨c, cs, rfl, hc⟩ := h.1.exists_cons
  have hlength : lineEndLength first (c :: cs ++ b) = (c :: cs).length + run isSpace b := by
    rw [lineEndLength, h.breakLength_eq]
    change (c :: cs).length + run isSpace ((c :: cs ++ b).drop (c :: cs).length) = _
    rw [drop_left]
  rw [Lexeme.allFrom_eq (by simp), cons_append, next_of_isBreak hc, ← cons_append,
    hlength, take_length_add_append, drop_length_add_append, drop_run, take_run]

theorem EndsLine.events_allFrom (h : EndsLine m b) (first : Bool) :
    events (allFrom first 0 (m ++ b)) = after b := by
  have hspaces := spacesOf_append h.1.isBreak (all_eq_true.1 (b.all_takeWhile (p := isSpace)))
  rw [h.allFrom_eq, events_cons, after]
  simp only [Lexeme.event, hspaces]
  split <;> rfl

/-- What happens in a text from its beginning on. -/
def start (b : List Char) : List Event := events (allFrom true 0 b)

/-- Spaces at the beginning of a text are those of a line. -/
theorem start_of_isSpace (hc : isSpace c = true) (s : List Char) :
    start (c :: s) = after (c :: s) := by
  have hspaces : Layout.spacesOf ((c :: s).takeWhile isSpace) = (c :: s).takeWhile isSpace :=
    spacesOf_append (m := []) (by simp)
      (all_eq_true.1 ((c :: s).all_takeWhile (p := isSpace)))
  rw [start, Lexeme.allFrom_eq (by simp), next_of_isSpace hc, take_run, drop_run, events_cons,
    after]
  simp only [Lexeme.event, hspaces]
  split <;> rfl

theorem allFrom_of_not_isSpace (hc : isSpace c = false) (s : List Char) :
    allFrom true 0 (c :: s) = allFrom false 0 (c :: s) := by
  have hline : lineEndLength true (c :: s) = lineEndLength false (c :: s) := by
    rw [lineEndLength, lineEndLength]
    split
    · simp [run, hc]
    · rfl
  have hnext : next true (c :: s) = next false (c :: s) := by
    simp only [Lexeme.next, candidates, hline]
  rw [Lexeme.allFrom_eq (by simp), hnext, ← Lexeme.allFrom_eq (by simp)]

/-- The beginning of a text is that of a line, except that the line is the first. -/
theorem after_eq_start (b : List Char) : after b = start b ∨ after b = .line [] :: start b := by
  cases b with
  | nil => exact .inr rfl
  | cons c s =>
    cases hc : isSpace c with
    | true => exact .inl (start_of_isSpace hc s).symm
    | false =>
      rw [after, start, allFrom_of_not_isSpace hc, takeWhile_cons_of_neg (by simp [hc]),
        dropWhile_cons_of_neg (by simp [hc])]
      split
      · exact .inl rfl
      · exact .inr rfl

theorem after_nil : after [] = [.line []] := rfl

/-- An empty line counts only at the end of a text. -/
theorem after_newline (b : List Char) :
    after ('\n' :: b) = (if b = [] then [.line []] else []) ++ after b := by
  have hends : EndsLine ['\n'] b := ⟨.inl rfl, by simp⟩
  rw [after, takeWhile_cons_of_neg (by decide), dropWhile_cons_of_neg (by decide),
    ← singleton_append, hends.events_allFrom]
  cases b <;> rfl

/-! ### Blank lines -/

/-- A line that holds only spaces and tabs, or only these and a comment. -/
structure BlankLine where
  spaces : List Char
  comment : List Char
  mark : List Char
  isSpace : ∀ c ∈ spaces, Lexeme.isSpace c = true
  isComment : comment = [] ∨ ∃ body, comment = '#' :: body ∧ ∀ c ∈ body, isBreak c = false
  isMark : mark = ['\n'] ∨ mark = ['\r'] ∨ mark = ['\r', '\n']

namespace BlankLine

variable (l : BlankLine)

def text : List Char := l.spaces ++ l.comment ++ l.mark

/-- What happens in a text from the mark of a blank line in front of it on. A mark may become
another one with the first character of the text. -/
def resume (b : List Char) : List Event :=
  if l.mark = ['\r'] ∧ b.head? = some '\n' then after b.tail else after b

theorem events_mark (first : Bool) (b : List Char) :
    events (allFrom first 0 (l.mark ++ b)) = l.resume b := by
  have hmark : IsMark l.mark := by
    rcases l.isMark with h | h | h <;> simp [IsMark, h]
  rw [resume]
  split
  · next h =>
      obtain ⟨hr, hhead⟩ := h
      obtain ⟨us, rfl⟩ := head?_eq_some_iff.1 hhead
      have hends : EndsLine ['\r', '\n'] us := ⟨by simp [IsMark], by simp⟩
      rw [hr]
      exact hends.events_allFrom first
  · next h => exact EndsLine.events_allFrom ⟨hmark, h⟩ first

theorem mark_cons : ∃ c cs, l.mark = c :: cs ∧ isBreak c = true := by
  rcases l.isMark with h | h | h <;> exact ⟨_, _, h, by decide⟩

theorem events_comment (first : Bool) (b : List Char) :
    events (allFrom first 0 (l.comment ++ (l.mark ++ b))) = l.resume b := by
  rcases l.isComment with h | ⟨body, h, hbody⟩
  · rw [h, nil_append, events_mark]
  · obtain ⟨c, cs, hmark, hc⟩ := l.mark_cons
    have hrun : run (fun c => !isBreak c) (body ++ (l.mark ++ b)) = body.length := by
      rw [hmark, cons_append, run_append (by simp [hc]), run, takeWhile_eq_self_iff.2]
      simpa using hbody
    rw [h, cons_append, Lexeme.allFrom_eq (by simp), next_hash, hrun]
    simp only [drop_succ_cons, drop_left]
    rw [← l.events_mark false b]
    rfl

theorem exists_head (b : List Char) :
    ∃ c cs, l.comment ++ l.mark ++ b = c :: cs ∧ Lexeme.isSpace c = false ∧
      (c = '\n' ∨ c = '\r' ∨ c = '#') := by
  rcases l.isComment with h | ⟨body, h, -⟩
  · rcases l.isMark with hm | hm | hm <;>
      exact ⟨_, _, by rw [h, hm]; rfl, by decide, by decide⟩
  · exact ⟨_, _, by rw [h]; rfl, by decide, by decide⟩

theorem passes_take (b : List Char) :
    ({} : Layout).passes ((l.comment ++ l.mark ++ b).take 2) =
      decide (2 ≤ (l.comment ++ l.mark ++ b).length) := by
  obtain ⟨c, cs, h, -, hc⟩ := l.exists_head b
  rw [h]
  cases cs with
  | nil => rfl
  | cons d ds => rcases hc with rfl | rfl | rfl <;> simp [Layout.passes]

theorem after_text (b : List Char) :
    after (l.text ++ b) =
      (if 2 ≤ (l.comment ++ l.mark ++ b).length then [] else [.line l.spaces]) ++ l.resume b := by
  obtain ⟨c, cs, hcut, hc, -⟩ := l.exists_head b
  have htext : l.text ++ b = l.spaces ++ (l.comment ++ l.mark ++ b) := by simp [text]
  have htake : (l.text ++ b).takeWhile Lexeme.isSpace = l.spaces := by
    rw [htext, hcut, takeWhile_append_of_pos l.isSpace,
      takeWhile_cons_of_neg (by simp [hc]), append_nil]
  have hdrop : (l.text ++ b).dropWhile Lexeme.isSpace = l.comment ++ l.mark ++ b := by
    rw [htext, dropWhile_append_of_pos l.isSpace, hcut,
      dropWhile_cons_of_neg (by simp [hc])]
  rw [after, htake, hdrop, l.passes_take]
  rw [append_assoc l.comment, l.events_comment]
  simp

theorem text_eq_of_head (h : (l.text ++ b).head? = some '\n') :
    l.text = ['\n'] ∧ l.mark = ['\n'] := by
  cases hspaces : l.spaces with
  | cons c cs =>
    have hc := l.isSpace c (by simp [hspaces])
    have hhead : c = '\n' := by simpa [text, hspaces] using h
    subst hhead
    contradiction
  | nil =>
    rcases l.isComment with hcomment | ⟨body, hcomment, -⟩
    · rcases l.isMark with hmark | hmark | hmark
      · simp [text, hspaces, hcomment, hmark]
      · simp [text, hspaces, hcomment, hmark] at h
      · simp [text, hspaces, hcomment, hmark] at h
    · simp [text, hspaces, hcomment] at h

theorem start_text (h : l.spaces = [] ∨ 2 ≤ (l.comment ++ l.mark ++ b).length) :
    start (l.text ++ b) = l.resume b := by
  cases hspaces : l.spaces with
  | nil =>
    rw [start, text, hspaces, nil_append, append_assoc, l.events_comment]
  | cons c cs =>
    have hc : Lexeme.isSpace c = true := l.isSpace c (by simp [hspaces])
    have hlength : 2 ≤ (l.comment ++ l.mark ++ b).length :=
      h.resolve_left (by simp [hspaces])
    have hafter := l.after_text b
    rw [if_pos hlength, nil_append] at hafter
    rw [← hafter, text, hspaces]
    exact start_of_isSpace hc _

/-- The mark of a blank line takes away the beginning of a text only if it becomes another mark;
this counts if the text has nothing else. -/
theorem resume_cases (b : List Char) :
    l.resume b = after b ∨
      b = ['\n'] ∧ l.resume b = [.line []] ∧ after b = [.line [], .line []] := by
  rw [resume]
  split
  · next h =>
      obtain ⟨us, rfl⟩ := head?_eq_some_iff.1 h.2
      rw [after_newline, tail_cons]
      cases us with
      | nil => exact .inr ⟨rfl, rfl, rfl⟩
      | cons d ds => exact .inl rfl
  · exact .inl rfl

/-- At the beginning of a text, a blank line makes no difference, or the end of a line. -/
theorem resume_start (b : List Char) :
    l.resume b = start b ∨ l.resume b = .line [] :: start b := by
  rw [resume]
  split
  · next h =>
      obtain ⟨us, rfl⟩ := head?_eq_some_iff.1 h.2
      have hends : EndsLine ['\n'] us := ⟨.inl rfl, by simp⟩
      exact .inl (hends.events_allFrom true).symm
  · exact after_eq_start b

end BlankLine

/-! ### What comes before a blank line -/

theorem passes_take_append {d d' : Char} :
    ({} : Layout).passes ((t ++ c :: d :: v).take 2) =
      ({} : Layout).passes ((t ++ c :: d' :: v').take 2) := by
  match t with
  | [] => simp [Layout.passes]
  | [_] => simp [Layout.passes]
  | _ :: _ :: _ => simp [Layout.passes]

theorem passes_take_append_singleton (ht : t ≠ []) :
    ({} : Layout).passes ((t ++ [c]).take 2) = ({} : Layout).passes ((t ++ c :: v).take 2) := by
  match t with
  | [_] => simp [Layout.passes]
  | _ :: _ :: _ => simp [Layout.passes]

theorem event_congr {r : Rule} {ahead ahead' : List Char}
    (h : ({} : Layout).passes ahead = ({} : Layout).passes ahead') :
    Lexeme.event ⟨r, w, ahead⟩ = Lexeme.event ⟨r, w, ahead'⟩ := by
  cases r <;> simp [Lexeme.event, h]

theorem events_ofPieces_cons (x : Lexeme.Piece) (ps : List Lexeme.Piece) (u : List Char) :
    events (ofPieces (x :: ps) u) =
      (Lexeme.event ⟨x.1, x.2, (ps.flatMap (·.2) ++ u).take 2⟩).toList ++ events (ofPieces ps u) :=
  events_cons _ _

/-- Of what follows some pieces, the first character counts for them and whether there is
another. -/
theorem events_ofPieces (ps : List Lexeme.Piece) (c d d' : Char) :
    events (ofPieces ps (c :: d :: v)) = events (ofPieces ps (c :: d' :: v')) := by
  induction ps with
  | nil => rfl
  | cons x ps ih =>
    rw [events_ofPieces_cons, events_ofPieces_cons, ih, event_congr passes_take_append]

/-- If there is no other, the last piece may be the end of a line that counts then only. -/
theorem events_ofPieces_singleton (hps : ∀ x ∈ ps, x.2 ≠ []) (c d : Char) (v : List Char) :
    events (ofPieces ps [c]) = events (ofPieces ps (c :: d :: v)) ∨
      ∃ w, events (ofPieces ps [c]) = events (ofPieces ps (c :: d :: v)) ++ [.line w] := by
  induction ps with
  | nil => exact .inl rfl
  | cons x ps ih =>
    rw [forall_mem_cons] at hps
    cases ps with
    | nil =>
      obtain ⟨r, w⟩ := x
      cases r with
      | lineEnd =>
        simp only [ofPieces, events_cons, flatMap_nil, nil_append, Lexeme.event]
        cases hpasses : ({} : Layout).passes ((c :: d :: v).take 2) with
        | true => exact .inr ⟨_, rfl⟩
        | false => exact .inl rfl
      | token kind => exact .inl rfl
      | skipped => exact .inl rfl
    | cons y ps =>
      have hne : (y :: ps).flatMap (·.2) ≠ [] := by simp [hps.2 y (by simp)]
      rw [events_ofPieces_cons x (y :: ps) [c], events_ofPieces_cons x (y :: ps) (c :: d :: v),
        event_congr (passes_take_append_singleton (v := d :: v) hne)]
      rcases ih hps.2 with h | ⟨w, h⟩
      · exact .inl (by rw [h])
      · exact .inr ⟨w, by rw [h, append_assoc]⟩

/-- The beginning of a line in a text: the beginning of the text, or the place behind a mark that
ends a line. Marks in strings, and those that a backslash takes away, end no line. -/
def LineStart (a b : List Char) : Prop :=
  a = [] ∨ ∃ xs x ys, Lexeme.all (a ++ b) = xs ++ x :: ys ∧ x.rule = .lineEnd ∧
    x.text.takeWhile isBreak ≠ [] ∧ a = xs.flatMap (·.text) ++ x.text.takeWhile isBreak

theorem exists_endsLine (hc : isBreak c = true) (s : List Char) :
    ∃ m b, c :: s = m ++ b ∧ EndsLine m b := by
  by_cases hpair : c = '\r' ∧ s.head? = some '\n'
  · obtain ⟨rfl, hhead⟩ := hpair
    obtain ⟨us, rfl⟩ := head?_eq_some_iff.1 hhead
    exact ⟨['\r', '\n'], us, rfl, by simp [IsMark], by simp⟩
  · refine ⟨[c], s, rfl, ?_, by simpa using hpair⟩
    rcases isBreak_iff.1 hc with rfl | rfl | rfl <;> simp [IsMark]

theorem LineStart.cases (h : LineStart a b) :
    a = [] ∨ ∃ p m ps, a = p ++ m ∧ EndsLine m b ∧ Cuts true p (m ++ b) ps := by
  rcases h with h | ⟨xs, x, ys, hall, -, hne, ha⟩
  · exact .inl h
  · right
    obtain ⟨p, u, ps, hcut, hcuts, rfl, hu⟩ :=
      exists_cuts (show allFrom true 0 _ = _ from hall)
    rw [flatMap_text_ofPieces, hcuts.flatMap_eq] at ha
    cases u with
    | nil => simp [allFrom] at hu
    | cons c s =>
      cases hc : isBreak c with
      | false =>
        rw [Lexeme.allFrom_eq (by simp)] at hu
        obtain ⟨rfl, -⟩ := List.cons.inj hu
        simp [hc] at hne
      | true =>
        obtain ⟨m, b', hmark, hends⟩ := exists_endsLine hc s
        rw [hmark, hends.allFrom_eq] at hu
        obtain ⟨rfl, -⟩ := List.cons.inj hu
        have htake : (m ++ b'.takeWhile isSpace).takeWhile isBreak = m := by
          rw [takeWhile_append_of_pos hends.1.isBreak, takeWhile_isBreak, append_nil]
          exact all_eq_true.1 all_takeWhile
        rw [htake] at ha
        subst ha
        rw [hmark, append_assoc, append_cancel_left_eq,
          append_cancel_left_eq] at hcut
        subst hcut
        exact ⟨p, m, ps, rfl, hends, hmark ▸ hcuts⟩

/-! ### What a blank line changes -/

/-- What a blank line may change: the end of a line comes at the beginning of a text, or at its
end, and one may go there if another follows. -/
inductive Alters : List Event → List Event → Prop
  | same (es : List Event) : Alters es es
  | first (es : List Event) : Alters es (.line [] :: es)
  | more (es : List Event) : Alters (es ++ [.line []]) (es ++ [.line [], .line []])
  | fewer (es : List Event) (w : List Char) :
    Alters (es ++ [.line w, .line []]) (es ++ [.line []])
  | trans {es fs gs : List Event} (h : Alters es fs) (h' : Alters fs gs) : Alters es gs

namespace BlankLine

/-- A line of spaces and nothing else, with a mark of one character, is not put at the end of a
text. -/
def Fits (l : BlankLine) (b : List Char) : Prop :=
  b ≠ [] ∨ l.spaces = [] ∨ l.comment ≠ [] ∨ l.mark = ['\r', '\n']

variable {l : BlankLine} {b : List Char}

theorem Fits.length_le (h : l.Fits b) :
    l.spaces = [] ∨ 2 ≤ (l.comment ++ l.mark ++ b).length := by
  obtain ⟨c, cs, hmark, -⟩ := l.mark_cons
  rcases h with h | h | h | h
  · have := length_pos_iff.2 h
    right
    simp [hmark]
    omega
  · exact .inl h
  · have := length_pos_iff.2 h
    right
    simp [hmark]
    omega
  · right
    simp [h]
    omega

theorem Fits.alters_start (h : l.Fits b) : Alters (start b) (start (l.text ++ b)) := by
  rw [l.start_text h.length_le]
  rcases l.resume_start b with h | h
  · rw [h]
    exact .same _
  · rw [h]
    exact .first _

theorem Fits.events_mark (h : l.Fits b) (hm : IsMark m) (first : Bool) :
    events (allFrom first 0 (m ++ (l.text ++ b))) = l.resume b ∨
      b = [] ∧ events (allFrom first 0 (m ++ (l.text ++ b))) = [.line [], .line []] := by
  by_cases hpair : m = ['\r'] ∧ (l.text ++ b).head? = some '\n'
  · -- the mark becomes another one with the blank line, which is empty then
    obtain ⟨rfl, hhead⟩ := hpair
    have htext := l.text_eq_of_head hhead
    have hends : EndsLine ['\r', '\n'] b := ⟨by simp [IsMark], by simp⟩
    left
    rw [htext.1, resume, if_neg (by simp [htext.2])]
    exact hends.events_allFrom first
  · rw [EndsLine.events_allFrom ⟨hm, hpair⟩, l.after_text]
    by_cases hlength : 2 ≤ (l.comment ++ l.mark ++ b).length
    · rw [if_pos hlength]
      exact .inl rfl
    · have hspaces := h.length_le.resolve_right hlength
      obtain ⟨c, cs, hmark, -⟩ := l.mark_cons
      have hb : b = [] := by
        rw [← length_eq_zero_iff]
        simp [hmark] at hlength
        omega
      subst hb
      rw [if_neg hlength, hspaces, resume, if_neg (by simp), after_nil]
      exact .inr ⟨rfl, rfl⟩

theorem events_before (hm : IsMark m) (hps : ∀ x ∈ ps, x.2 ≠ []) (l : BlankLine) (b : List Char) :
    events (ofPieces ps (m ++ b)) = events (ofPieces ps (m ++ (l.text ++ b))) ∨
      b = [] ∧ ∃ w, events (ofPieces ps (m ++ b)) =
        events (ofPieces ps (m ++ (l.text ++ b))) ++ [.line w] := by
  obtain ⟨c, cs, rfl, -⟩ := hm.exists_cons
  obtain ⟨d, ds, hcut⟩ : ∃ d ds, cs ++ (l.text ++ b) = d :: ds := by
    obtain ⟨e, es, hmark, -⟩ := l.mark_cons
    exact exists_cons_of_ne_nil (by simp [text, hmark])
  rw [cons_append, cons_append, hcut]
  cases hrest : cs ++ b with
  | nil =>
    obtain ⟨rfl, rfl⟩ := append_eq_nil_iff.1 hrest
    rcases events_ofPieces_singleton hps c d ds with h | h
    · exact .inl h
    · exact .inr ⟨rfl, h⟩
  | cons e es => exact .inl (events_ofPieces ps c e d)

theorem Fits.alters_after (h : l.Fits b) (hm : IsMark m) (hps : ∀ x ∈ ps, x.2 ≠ []) (first : Bool) :
    Alters (events (ofPieces ps (m ++ b)) ++ after b)
      (events (ofPieces ps (m ++ (l.text ++ b))) ++
        events (allFrom first 0 (m ++ (l.text ++ b)))) := by
  have hnil : l.resume [] = [.line []] := by
    rw [resume, if_neg (by simp), after_nil]
  rcases h.events_mark hm first with hnew | ⟨rfl, hnew⟩ <;> rw [hnew]
  · rcases events_before hm hps l b with hold | ⟨rfl, w, hold⟩ <;> rw [hold]
    · rcases l.resume_cases b with hresume | ⟨-, hresume, hafter⟩
      · rw [hresume]
        exact .same _
      · rw [hresume, hafter]
        exact .fewer _ _
    · rw [hnil, after_nil, append_assoc]
      exact .fewer _ _
  · rw [after_nil]
    rcases events_before hm hps l [] with hold | ⟨-, w, hold⟩ <;> rw [hold]
    · exact .more _
    · rw [append_assoc]
      exact (Alters.fewer _ _).trans (.more _)

end BlankLine

/-- A blank line at the beginning of a line changes what happens only at the beginning and at the
end of a text. -/
theorem alters_events (h : LineStart a b)
    (hquiet : Quiet ((Lexeme.all (a ++ b)).map (·.rule))) {l : BlankLine} (hl : l.Fits b) :
    Alters (events (Lexeme.all (a ++ b))) (events (Lexeme.all (a ++ (l.text ++ b)))) := by
  rcases h.cases with rfl | ⟨p, m, ps, rfl, hends, hcuts⟩
  · exact hl.alters_start
  · obtain ⟨c, cs, rfl, hc⟩ := hends.1.exists_cons
    have hold := hcuts.allFrom_eq
    have hps : Quiet (ps.map (·.1)) := by
      rw [append_assoc, Lexeme.all, hold, map_append, map_rule_ofPieces] at hquiet
      exact ⟨fun hmem => hquiet.1 (mem_append_left _ hmem), hquiet.2.left_of_append⟩
    have hnew := (hcuts.congr hps hc (cs ++ (l.text ++ b))).allFrom_eq
    rw [← cons_append] at hnew
    rw [append_assoc, append_assoc, Lexeme.all, Lexeme.all, hold, hnew, events_append,
      events_append, hends.events_allFrom]
    exact hl.alters_after hends.1 hcuts.ne_nil _

end Boardwright.Syntax
