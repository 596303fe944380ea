import Boardwright.Proofs.Syntax.Adjacent
import Boardwright.Proofs.Syntax.Indentation
import Boardwright.Proofs.Syntax.Lines

/-!
# Blank lines do not count

A line of spaces and a comment can be put in front of any line of a file that can be read, or
behind the last one. The file can still be read, and its tree is the same apart from the ends of
lines that stand directly in the file.

What a blank line changes among the events of a text is `Alters`. Each of these changes adds or
takes away the end of a line where it stands between the statements of the file, so the file can
be read before and after it: `Alters.reads`. It has to be shown that such an end does not stand in
a block, where no other end of a line can stand behind what the layout makes.

There is one exception. A line of spaces alone behind the last line of a text indents what follows,
because the layout looks two characters ahead to see that a line is empty, and only one is left.
-/

open List

namespace Boardwright.Syntax

variable {k : Kind} {l : Layout} {xs : List Lexeme}

/-! ### Trees without places -/

namespace Tree

mutual

def bare : Tree → Tree
  | .leaf t => .leaf t.bare
  | .node r ts => .node r (bareAll ts)

def bareAll : List Tree → List Tree
  | [] => []
  | t :: ts => bare t :: bareAll ts

end

theorem bareAll_eq_map (ts : List Tree) : bareAll ts = ts.map bare := by
  induction ts with
  | nil => rfl
  | cons t ts ih => rw [bareAll, ih, map_cons]

def isLine : Tree → Bool
  | .leaf t => t.kind == .newline
  | .node _ _ => false

/-- A tree without the ends of lines directly below its root. -/
def withoutLines : Tree → Tree
  | .leaf t => .leaf t
  | .node r ts => .node r (ts.filter fun t => !t.isLine)

/-- What a tree says apart from places, and from the ends of lines directly below its root. -/
def outline (t : Tree) : Tree := t.bare.withoutLines

end Tree

theorem Derives.relabel {p : Pattern} {ts : List Tree} (h : Derives p ts) {us : List Token}
    (hus : (Tree.tokensAll ts).map Token.bare = us.map Token.bare) :
    ∃ ts', Tree.tokensAll ts' = us ∧ ts'.map Tree.bare = ts.map Tree.bare ∧ Derives p ts' := by
  induction h generalizing us with
  | @token k t h =>
    obtain ⟨u, rfl, hu⟩ : ∃ u, us = [u] ∧ u.bare = t.bare := by
      simpa [eq_comm, map_eq_singleton_iff] using hus
    have hkind : u.kind = k := (congrArg Token.kind hu).trans h
    exact ⟨[.leaf u], rfl, by simp [Tree.bare, hu], .token hkind⟩
  | @rule r ts h ih =>
    have hbelow : (Tree.tokensAll ts).map Token.bare = us.map Token.bare := by simpa using hus
    obtain ⟨ts', htokens, hbare, hts'⟩ := ih hbelow
    refine ⟨[.node r.label ts'], by simpa using htokens, ?_, .rule hts'⟩
    simp [Tree.bare, Tree.bareAll_eq_map, hbare]
  | empty | done =>
    obtain rfl : us = [] := by simpa using hus
    exact ⟨[], rfl, rfl, by constructor⟩
  | seq _ _ ihp ihq =>
    rw [Tree.tokensAll_append, map_append] at hus
    obtain ⟨us₁, us₂, rfl, h₁, h₂⟩ := map_eq_append_iff.1 hus.symm
    obtain ⟨ts₁, rfl, hbare₁, hp⟩ := ihp h₁.symm
    obtain ⟨ts₂, rfl, hbare₂, hq⟩ := ihq h₂.symm
    exact ⟨ts₁ ++ ts₂, Tree.tokensAll_append _ _, by simp [hbare₁, hbare₂], .seq hp hq⟩
  | again _ _ ihp ihs =>
    rw [Tree.tokensAll_append, map_append] at hus
    obtain ⟨us₁, us₂, rfl, h₁, h₂⟩ := map_eq_append_iff.1 hus.symm
    obtain ⟨ts₁, rfl, hbare₁, hp⟩ := ihp h₁.symm
    obtain ⟨ts₂, rfl, hbare₂, hs⟩ := ihs h₂.symm
    exact ⟨ts₁ ++ ts₂, Tree.tokensAll_append _ _, by simp [hbare₁, hbare₂], .again hp hs⟩
  | left _ ih =>
    obtain ⟨ts', htokens, hbare, hts'⟩ := ih hus
    exact ⟨ts', htokens, hbare, .left hts'⟩
  | right _ ih =>
    obtain ⟨ts', htokens, hbare, hts'⟩ := ih hus
    exact ⟨ts', htokens, hbare, .right hts'⟩

/-! ### Files that can be read -/

/-- Bare tokens of a file that can be read, and the outline of the file. -/
def Reads (ts : List Token) (o : Tree) : Prop :=
  ∃ is e, (∀ i ∈ is, IsItem i) ∧ e.kind = .eof ∧
    (Tree.tokensAll is).map Token.bare ++ [e.bare] = ts ∧
    Tree.outline (.node "file_input" (is ++ [.leaf e])) = o

theorem reads_of_ofTokens {ts : List Token} (hts : EndsFile ts) {f : SourceFile}
    (h : SourceFile.ofTokens ts = .ok f) : Reads (ts.map Token.bare) f.tree.outline := by
  obtain ⟨hformed, rfl⟩ := SourceFile.formed_of_ofTokens hts h
  obtain ⟨is, e, htree, his, he⟩ := derives_fileInput.1 ((describes_file _).2 ⟨f, hformed, rfl⟩)
  refine ⟨is, e, his, he, ?_, by rw [htree]⟩
  simp [htree]

theorem Reads.exists_ofTokens {ts : List Token} {o : Tree} (h : Reads (ts.map Token.bare) o) :
    ∃ f, SourceFile.ofTokens ts = .ok f ∧ f.tree.outline = o := by
  obtain ⟨is, e, his, he, htokens, rfl⟩ := h
  have hfile := derives_fileInput.2 ⟨is, e, rfl, his, he⟩
  have hsorts : (Tree.tokensAll [.node "file_input" (is ++ [.leaf e])]).map Token.bare =
      ts.map Token.bare := by
    simpa using htokens
  obtain ⟨ts', rfl, hbare, hts'⟩ := hfile.relabel hsorts
  obtain ⟨f, hf, rfl⟩ := (describes_file _).1 hts'
  refine ⟨f, ?_, ?_⟩
  · simpa using SourceFile.ofTokens_tokens hf
  · rw [Tree.outline, Tree.outline, singleton_inj.1 hbare]

theorem outline_insert (is is' : List Tree) {n : Token} (hn : n.kind = .newline) (e : Token) :
    Tree.outline (.node "file_input" (is ++ .leaf n :: is' ++ [.leaf e])) =
      Tree.outline (.node "file_input" (is ++ is' ++ [.leaf e])) := by
  simp [Tree.outline, Tree.bare, Tree.bareAll_eq_map, Tree.withoutLines, Tree.isLine, hn]

namespace Reads

variable (ts : List Token) {us : List Token} {u n e : Token} {o : Tree}

theorem insert (is is' : List Tree) {e : Token} (his : ∀ i ∈ is, IsItem i)
    (his' : ∀ i ∈ is', IsItem i) (he : e.kind = .eof) :
    Reads ((Tree.tokensAll is).map Token.bare ++ lineToken ::
        (Tree.tokensAll is').map Token.bare ++ [e.bare])
      (Tree.outline (.node "file_input" (is ++ is' ++ [.leaf e]))) := by
  refine ⟨is ++ .leaf lineToken :: is', e, ?_, he, ?_, ?_⟩
  · simp only [forall_mem_append, forall_mem_cons]
    exact ⟨his, .inl ⟨lineToken, rfl, rfl⟩, his'⟩
  · simp [show lineToken.bare = lineToken from rfl]
  · rw [outline_insert is is' (n := lineToken) rfl]

/-- A file may begin with the end of a line. -/
theorem cons_line {ts : List Token} (h : Reads ts o) : Reads (lineToken :: ts) o := by
  obtain ⟨is, e, his, he, rfl, rfl⟩ := h
  simpa using insert [] is (by simp) his he

/-- A file may end with the end of a line. -/
theorem concat_line (h : Reads (ts ++ [e]) o) : Reads (ts ++ [lineToken, e]) o := by
  obtain ⟨is, e', his, he, hts, rfl⟩ := h
  obtain ⟨rfl, rfl⟩ := append_singleton_inj.1 hts
  simpa using insert is [] his (by simp) he

/-- The items around the end of a line that follows what the layout makes. -/
theorem exists_items {ts : List Token} (h : Reads (ts ++ u :: n :: us ++ [e]) o)
    (hu : u.kind.isLayout = true) (hn : n.kind = .newline) :
    ∃ is is' e', (∀ i ∈ is, IsItem i) ∧ (∀ i ∈ is', IsItem i) ∧ e'.kind = .eof ∧ e = e'.bare ∧
      (Tree.tokensAll is).map Token.bare = ts ++ [u] ∧ (Tree.tokensAll is').map Token.bare = us ∧
      Tree.outline (.node "file_input" (is ++ is' ++ [.leaf e'])) = o := by
  obtain ⟨is, e', his, he, hall, rfl⟩ := h
  obtain ⟨hts, rfl⟩ := append_singleton_inj.1 hall
  obtain ⟨xs, ys, htokens, rfl, hys⟩ := map_eq_append_iff.1 hts
  obtain ⟨u', zs, rfl, rfl, hzs⟩ := map_eq_cons_iff.1 hys
  obtain ⟨n', zs, rfl, rfl, rfl⟩ := map_eq_cons_iff.1 hzs
  obtain ⟨is₁, is₂, rfl, h₁, h₂⟩ := exists_blank his htokens hu hn
  simp only [forall_mem_append, forall_mem_cons] at his
  exact ⟨is₁, is₂, e', his.1, his.2.2, he, rfl, by simp [h₁], by simp [h₂],
    (outline_insert is₁ is₂ (n := n') hn e').symm⟩

/-- The end of a line that follows what the layout makes at the end of a file may be missing. -/
theorem erase_line (h : Reads (ts ++ [u, n, e]) o) (hu : u.kind.isLayout = true)
    (hn : n.kind = .newline) : Reads (ts ++ [u, e]) o := by
  have hcut : Reads (ts ++ u :: n :: [] ++ [e]) o := by simpa using h
  obtain ⟨is, is', e', his, his', he, rfl, hts, hus, rfl⟩ := exists_items hcut hu hn
  have hnil : is' = [] := by
    cases is' with
    | nil => rfl
    | cons i is' =>
      obtain ⟨v, vs, hv, -⟩ := (his' i (by simp)).exists_head
      simp [hv] at hus
  subst hnil
  exact ⟨is, e', his, he, by simp [hts], by simp⟩

/-- No indentation is closed after an empty line. -/
theorem not_dedent {d : Token} (h : Reads (ts ++ u :: n :: d :: us ++ [e]) o)
    (hu : u.kind.isLayout = true) (hn : n.kind = .newline) (hd : d.kind = .dedent) : False := by
  obtain ⟨is, is', e', -, his', -, -, -, hus, -⟩ := exists_items h hu hn
  cases is' with
  | nil => simp at hus
  | cons i is' =>
    obtain ⟨v, vs, hv, hlayout⟩ := (his' i (by simp)).exists_head
    have hkind : v.kind = .dedent := by
      simp [hv] at hus
      rw [← hd, ← hus.1]
      rfl
    have hline := (hlayout (by simp [Kind.isLayout, hkind])).2
    simp [hkind] at hline

/-- No indentation begins with an empty line. -/
theorem not_indent (h : Reads (ts ++ u :: n :: us ++ [e]) o) (hu : u.kind = .indent)
    (hn : n.kind = .newline) : False := by
  obtain ⟨is, is', e', his, -, -, -, hts, -, -⟩ := exists_items h (by simp [Kind.isLayout, hu]) hn
  rcases eq_nil_or_concat is with rfl | ⟨is, i, rfl⟩
  · simp at hts
  · obtain ⟨vs, v, hv, hkind⟩ := (his i (by simp)).exists_last
    have hlast : v.bare = u := by
      simp only [concat_eq_append, Tree.tokensAll_append, Tree.tokensAll_cons,
        Tree.tokensAll_nil, append_nil, hv, map_append, ← append_assoc,
        map_singleton] at hts
      exact (append_singleton_inj.1 hts).2
    rw [← hlast, Token.kind_bare] at hu
    simp [hu] at hkind

end Reads

/-! ### Blank lines in a file that can be read -/

namespace Layout

@[simp] theorem lay_nil : lay [] [] = [endToken] := rfl

/-- The tokens of events in front of others, and the indentations that are open behind them. -/
theorem exists_lay (ws : List Nat) (es : List Event) :
    ∃ ts vs, (∀ fs, lay ws (es ++ fs) = ts ++ lay vs fs) ∧ (Widens ws → Widens vs) := by
  induction es generalizing ws with
  | nil => exact ⟨[], ws, fun _ => rfl, id⟩
  | cons e es ih =>
    cases e with
    | token kind text =>
      obtain ⟨ts, vs, hlay, hvs⟩ := ih ws
      exact ⟨_ :: ts, vs, fun fs => by rw [cons_append, lay, hlay]; rfl, hvs⟩
    | line spaces =>
      obtain ⟨ts, vs, hlay, hvs⟩ := ih (indentsAt ws (width spaces))
      refine ⟨lineToken :: marksAt ws spaces ⟨1, 0⟩ ++ ts, vs, fun fs => ?_,
        fun hws => hvs (hws.indentsAt _)⟩
      rw [cons_append, lay, hlay]
      simp

/-- A line without spaces closes all indentations. -/
theorem lay_line {ws : List Nat} (hws : Widens ws) (es : List Event) :
    lay ws (.line [] :: es) =
      lineToken :: .replicate ws.length ⟨.dedent, "", ⟨1, 0⟩⟩ ++ lay [] es := by
  have hnot : ¬ws.headD 0 < width [] := Nat.not_lt_zero _
  have hdrop : ws.dropWhile (width [] < ·) = [] := by
    simpa [width] using hws.2
  have htake : ws.takeWhile (width [] < ·) = ws := hws.takeWhile
  rw [lay, marksAt, indentsAt, if_neg hnot, if_neg hnot, htake, hdrop]

theorem exists_concat_layout (k : Nat) (d : Token) (hd : d.kind = .dedent) :
    ∃ us u, lineToken :: List.replicate k d = us ++ [u] ∧ u.kind.isLayout = true := by
  cases k with
  | zero => exact ⟨[], lineToken, rfl, rfl⟩
  | succ k =>
    refine ⟨lineToken :: List.replicate k d, d, ?_, by simp [Kind.isLayout, hd]⟩
    rw [replicate_succ', cons_append]

/-- A line of spaces in front of an empty one at the end of a file that can be read opens no
indentation, and closes all if it closes one. -/
theorem reads_fewer {ws : List Nat} (hws : Widens ws) {ts : List Token} {w : List Char} {o : Tree}
    (h : Reads (ts ++ lay ws [.line w, .line []]) o) : Reads (ts ++ lay ws [.line []]) o := by
  rw [lay, lay_line (hws.indentsAt _)] at h
  rw [lay_line hws]
  by_cases hlt : ws.headD 0 < width w
  · rw [marksAt, if_pos hlt] at h
    exact (Reads.not_indent (ts ++ [lineToken]) (by simpa using h) rfl rfl).elim
  · rw [marksAt, indentsAt, if_neg hlt, if_neg hlt] at h
    obtain ⟨us, u, hcut, hu⟩ := exists_concat_layout (ws.takeWhile (width w < ·)).length
      ⟨.dedent, "", ⟨1, 0⟩⟩ rfl
    rw [hcut] at h
    cases hrest : ws.dropWhile (width w < ·) with
    | cons v vs =>
      rw [hrest, length_cons, replicate_succ] at h
      exact (Reads.not_dedent (ts ++ us) (by simpa using h) hu rfl rfl).elim
    | nil =>
      have hall : ws.takeWhile (width w < ·) = ws := by
        rw [← append_nil (ws.takeWhile _), ← hrest, takeWhile_append_dropWhile]
      rw [hall] at hcut
      rw [hrest] at h
      rw [hcut]
      have herased := Reads.erase_line (ts ++ us) (by simpa using h) hu rfl
      simpa using herased

end Layout

open Layout in
theorem Alters.reads {es fs : List Event} (h : Alters es fs) {o : Tree} :
    Reads (lay [] es) o → Reads (lay [] fs) o := by
  have hempty : Widens [] := by simp [Widens]
  induction h with
  | same es => exact id
  | first es => exact fun h => h.cons_line
  | more es =>
    intro h
    obtain ⟨ts, vs, hlay, hvs⟩ := exists_lay [] es
    rw [hlay, lay_line (hvs hempty)] at h ⊢
    have hmore := Reads.concat_line
      (ts ++ lineToken :: .replicate vs.length ⟨.dedent, "", ⟨1, 0⟩⟩) (by simpa using h)
    simpa [lay_line hempty] using hmore
  | fewer es w =>
    intro h
    obtain ⟨ts, vs, hlay, hvs⟩ := exists_lay [] es
    rw [hlay] at h ⊢
    exact reads_fewer (hvs hempty) h
  | trans _ _ ih ih' => exact fun h => ih' (ih h)

theorem Alters.mem_of_token {es fs : List Event} (h : Alters es fs) {text : List Char}
    (hmem : Event.token k text ∈ fs) : Event.token k text ∈ es := by
  induction h with
  | same es => exact hmem
  | first es | more es | fewer es w => simpa using hmem
  | trans _ _ ih ih' => exact ih (ih' hmem)

theorem mem_events : (∃ text, Event.token k text ∈ events xs) ↔ ∃ x ∈ xs, x.rule = .token k := by
  constructor
  · rintro ⟨text, h⟩
    obtain ⟨x, hx, hevent⟩ := mem_filterMap.1 h
    refine ⟨x, hx, ?_⟩
    unfold Lexeme.event at hevent
    split at hevent
    · next kind hrule =>
        cases hevent
        exact hrule
    · split at hevent <;> simp at hevent
    · simp at hevent
  · rintro ⟨x, hx, hrule⟩
    exact ⟨x.text, mem_filterMap.2 ⟨x, hx, by simp [Lexeme.event, hrule]⟩⟩

namespace Layout

theorem tokensFrom_cons_token {x : Lexeme} (hx : x.rule = .token k) (xs : List Lexeme) :
    ∃ t, t.kind = k ∧ ∃ l' : Layout, l.tokensFrom (x :: xs) = t :: l'.tokensFrom xs := by
  refine ⟨⟨k, String.ofList x.text, l.pos⟩, rfl, (l.step x).1, ?_⟩
  simp [tokensFrom, step, hx]

theorem exists_of_rule {x : Lexeme} (hx : x ∈ xs) (hrule : x.rule = .token k) :
    ∃ t ∈ l.tokensFrom xs, t.kind = k := by
  obtain ⟨ys, zs, rfl⟩ := append_of_mem hx
  obtain ⟨t, ht, l', htokens⟩ := tokensFrom_cons_token (l := (l.read ys).1) hrule zs
  exact ⟨t, by simp [tokensFrom_append, htokens], ht⟩

/-- Tokens of a file that can be read come from lexemes without unclosed marks. -/
theorem quiet_of_tokensFrom (hplain : ∀ t ∈ l.tokensFrom xs, t.kind ≠ .unknown)
    (hchain : ((l.tokensFrom xs).map (·.kind)).IsChain (Kind.leaves · ·)) :
    Lexeme.Quiet (xs.map (·.rule)) := by
  constructor
  · intro hmem
    obtain ⟨x, hx, hrule⟩ := mem_map.1 hmem
    obtain ⟨t, ht, hkind⟩ := exists_of_rule (l := l) hx hrule
    exact hplain t ht hkind
  · rw [isChain_iff_forall_rel_of_append_cons_cons]
    intro r r' rs rs' hcut hr hr'
    obtain ⟨ys, zs, rfl, rfl, hzs⟩ := map_eq_append_iff.1 hcut
    obtain ⟨x, zs', rfl, rfl, hzs'⟩ := map_eq_cons_iff.1 hzs
    obtain ⟨y, zs, rfl, rfl, -⟩ := map_eq_cons_iff.1 hzs'
    obtain ⟨k, hk, hx⟩ : ∃ k, (k = .name ∨ k = .string) ∧ x.rule = .token k := by
      rcases hr with hr | hr
      · exact ⟨.name, .inl rfl, hr⟩
      · exact ⟨.string, .inr rfl, hr⟩
    obtain ⟨t, ht, l₁, htokens⟩ := tokensFrom_cons_token (l := (l.read ys).1) hx (y :: zs)
    obtain ⟨t', ht', l₂, htokens'⟩ := tokensFrom_cons_token (l := l₁) hr' zs
    rw [tokensFrom_append, htokens, htokens', map_append, map_cons,
      map_cons] at hchain
    have hpair := (isChain_append_cons_cons.1 hchain).2.1
    rcases hk with rfl | rfl <;> simp [Kind.leaves, ht, ht'] at hpair

end Layout

theorem kinds_of_ofTokens {ts : List Token} (hts : EndsFile ts) {f : SourceFile}
    (h : SourceFile.ofTokens ts = .ok f) :
    (∀ t ∈ ts, t.kind ≠ .unknown ∧ Layout.bracket t.kind = 0) ∧
      (ts.map (·.kind)).IsChain (Kind.leaves · ·) := by
  obtain ⟨hformed, rfl⟩ := SourceFile.formed_of_ofTokens hts h
  have hfile := (describes_file [f.tree]).2 ⟨f, hformed, rfl⟩
  have hplain := isPlain_of_derives hfile
  have hchain := isChain_of_derives hfile
  rw [kindsOf_singleton] at hplain hchain
  refine ⟨fun t ht => ?_, hchain⟩
  simpa [Kind.isPlain] using hplain t.kind (mem_map_of_mem ht)

/-- A blank line at the beginning of any line leaves a file that can be read what it is, except
that a line of spaces alone is not put at the very end: the file can still be read, and says the
same apart from places and from ends of lines that stand directly in it. -/
theorem parse_blankLine {a b : List Char} {f : SourceFile}
    (h : SourceFile.parse (String.ofList (a ++ b)) = .ok f) (hstart : LineStart a b) (l : BlankLine)
    (hl : l.Fits b) :
    ∃ g, SourceFile.parse (String.ofList (a ++ (l.text ++ b))) = .ok g ∧
      g.tree.outline = f.tree.outline := by
  have hreads := reads_of_ofTokens (endsFile_tokens _) h
  have hkinds := kinds_of_ofTokens (endsFile_tokens _) h
  rw [tokens, String.toList_ofList] at hkinds hreads
  have hflat : ∀ x ∈ Lexeme.all (a ++ b), ∀ k, x.rule = .token k → Layout.bracket k = 0 := by
    intro x hx k hrule
    obtain ⟨t, ht, rfl⟩ := Layout.exists_of_rule (l := {}) hx hrule
    exact (hkinds.1 t ht).2
  have halters := alters_events hstart
    (Layout.quiet_of_tokensFrom (fun t ht => (hkinds.1 t ht).1) hkinds.2) hl
  have hflat' : ∀ x ∈ Lexeme.all (a ++ (l.text ++ b)), ∀ k, x.rule = .token k →
      Layout.bracket k = 0 := by
    intro x hx k hrule
    obtain ⟨text, htext⟩ := mem_events.2 ⟨x, hx, hrule⟩
    obtain ⟨y, hy, hrule'⟩ := mem_events.1 ⟨text, halters.mem_of_token htext⟩
    exact hflat y hy k hrule'
  rw [Layout.map_bare_tokensFrom rfl hflat] at hreads
  have hreads' := halters.reads hreads
  rw [← Layout.map_bare_tokensFrom (l := {}) rfl hflat'] at hreads'
  obtain ⟨g, hg, houtline⟩ := hreads'.exists_ofTokens
  exact ⟨g, by rw [SourceFile.parse, tokens, String.toList_ofList, hg], houtline⟩

/-- A comment that opens a string, narrower than the block it stands in. -/
def quotingLine : BlankLine where
  spaces := "\t ".toList
  comment := "# it's".toList
  mark := "\r\n".toList
  isSpace := all_eq_true.1 rfl
  isComment := .inr ⟨" it's".toList, rfl, by simp [Lexeme.isBreak]⟩
  isMark := by decide

/-- The first line of a block with a string over two lines in it. -/
def blockHead : String := "module M:\n"

/-- What follows the first line of the block. -/
def blockRest : String := "    signal a\n    x = \"\"\"y\nz\"\"\"\nsignal b\n"

theorem lineStart_block : LineStart blockHead.toList blockRest.toList := by
  let xs := Lexeme.all (blockHead.toList ++ blockRest.toList)
  refine .inr ⟨xs.take 4, ⟨.lineEnd, "\n    ".toList, "si".toList⟩, xs.drop 5, ?_, rfl, ?_, ?_⟩ <;>
    decide +kernel

/-- A comment is put in front of the first line of a block. -/
theorem parse_blankLine_block :
    LineStart blockHead.toList blockRest.toList ∧ quotingLine.Fits blockRest.toList ∧
    ∃ f g, SourceFile.parse (String.ofList (blockHead.toList ++ blockRest.toList)) = .ok f ∧
      SourceFile.parse (String.ofList
        (blockHead.toList ++ (quotingLine.text ++ blockRest.toList))) = .ok g ∧
      g.tree.outline = f.tree.outline := by
  have hfits : quotingLine.Fits blockRest.toList := .inl (by decide)
  have hok : (SourceFile.parse (String.ofList (blockHead.toList ++ blockRest.toList))).isOk := by
    decide +kernel
  cases hf : SourceFile.parse (String.ofList (blockHead.toList ++ blockRest.toList)) with
  | error e =>
    rw [hf] at hok
    cases hok
  | ok f =>
    obtain ⟨g, hg, houtline⟩ := parse_blankLine hf lineStart_block quotingLine hfits
    exact ⟨lineStart_block, hfits, f, g, rfl, hg, houtline⟩

def spacesLine : BlankLine where
  spaces := "  ".toList
  comment := []
  mark := "\n".toList
  isSpace := all_eq_true.1 rfl
  isComment := .inl rfl
  isMark := by decide

/-- Behind the last line of a file, a line of spaces counts: the file cannot be read any more. -/
theorem parse_spacesLine_last :
    LineStart "signal a\n".toList [] ∧
    (SourceFile.parse (String.ofList ("signal a\n".toList ++ []))).isOk = true ∧
    (SourceFile.parse (String.ofList ("signal a\n".toList ++ (spacesLine.text ++ [])))).isOk =
      false := by
  let xs := Lexeme.all "signal a\n".toList
  refine ⟨.inr ⟨xs.take 3, ⟨.lineEnd, ['\n'], []⟩, [], ?_, rfl, ?_, ?_⟩, ?_, ?_⟩ <;>
    decide +kernel

end Boardwright.Syntax
