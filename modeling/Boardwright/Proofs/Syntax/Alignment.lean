import Boardwright.Proofs.Syntax.Unplaced
import Boardwright.Proofs.Syntax.Widths

/-!
# Statements below each other

The statements of a file, or of the body of a block, start at one indentation, and the body of a
block is wider than that. There is one exception: after the body of a block a line may go back to a
width between that of the body and that of the block. The body ends there, no indentation is opened,
and the statement on the line belongs to what is around the block: `FallsShort`.

The proof follows the tokens through the statements. What the tokens say of their lines, `Laid`,
is taken over into what the statements say of their indentations, `Aligned`.
-/

open List

namespace Boardwright.Syntax

/-! ### The words of a line -/

/-- The nonterminals that stand below a line. -/
def Nonterminal.isSimple : Nonterminal → Bool
  | .fileInput | .stmt | .compoundStmt | .block | .blockDef => false
  | _ => true

variable {l : Line} {s : Stmt} {ind : Pos → Nat} {f : SourceFile}

theorem exists_tokens_line (hl : l.Formed) :
    ∃ us, l.tree.tokens = us ++ [l.newline] ∧ ∀ u ∈ us, u.kind.isWord = true := by
  have hderives : Derives (.rule .simpleStmts) [l.tree] := (describes_line _).2 ⟨l, hl, rfl⟩
  have hchain := (hderives.allows (A := Nonterminal.isSimple) (R := fun k _ => k.isWord)
    (fun r hr => by cases r <;> first | decide +kernel | cases hr) rfl).chain
  refine ⟨_, l.tokens_tree, fun u hu => ?_⟩
  rw [kindsOf_singleton, l.tokens_tree] at hchain
  obtain ⟨us, vs, hcut⟩ := append_of_mem hu
  rw [hcut] at hchain
  -- each token of the line but the last one is followed by another one
  cases vs <;> simp_all [isChain_append_cons_cons]

theorem isWord_path {p : Path} (hp : p.Formed) : ∀ t ∈ p.tree.tokens, t.kind.isWord = true := by
  intro t ht
  rw [Path.tokens_tree, mem_cons, mem_flatMap] at ht
  rcases ht with rfl | ⟨w, hw, ht⟩
  · exact congrArg Kind.isWord hp.1
  · rcases mem_pair.1 ht with rfl | rfl
    · exact congrArg Kind.isWord (hp.2 w hw).1
    · exact congrArg Kind.isWord (hp.2 w hw).2

theorem isWord_header {h : Header} (hh : h.Formed) :
    ∀ t ∈ Tree.tokensAll h.trees, t.kind.isWord = true := by
  obtain ⟨word, name, parent, colon⟩ := h
  obtain ⟨hword, hname, hparent, hcolon⟩ := hh
  have hword' : word.kind.isWord = true := by
    rcases hword with hword | hword | hword <;> exact congrArg Kind.isWord hword
  have hname' : name.kind.isWord = true := congrArg Kind.isWord hname
  have hcolon' : colon.kind.isWord = true := congrArg Kind.isWord hcolon
  cases parent with
  | none => simp [Header.trees, Tree.unary, hword', hname', hcolon']
  | some w =>
    have hfrom : w.1.kind.isWord = true := congrArg Kind.isWord (hparent w rfl).1
    have hpath := isWord_path (hparent w rfl).2
    have htokens : Tree.tokensAll (Header.trees ⟨word, name, some w, colon⟩) =
        word :: name :: w.1 :: w.2.tree.tokens ++ [colon] := by
      simp [Header.trees, Tree.unary]
    rw [htokens]
    simp only [forall_mem_append, forall_mem_cons]
    exact ⟨⟨hword', hname', hfrom, hpath⟩, hcolon', by simp⟩

/-! ### Statements on their lines -/

def Stmt.body : Stmt → List Stmt
  | .block _ (.indented _ _ body _) => body
  | _ => []

/-- Statements in an indentation of width `w`. The width of the body that ends in front of the first
of them is `closed`. -/
inductive Aligned (ind : Pos → Nat) : Nat → Option Nat → List Stmt → Prop
  | nil {w : Nat} {closed : Option Nat} : Aligned ind w closed []
  | flat {w : Nat} {closed : Option Nat} {s : Stmt} {ss : List Stmt} (hbody : s.body = [])
    (hs : Stands w closed (ind s.start.pos)) (h : Aligned ind w none ss) :
    Aligned ind w closed (s :: ss)
  | deep {w v : Nat} {closed : Option Nat} {s : Stmt} {ss : List Stmt} (hbody : s.body ≠ [])
    (hs : Stands w closed (ind s.start.pos)) (hv : w < v) (hinner : Aligned ind v none s.body)
    (h : Aligned ind w (some v) ss) : Aligned ind w closed (s :: ss)

section Laid

variable {ind : Pos → Nat} {ws : List Nat} {closed : Option Nat} {n : Nat} {ts : List Token}

theorem laid_line (hl : l.Formed) (h : Laid ind ws closed n (l.tree.tokens ++ ts)) :
    ∃ n', Laid ind ws none n' ts := by
  obtain ⟨us, htokens, hus⟩ := exists_tokens_line hl
  rw [htokens, append_assoc] at h
  exact (h.of_words hus).of_newline hl.2.2.2

theorem laid_header {hd : Header} (hhd : hd.Formed) {b : Block}
    (h : Laid ind ws closed n ((Stmt.block hd b).tree.tokens ++ ts)) :
    Laid ind ws closed n (b.tree.tokens ++ ts) := by
  have htokens : (Stmt.block hd b).tree.tokens = Tree.tokensAll hd.trees ++ b.tree.tokens := by
    simp [Stmt.tree]
  rw [htokens, append_assoc] at h
  exact h.of_words (isWord_header hhd)

theorem stands_start (hs : s.Formed) (h : Laid ind ws closed n (s.tree.tokens ++ ts)) :
    Stands (ws.headD 0) closed (ind s.start.pos) := by
  obtain ⟨us, htokens⟩ := Parse.tokens_stmt_eq_cons s
  rw [htokens] at h
  have hword : s.start.kind.isWord = true := by
    cases s with
    | line l =>
      have hl : l.Formed := hs
      have hmem := Parse.start_kind_mem hl.1
      rw [Stmt.start]
      generalize l.first.start.kind = k at hmem
      revert k
      decide
    | block hd b => exact isWord_header hs.1 _ (by simp [Header.trees, Stmt.start, Tree.unary])
  obtain ⟨hind, hstands, -⟩ := h.of_word hword
  rwa [hind]

mutual

/-- What the tokens say of their lines goes over to the statements one by one. -/
theorem laid_stmt : ∀ (s : Stmt) {ws : List Nat} {closed : Option Nat} {n : Nat} {ts : List Token},
    s.Formed → Laid ind ws closed n (s.tree.tokens ++ ts) →
    ∃ closed' n', Laid ind ws closed' n' ts ∧
      ∀ ss, Aligned ind (ws.headD 0) closed' ss → Aligned ind (ws.headD 0) closed (s :: ss)
  | .line l, ws, closed, n, ts, hs, h => by
    have hl : l.Formed := hs
    obtain ⟨n', hrest⟩ := laid_line hl (by simpa [Stmt.tree] using h)
    exact ⟨none, n', hrest, fun ss hss => .flat rfl (stands_start hs h) hss⟩
  | .block hd (.inline l), ws, closed, n, ts, hs, h => by
    have hl : l.Formed := hs.2
    obtain ⟨n', hrest⟩ := laid_line hl (by simpa [Block.tree] using laid_header hs.1 h)
    exact ⟨none, n', hrest, fun ss hss => .flat rfl (stands_start hs h) hss⟩
  | .block hd (.indented newline indent body dedent), ws, closed, n, ts, hs, h => by
    have hstart := stands_start hs h
    obtain ⟨hhd, hnewline, hindent, ⟨hne, hbody⟩, hdedent⟩ := hs
    have htokens := laid_header hhd h
    simp only [Block.tree, Tree.tokens_node, Tree.tokensAll_append, Tree.tokensAll_cons,
      Tree.tokensAll_nil, Tree.tokens_leaf, append_assoc, cons_append,
      nil_append] at htokens
    obtain ⟨v, htokens⟩ := htokens.of_newline hnewline
    obtain ⟨hv, htokens⟩ := htokens.of_indent hindent
    obtain ⟨hinner, closed', n', htokens⟩ := laid_stmts body hbody htokens
    obtain ⟨-, htokens⟩ := htokens.of_dedent hdedent
    exact ⟨some v, n', htokens, fun ss hss => .deep hne hstart hv hinner hss⟩

theorem laid_stmts : ∀ (ss : List Stmt) {ws : List Nat} {closed : Option Nat} {n : Nat}
    {ts : List Token}, Stmt.AllFormed ss →
    Laid ind ws closed n (Tree.tokensAll (Stmt.trees ss) ++ ts) →
    Aligned ind (ws.headD 0) closed ss ∧ ∃ closed' n', Laid ind ws closed' n' ts
  | [], ws, closed, n, ts, _, h => ⟨.nil, closed, n, h⟩
  | s :: ss, ws, closed, n, ts, hss, h => by
    rw [Stmt.trees, Tree.tokensAll_cons, append_assoc] at h
    obtain ⟨closed', n', hrest, hs⟩ := laid_stmt s hss.1 h
    obtain ⟨haligned, hrest⟩ := laid_stmts ss hss.2 hrest
    exact ⟨hs ss haligned, hrest⟩

end

end Laid

namespace Aligned

variable {ind : Pos → Nat} {w : Nat} {closed : Option Nat} {ss : List Stmt}

theorem of_none (h : Aligned ind w none ss) : Aligned ind w closed ss := by
  cases h with
  | nil => exact .nil
  | flat hbody hs h => exact .flat hbody (.inl (stands_none.1 hs)) h
  | deep hbody hs hv hinner h => exact .deep hbody (.inl (stands_none.1 hs)) hv hinner h

theorem head (h : Aligned ind w closed ss) :
    ∀ s ∈ ss.head?, Stands w closed (ind s.start.pos) := by
  rintro s hs
  cases h with
  | nil => cases hs
  | flat hbody hn h | deep hbody hn hv hinner h =>
    cases hs
    exact hn

theorem le (h : Aligned ind w closed ss) : ∀ s ∈ ss, w ≤ ind s.start.pos := by
  induction h with
  | nil => exact nofun
  | flat hbody hs h ih => exact forall_mem_cons.2 ⟨hs.le, ih⟩
  | deep hbody hs hv hinner h _ ih => exact forall_mem_cons.2 ⟨hs.le, ih⟩

theorem body (h : Aligned ind w closed ss) (hs : s ∈ ss) :
    ∃ v, w < v ∧ Aligned ind v none s.body := by
  induction h with
  | nil => cases hs
  | @flat w closed t ss hbody hn h ih =>
    rcases mem_cons.1 hs with rfl | hs
    · exact ⟨w + 1, Nat.lt_succ_self w, by rw [hbody]; exact .nil⟩
    · exact ih hs
  | deep hbody hn hv hinner h _ ih =>
    rcases mem_cons.1 hs with rfl | hs
    · exact ⟨_, hv, hinner⟩
    · exact ih hs

/-- A statement behind another one is as wide as the indentation, or narrower than the body that
ends in front of it. -/
theorem next (h : Aligned ind w closed ss) {t : Stmt} (hst : [s, t] <:+: ss) :
    ind t.start.pos = w ∨
      s.body ≠ [] ∧ w < ind t.start.pos ∧ ∀ u ∈ s.body, ind t.start.pos < ind u.start.pos := by
  induction h with
  | nil => simp at hst
  | flat hbody hn h ih =>
    rcases infix_cons_iff.1 hst with hfront | hlater
    · obtain ⟨rfl, rest, rfl⟩ := cons_prefix_cons.1 hfront
      exact .inl (stands_none.1 (h.head t rfl))
    · exact ih hlater
  | deep hbody hn hv hinner h _ ih =>
    rcases infix_cons_iff.1 hst with hfront | hlater
    · obtain ⟨rfl, rest, rfl⟩ := cons_prefix_cons.1 hfront
      rcases stands_some.1 (h.head t rfl) with hw | ⟨hw, hlt⟩
      · exact .inl hw
      · exact .inr ⟨hbody, hw, fun u hu => Nat.lt_of_lt_of_le hlt (hinner.le u hu)⟩
    · exact ih hlater

end Aligned

/-- The statements of a file are in an indentation of width zero. -/
theorem aligned_items {is : List Item} (his : ∀ i ∈ is, i.Formed) (e : Token)
    {closed : Option Nat} {n : Nat} {ts : List Token}
    (h : Laid ind [] closed n (Tree.tokensAll (is.map Item.tree) ++ ts)) :
    Aligned ind 0 closed (SourceFile.stmts ⟨is, e⟩) := by
  induction is generalizing closed n with
  | nil => exact .nil
  | cons i is ih =>
    rw [forall_mem_cons] at his
    rw [map_cons, Tree.tokensAll_cons, append_assoc] at h
    cases i with
    | blank newline =>
      obtain ⟨n', hrest⟩ := h.of_newline his.1
      exact (ih his.2 hrest).of_none
    | stmt s =>
      obtain ⟨closed', n', hrest, hs⟩ := laid_stmt s his.1 h
      exact hs _ (ih his.2 hrest)

/-! ### The statements of a text -/

def Stmt.indentation (text : String) (s : Stmt) : Nat := Syntax.indentation text s.start.pos

/-- The lists of statements that stand together in a file: all of it, or the body of a block. -/
inductive Together (f : SourceFile) : List Stmt → Prop
  | file : Together f f.stmts
  | body {ss : List Stmt} {s : Stmt} (h : Together f ss) (hs : s ∈ ss) : Together f s.body

/-- A statement that goes back a part of the way: it comes after the body of a block and is narrower
than that, but wider than the first statement that it stands together with. -/
def FallsShort (text : String) (first before s : Stmt) : Prop :=
  before.body ≠ [] ∧ first.indentation text < s.indentation text ∧
    ∀ t ∈ before.body, s.indentation text < t.indentation text

theorem SourceFile.aligned_stmts {text : String} (h : parse text = .ok f) :
    Aligned (indentation text) 0 none f.stmts := by
  have hkinds := kinds_of_ofTokens (endsFile_tokens text) h
  have hlaid := laid_tokens fun t ht => (hkinds.1 t ht).2
  obtain ⟨hformed, htokens⟩ := formed_of_ofTokens (endsFile_tokens text) h
  rw [← htokens, SourceFile.tree, Tree.tokens_node, Tree.tokensAll_append] at hlaid
  exact aligned_items hformed.1 f.eof hlaid

theorem Together.exists_aligned {ss : List Stmt}
    (hss : Together f ss) (h : Aligned ind 0 none f.stmts) : ∃ w, Aligned ind w none ss := by
  induction hss with
  | file => exact ⟨0, h⟩
  | body hss hs ih =>
    obtain ⟨w, haligned⟩ := ih
    obtain ⟨v, -, hbody⟩ := haligned.body hs
    exact ⟨v, hbody⟩

/-- The statements that stand together in a text start at one indentation, which is zero in the file
and is narrower than the bodies of their blocks, except for those that fall short. Without such an
exception all of them start where the first one does, and each body is wider than its header. -/
theorem indentation_together {text : String} {f : SourceFile} (h : SourceFile.parse text = .ok f)
    {ss : List Stmt} (hss : Together f ss) :
    (∀ s ∈ f.stmts.head?, s.indentation text = 0) ∧
    ∀ first ∈ ss.head?,
      (∀ s t, [s, t] <:+: ss →
        t.indentation text = first.indentation text ∨ FallsShort text first s t) ∧
      (∀ s ∈ ss, ∀ t ∈ s.body, first.indentation text < t.indentation text) ∧
      ((∀ s t, [s, t] <:+: ss → ¬FallsShort text first s t) →
        ∀ s ∈ ss, (∀ t ∈ ss, t.indentation text = s.indentation text) ∧
          ∀ t ∈ s.body, s.indentation text < t.indentation text) := by
  have hfile := SourceFile.aligned_stmts h
  obtain ⟨w, haligned⟩ := hss.exists_aligned hfile
  refine ⟨fun s hs => stands_none.1 (hfile.head s hs), fun first hfirst => ?_⟩
  have hw : first.indentation text = w := stands_none.1 (haligned.head first hfirst)
  have hnext : ∀ s t, [s, t] <:+: ss → t.indentation text = w ∨ FallsShort text first s t := by
    intro s t hst
    rw [FallsShort, hw]
    exact haligned.next hst
  have hbody : ∀ s ∈ ss, ∀ t ∈ s.body, w < t.indentation text := by
    intro s hs t ht
    obtain ⟨v, hv, hinner⟩ := haligned.body hs
    exact Nat.lt_of_lt_of_le hv (hinner.le t ht)
  rw [hw]
  refine ⟨hnext, hbody, fun hnone => ?_⟩
  have hall : ∀ s ∈ ss, s.indentation text = w := by
    intro s hs
    obtain ⟨xs, ys, rfl⟩ := List.append_of_mem hs
    rcases List.eq_nil_or_concat xs with rfl | ⟨xs, r, rfl⟩
    · cases hfirst
      exact hw
    · have hpair : [r, s] <:+: xs.concat r ++ s :: ys := ⟨xs, ys, by simp⟩
      exact (hnext r s hpair).resolve_right (hnone r s hpair)
  exact fun s hs => ⟨fun t ht => by rw [hall t ht, hall s hs], fun t ht => by
    rw [hall s hs]
    exact hbody s hs t ht⟩

/-- A block whose body is indented by a tab and then by spaces. -/
def tabbed : String := "module A:\n\tpin 1\n        pin 2\n"

theorem indentation_together_tabbed :
    ∃ f s, SourceFile.parse tabbed = .ok f ∧ Together f f.stmts ∧ Together f s.body ∧
      f.stmts = [s] ∧ s.body.length = 2 ∧
      ∀ t ∈ s.body, (∀ u ∈ s.body, u.indentation tabbed = t.indentation tabbed) ∧
        s.indentation tabbed < t.indentation tabbed := by
  have hread : (SourceFile.parse tabbed).toOption.map
      (fun f => f.stmts.map fun s => s.body.map (·.body.length)) = some [[0, 0]] := by
    decide +kernel
  obtain ⟨f, hf, hstmts⟩ := Option.map_eq_some_iff.1 hread
  obtain ⟨s, hs, hbody⟩ := List.map_eq_singleton_iff.1 hstmts
  have hparse := eq_ok_of_toOption hf
  have hmem : s ∈ f.stmts := by simp [hs]
  have hflat : ∀ t ∈ s.body, t.body = [] := by
    intro t ht
    have hzero : t.body.length ∈ [0, 0] := hbody ▸ List.mem_map_of_mem ht
    simpa using hzero
  have hfile := indentation_together hparse .file
  have hinner := indentation_together hparse (.body .file hmem)
  have hlength : s.body.length = 2 := by simpa using congrArg List.length hbody
  refine ⟨f, s, hparse, .file, .body .file hmem, hs, hlength, fun t ht => ⟨?_, ?_⟩⟩
  · have hne : s.body ≠ [] := List.ne_nil_of_mem ht
    refine ((hinner.2 _ (List.head?_eq_some_head hne)).2.2 (fun r u hru hshort => ?_) t ht).1
    exact hshort.1 (hflat r (hru.subset (by simp)))
  · exact (hfile.2 s (by simp [hs])).2.1 s hmem t ht

/-- The second statement of this file is indented by one space: it falls short of the first. -/
theorem indentation_falls_short :
    (SourceFile.parse "module A:\n  pin 1\n pin 2\n").toOption.map
      (fun f => f.stmts.map (·.indentation "module A:\n  pin 1\n pin 2\n")) = some [0, 1] := by
  decide +kernel

end Boardwright.Syntax
