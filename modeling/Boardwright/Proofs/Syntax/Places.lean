import Boardwright.Proofs.Syntax.Alignment

/-!
# The order of a text

The words and marks of a text stand one after the other: `pairwise_wordsOf_tokens`. Each simple
statement starts with a word of its own, so the simple statements of a file, however deep the blocks
are that they stand in, are in the order of their places: `SourceFile.pairwise_start`.
-/

open List

namespace Boardwright.Syntax

def wordsOf (ts : List Token) : List Token := ts.filter (·.kind.isWord)

@[simp] theorem wordsOf_append (ts us : List Token) :
    wordsOf (ts ++ us) = wordsOf ts ++ wordsOf us := filter_append ..

variable {t : Token}

theorem wordsOf_cons_of_isWord (ts : List Token) (ht : t.kind.isWord = true) :
    wordsOf (t :: ts) = t :: wordsOf ts := filter_cons_of_pos ht

theorem wordsOf_eq_nil {ts : List Token}
    (h : ∀ t ∈ ts, t.kind ∈ [Kind.newline, .indent, .dedent, .eof]) : wordsOf ts = [] := by
  refine filter_eq_nil_iff.2 fun t ht => ?_
  have hkind := h t ht
  generalize t.kind = k at hkind
  revert k
  decide

/-! ### Tokens -/

namespace Layout

theorem mem_marksAt {ws : List Nat} {spaces : List Char} {pos : Pos}
    (ht : t ∈ marksAt ws spaces pos) :
    t.kind ∈ [Kind.newline, .indent, .dedent, .eof] ∧ t.pos = pos := by
  rw [marksAt] at ht
  split at ht
  · rw [mem_singleton.1 ht]
    simp
  · rw [eq_of_mem_replicate ht]
    simp

theorem mem_finish {l : Layout} (ht : t ∈ l.finish) :
    t.kind ∈ [Kind.newline, .indent, .dedent, .eof] ∧ t.pos = l.pos := by
  rw [finish, close_eq] at ht
  split at ht
  · rw [mem_singleton.1 ht]
    simp
  · simp only [cons_append, mem_cons, mem_append, mem_replicate,
      not_mem_nil, or_false] at ht
    rcases ht with rfl | ⟨-, rfl⟩ | rfl <;> simp

theorem wordsOf_marksAt (ws : List Nat) (spaces : List Char) (pos : Pos) :
    wordsOf (marksAt ws spaces pos) = [] := wordsOf_eq_nil fun _ ht => (mem_marksAt ht).1

theorem wordsOf_finish (l : Layout) : wordsOf l.finish = [] :=
  wordsOf_eq_nil fun _ ht => (mem_finish ht).1

theorem pos_step (l : Layout) (x : Lexeme) : (l.step x).1.pos = x.text.foldl Pos.after l.pos := by
  rw [step]
  split
  · rfl
  · cases hpasses : l.passes x.ahead with
    | true => rw [endLine_of_passes hpasses]; rfl
    | false => rw [endLine_eq hpasses]; rfl
  · rfl

theorem wordsOf_step (l : Layout) (x : Lexeme) :
    wordsOf (l.step x).2 = [] ∨ ∃ t, wordsOf (l.step x).2 = [t] ∧ t.pos = l.pos := by
  rcases step_cases l x with ⟨kind, -, -, h⟩ | ⟨-, h⟩ | ⟨n, hn, -, -, h⟩ <;> rw [h]
  · by_cases hword : kind.isWord = true
    · exact .inr ⟨_, wordsOf_cons_of_isWord [] hword, rfl⟩
    · exact .inl (filter_cons_of_neg hword)
  · exact .inl rfl
  · refine .inl ?_
    rw [← singleton_append, wordsOf_append, wordsOf_marksAt, append_nil]
    exact wordsOf_eq_nil (by simp [hn])

theorem pairwise_wordsOf_tokensFrom {l : Layout} {xs : List Lexeme} (hxs : ∀ x ∈ xs, x.text ≠ []) :
    (∀ t ∈ wordsOf (l.tokensFrom xs), t.pos = l.pos ∨ l.pos.Before t.pos) ∧
      (wordsOf (l.tokensFrom xs)).Pairwise fun t u => t.pos.Before u.pos := by
  induction xs generalizing l with
  | nil => simp [tokensFrom, wordsOf_finish]
  | cons x xs ih =>
    rw [forall_mem_cons] at hxs
    obtain ⟨hfrom, hpairwise⟩ := @ih (l.step x).1 hxs.2
    -- all that follows stands after the lexeme
    have hlater : ∀ t ∈ wordsOf ((l.step x).1.tokensFrom xs), l.pos.Before t.pos := by
      have hnext := Pos.Before.foldl_after l.pos hxs.1
      rw [← pos_step] at hnext
      intro t ht
      rcases hfrom t ht with he | hbefore
      · rwa [he]
      · exact hnext.trans hbefore
    rw [tokensFrom, wordsOf_append]
    rcases wordsOf_step l x with h | ⟨t, h, hpos⟩ <;> rw [h]
    · exact ⟨fun t ht => .inr (hlater t ht), hpairwise⟩
    · rw [singleton_append, forall_mem_cons, pairwise_cons, hpos]
      exact ⟨⟨.inl rfl, fun u hu => .inr (hlater u hu)⟩, hlater, hpairwise⟩

end Layout

theorem pairwise_wordsOf_tokens (text : String) :
    (wordsOf (tokens text)).Pairwise fun t u => t.pos.Before u.pos :=
  (Layout.pairwise_wordsOf_tokensFrom fun _ => Lexeme.text_ne_nil).2

/-! ### Statements -/

theorem sublist_start_simple {s : Simple} (hs : s.Formed) :
    [s.start].Sublist (wordsOf s.tree.tokens) := by
  obtain ⟨us, htokens⟩ := Parse.tokens_simple_eq_cons s
  have hword : s.start.kind.isWord = true := by
    have hmem := Parse.start_kind_mem hs
    generalize s.start.kind = k at hmem
    revert k
    decide
  rw [htokens, wordsOf_cons_of_isWord us hword]
  exact (nil_sublist _).cons_cons _

theorem sublist_start_line {l : Line} (hl : l.Formed) :
    (l.simples.map Simple.start).Sublist (wordsOf l.tree.tokens) := by
  have hmore : ∀ more : List (Token × Simple), (∀ w ∈ more, w.2.Formed) →
      (more.map fun w => w.2.start).Sublist
        (wordsOf (more.flatMap fun w => w.1 :: w.2.tree.tokens)) := by
    intro more hmore
    induction more with
    | nil => exact .slnil
    | cons w more ih =>
      rw [forall_mem_cons] at hmore
      rw [flatMap_cons, wordsOf_append, map_cons, ← singleton_append]
      refine .append ?_ (ih hmore.2)
      exact (sublist_start_simple hmore.1).trans ((sublist_cons_self ..).filter _)
  have hsimples := (sublist_start_simple hl.1).append (hmore l.more fun w hw => (hl.2.1 w hw).2)
  rw [l.tokens_tree, wordsOf_append, wordsOf_append, wordsOf_append, append_assoc,
    Line.simples, map_cons, map_map, ← singleton_append]
  exact hsimples.trans (sublist_append_left ..)

mutual

theorem sublist_start_stmt (s : Stmt) (hs : s.Formed) :
    (s.simplesWithin.map Simple.start).Sublist (wordsOf s.tree.tokens) := by
  cases s with
  | line l =>
    have hl : l.Formed := hs
    simpa [Stmt.simplesWithin, Stmt.tree] using sublist_start_line hl
  | block h b =>
    have htokens : (Stmt.block h b).tree.tokens = Tree.tokensAll h.trees ++ b.tree.tokens := by
      simp [Stmt.tree]
    rw [htokens, wordsOf_append]
    exact (sublist_start_block b hs.2).trans (sublist_append_right ..)

theorem sublist_start_block (b : Block) (hb : b.Formed) :
    (b.simplesWithin.map Simple.start).Sublist (wordsOf b.tree.tokens) := by
  cases b with
  | inline l =>
    have hl : l.Formed := hb
    simpa [Block.simplesWithin, Block.tree] using sublist_start_line hl
  | indented newline indent body dedent =>
    have htokens : (Block.indented newline indent body dedent).tree.tokens =
        [newline, indent] ++ (Tree.tokensAll (Stmt.trees body) ++ [dedent]) := by
      simp [Block.tree]
    rw [htokens, wordsOf_append, wordsOf_append]
    exact ((sublist_start_stmts body hb.2.2.1.2).trans (sublist_append_left ..)).trans
      (sublist_append_right ..)

theorem sublist_start_stmts (ss : List Stmt) (hss : Stmt.AllFormed ss) :
    ((simplesWithin ss).map Simple.start).Sublist (wordsOf (Tree.tokensAll (Stmt.trees ss))) := by
  cases ss with
  | nil => exact .slnil
  | cons s ss =>
    rw [simplesWithin, Stmt.trees, Tree.tokensAll_cons, wordsOf_append, map_append]
    exact (sublist_start_stmt s hss.1).append (sublist_start_stmts ss hss.2)

end

namespace SourceFile

theorem sublist_start_items {is : List Item} (his : ∀ i ∈ is, i.Formed) (e : Token) :
    ((simplesWithin (stmts ⟨is, e⟩)).map Simple.start).Sublist
      (wordsOf (Tree.tokensAll (is.map Item.tree))) := by
  induction is with
  | nil => exact .slnil
  | cons i is ih =>
    rw [forall_mem_cons] at his
    rw [map_cons, Tree.tokensAll_cons, wordsOf_append]
    cases i with
    | blank newline => exact (ih his.2).trans (sublist_append_right ..)
    | stmt s =>
      have hstmts : stmts ⟨.stmt s :: is, e⟩ = s :: stmts ⟨is, e⟩ := rfl
      rw [hstmts, simplesWithin, map_append]
      exact (sublist_start_stmt s his.1).append (ih his.2)

/-- The simple statements of a text, at any depth, stand one after the other. -/
theorem pairwise_start {text : String} {f : SourceFile} (h : parse text = .ok f) :
    (simplesWithin f.stmts).Pairwise fun s t => s.start.pos.Before t.start.pos := by
  obtain ⟨hformed, htokens⟩ := formed_of_ofTokens (endsFile_tokens text) h
  have hsublist := sublist_start_items hformed.1 f.eof
  have hwords : (wordsOf (Tree.tokensAll (f.items.map Item.tree))).Sublist
      (wordsOf (tokens text)) := by
    rw [← htokens, SourceFile.tree, Tree.tokens_node, Tree.tokensAll_append, wordsOf_append]
    exact sublist_append_left ..
  have hstarts := (pairwise_wordsOf_tokens text).sublist (hsublist.trans hwords)
  rwa [pairwise_map] at hstarts

end SourceFile

end Boardwright.Syntax
