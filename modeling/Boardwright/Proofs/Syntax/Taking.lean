import Boardwright.Proofs.Syntax.Derivation
import Boardwright.Syntax.Parse

/-!
# What reading takes

Reading takes tokens from the front of a list. Whatever form it gives is formed, and the tokens of
the tree of this form are those that it has taken: `takes_path`, `takes_simple`, …, `takes_items`.
-/

open List

namespace Boardwright.Syntax

/-! ### The tokens of trees -/

namespace Tree

@[simp] theorem tokens_leaf (t : Token) : (leaf t).tokens = [t] := rfl

@[simp] theorem tokens_node (rule : String) (ts : List Tree) :
    (node rule ts).tokens = tokensAll ts := rfl

@[simp] theorem tokensAll_nil : tokensAll [] = [] := rfl

@[simp] theorem tokensAll_cons (t : Tree) (ts : List Tree) :
    tokensAll (t :: ts) = t.tokens ++ tokensAll ts := rfl

@[simp] theorem tokensAll_append (ts us : List Tree) :
    tokensAll (ts ++ us) = tokensAll ts ++ tokensAll us := by
  induction ts with
  | nil => rfl
  | cons t ts ih => simp [ih]

@[simp] theorem tokensAll_flatMap {α : Type} (f : α → List Tree) (xs : List α) :
    tokensAll (xs.flatMap f) = xs.flatMap fun x => tokensAll (f x) := by
  induction xs with
  | nil => rfl
  | cons x xs ih => simp [ih]

@[simp] theorem tokensAll_optional {α : Type} (f : α → Tree) (o : Option α) :
    tokensAll (optional f o) = (o.map fun x => (f x).tokens).getD [] := by
  cases o <;> simp [optional]

end Tree

@[simp] theorem tokens_nameTree (t : Token) : (nameTree t).tokens = [t] := rfl

@[simp] theorem tokens_stringTree (t : Token) : (stringTree t).tokens = [t] := rfl

@[simp] theorem tokens_integerTree (t : Token) : (integerTree t).tokens = [t] := rfl

@[simp] theorem Path.tokens_tree (p : Path) :
    p.tree.tokens = p.head :: p.tail.flatMap fun w => [w.1, w.2] := by
  obtain ⟨head, tail⟩ := p
  cases tail <;> simp [Path.tree, Path.attrTree]

def PinLabel.token : PinLabel → Token
  | .name t => t
  | .number t => t

@[simp] theorem PinDef.tokens_tree (p : PinDef) : p.tree.tokens = [p.word, p.label.token] := by
  obtain ⟨word, label⟩ := p
  cases label <;> simp [PinDef.tree, PinLabel.token]

@[simp] theorem SignalDef.tokens_tree (s : SignalDef) : s.tree.tokens = [s.word, s.name] := rfl

@[simp] theorem Measure.tokens_tree (m : Measure) (rule : String) :
    (m.tree rule).tokens = m.number :: m.unit.toList := by
  obtain ⟨number, unit⟩ := m
  cases unit <;> simp [Measure.tree]

@[simp] theorem Tolerance.tokens_tree (t : Tolerance) :
    t.tree.tokens = t.number :: t.unit.toList := by
  obtain ⟨number, unit⟩ := t
  cases unit with
  | none => rfl
  | some u => by_cases hu : u.kind = .percent <;> simp [Tolerance.tree, hu]

@[simp] theorem Line.tokens_tree (l : Line) :
    l.tree.tokens = l.first.tree.tokens ++ (l.more.flatMap fun w => w.1 :: w.2.tree.tokens) ++
      l.last.toList ++ [l.newline] := by
  obtain ⟨first, more, last, newline⟩ := l
  cases last <;> simp [Line.tree]

namespace Parse

variable {α β : Type} {P : α → List Token → Prop} {Q : β → List Token → Prop} {p : Parse α}
  {f : α → Parse β} {ts us rest : List Token} {t : Token} {k : Kind} {x : α} {y : β}

/-! ### What reading takes -/

/-- Whatever reading gives, it has taken tokens from the front, none of them the end of a file,
that belong to what it gives. -/
def Takes (P : α → List Token → Prop) (p : Parse α) : Prop :=
  ∀ ts x rest, p.run ts = .ok (x, rest) →
    ∃ us, ts = us ++ rest ∧ (∀ t ∈ us, t.kind ≠ .eof) ∧ P x us

theorem run_bind_eq_ok :
    (p >>= f).run ts = .ok (y, rest) ↔
      ∃ x us, p.run ts = .ok (x, us) ∧ (f x).run us = .ok (y, rest) := by
  rw [StateT.run_bind]
  cases h : p.run ts with
  | error t => simp [bind, Except.bind]
  | ok r =>
    obtain ⟨x, us⟩ := r
    simp [bind, Except.bind]

theorem Takes.pure (hx : P x []) : Takes P (pure x) := by
  intro ts y rest h
  cases h
  exact ⟨[], rfl, by simp, hx⟩

theorem Takes.bind {F : α → Prop} {g : α → List Token} (hp : Takes (fun x us => F x ∧ us = g x) p)
    (hf : ∀ x, F x → Takes (fun y vs => Q y (g x ++ vs)) (f x)) : Takes Q (p >>= f) := by
  intro ts y rest h
  obtain ⟨x, ts', hx, hy⟩ := run_bind_eq_ok.1 h
  obtain ⟨us, rfl, hus, hF, rfl⟩ := hp ts x ts' hx
  obtain ⟨vs, rfl, hvs, hQ⟩ := hf x hF ts' y rest hy
  refine ⟨g x ++ vs, (append_assoc _ _ _).symm, fun t ht => ?_, hQ⟩
  exact (mem_append.1 ht).elim (hus t) (hvs t)

theorem takes_peek : Takes (fun _ us => True ∧ us = []) peek := by
  intro ts t rest h
  cases h
  exact ⟨[], rfl, by simp, trivial, rfl⟩

theorem takes_get : Takes (fun _ us => True ∧ us = []) (get : Parse (List Token)) := by
  intro ts x rest h
  cases h
  exact ⟨[], rfl, by simp, trivial, rfl⟩

theorem takes_stop : Takes P stop := by
  intro ts x rest h
  cases h

theorem run_expect (ht : t.kind = k) : (expect k).run (t :: ts) = .ok (t, ts) := by
  subst ht
  simp [expect, peek]
  rfl

theorem takes_expect (hk : k ≠ .eof) : Takes (fun t us => t.kind = k ∧ us = [t]) (expect k) := by
  intro ts t rest h
  unfold expect at h
  obtain ⟨u, us, hu, h⟩ := run_bind_eq_ok.1 h
  cases hu
  split at h
  · next hkind =>
      cases h
      cases ts with
      | nil => exact absurd hkind.symm hk
      | cons t ts => exact ⟨[t], rfl, by simpa using hkind ▸ hk, hkind, rfl⟩
  · cases h

theorem takes_optional (hk : k ≠ .eof) :
    Takes (fun o us => (∀ t ∈ o, t.kind = k) ∧ us = o.toList) (optional k) := by
  intro ts o rest h
  unfold optional at h
  obtain ⟨u, us, hu, h⟩ := run_bind_eq_ok.1 h
  cases hu
  split at h
  · next hkind =>
      cases h
      cases ts with
      | nil => exact absurd hkind.symm hk
      | cons t ts => exact ⟨[t], rfl, by simpa using hkind ▸ hk, by simpa using hkind, rfl⟩
  · cases h
    exact ⟨[], rfl, by simp, by simp, rfl⟩

theorem dotted_eq (ts : List Token) :
    ts = ((dotted ts).1.flatMap fun w => [w.1, w.2]) ++ (dotted ts).2 ∧
      ∀ w ∈ (dotted ts).1, w.1.kind = .dot ∧ w.2.kind = .name := by
  fun_induction dotted ts with
  | case1 d n ts hk more rest hdot ih =>
    rw [Bool.and_eq_true, decide_eq_true_eq, decide_eq_true_eq] at hk
    rw [hdot] at ih
    exact ⟨by simpa using ih.1, forall_mem_cons.2 ⟨hk, ih.2⟩⟩
  | case2 d n ts hk => simp
  | case3 ts hne => simp

theorem takes_path : Takes (fun p us => p.Formed ∧ us = p.tree.tokens) path := by
  refine (takes_expect (by decide)).bind fun head hhead => ?_
  intro ts p rest h
  cases h
  obtain ⟨hts, hkinds⟩ := dotted_eq ts
  refine ⟨_, hts, fun t ht => ?_, ⟨hhead, hkinds⟩, by simp⟩
  obtain ⟨w, hw, ht⟩ := mem_flatMap.1 ht
  obtain ⟨hdot, hname⟩ := hkinds w hw
  rcases mem_pair.1 ht with rfl | rfl
  · simp [hdot]
  · simp [hname]

theorem takes_pinDef : Takes (fun p us => p.Formed ∧ us = p.tree.tokens) pinDef := by
  refine (takes_expect (by decide)).bind fun word hword => ?_
  refine takes_peek.bind fun t _ => ?_
  split
  · refine (takes_expect (by decide)).bind fun name hname => .pure ?_
    exact ⟨⟨hword, hname⟩, by simp [PinLabel.token]⟩
  · refine (takes_expect (by decide)).bind fun number hnumber => .pure ?_
    exact ⟨⟨hword, hnumber⟩, by simp [PinLabel.token]⟩

theorem takes_signalDef : Takes (fun s us => s.Formed ∧ us = s.tree.tokens) signalDef := by
  refine (takes_expect (by decide)).bind fun word hword => ?_
  refine (takes_expect (by decide)).bind fun name hname => .pure ?_
  exact ⟨⟨hword, hname⟩, by simp⟩

theorem takes_connectable : Takes (fun c us => c.Formed ∧ us = c.tree.tokens) connectable := by
  refine takes_peek.bind fun t _ => ?_
  split
  · refine takes_pinDef.bind fun p hp => .pure ?_
    exact ⟨hp, by simp [Connectable.tree]⟩
  · refine takes_signalDef.bind fun s hs => .pure ?_
    exact ⟨hs, by simp [Connectable.tree]⟩
  · refine takes_path.bind fun p hp => takes_peek.bind fun t _ => ?_
    split
    · refine (takes_expect (by decide)).bind fun dot hdot => ?_
      refine (takes_expect (by decide)).bind fun number hnumber => .pure ?_
      exact ⟨⟨hp, hdot, hnumber⟩, by simp [Connectable.tree, numberedTree]⟩
    · exact .pure ⟨hp, by simp [Connectable.tree]⟩

theorem takes_measure :
    Takes (fun m us => m.Formed ∧ us = m.number :: m.unit.toList) measure := by
  refine (takes_expect (by decide)).bind fun number hnumber => ?_
  refine (takes_optional (by decide)).bind fun unit hunit => .pure ?_
  exact ⟨⟨hnumber, hunit⟩, by simp⟩

theorem takes_tolerance : Takes (fun t us => t.Formed ∧ us = t.tree.tokens) tolerance := by
  refine (takes_expect (by decide)).bind fun number hnumber => ?_
  refine (takes_optional (by decide)).bind fun percent hpercent => ?_
  cases percent with
  | some t => exact .pure ⟨⟨hnumber, by simpa using .inl (hpercent t rfl)⟩, by simp⟩
  | none =>
    refine (takes_optional (by decide)).bind fun unit hunit => .pure ?_
    exact ⟨⟨hnumber, fun u hu => .inr (hunit u hu)⟩, by simp⟩

theorem takes_physical : Takes (fun p us => p.Formed ∧ us = p.tree.tokens) physical := by
  refine takes_measure.bind fun m hm => takes_peek.bind fun t _ => ?_
  split
  · refine (takes_expect (by decide)).bind fun word hword => ?_
    refine takes_measure.bind fun high hhigh => .pure ?_
    exact ⟨⟨hm, hword, hhigh⟩, by simp [Physical.tree, Physical.formTree]⟩
  · refine (takes_expect (by decide)).bind fun mark hmark => ?_
    refine takes_tolerance.bind fun tolerance htolerance => .pure ?_
    exact ⟨⟨hm, hmark, htolerance⟩, by simp [Physical.tree, Physical.formTree]⟩
  · exact .pure ⟨hm, by simp [Physical.tree, Physical.formTree]⟩

theorem takes_assignable : Takes (fun v us => v.Formed ∧ us = v.tree.tokens) assignable := by
  refine takes_peek.bind fun t _ => ?_
  split
  · refine (takes_expect (by decide)).bind fun t ht => .pure ?_
    exact ⟨ht, by simp [Assignable.tree]⟩
  · have hnew : Takes (fun x us => (x.1.kind = .newWord ∧ x.2.Formed) ∧
        us = x.1 :: x.2.tree.tokens) newStmt := by
      refine (takes_expect (by decide)).bind fun word hword => ?_
      exact takes_path.bind fun cls hcls => .pure ⟨⟨hword, hcls⟩, by simp⟩
    refine hnew.bind fun x hx => .pure ?_
    exact ⟨hx, by simp [Assignable.tree, newTree]⟩
  · refine takes_physical.bind fun p hp => .pure ?_
    exact ⟨hp, by simp [Assignable.tree]⟩

theorem takes_connectAfter {left : Connectable} (hleft : left.Formed) :
    Takes (fun s us => s.Formed ∧ left.tree.tokens ++ us = s.tree.tokens) (connectAfter left) := by
  refine (takes_expect (by decide)).bind fun mark hmark => ?_
  refine takes_connectable.bind fun right hright => .pure ?_
  exact ⟨⟨hleft, hmark, hright⟩, by simp [Simple.tree, Simple.formTree]⟩

theorem takes_simple : Takes (fun s us => s.Formed ∧ us = s.tree.tokens) simple := by
  refine takes_peek.bind fun t _ => ?_
  split
  · refine (takes_expect (by decide)).bind fun word hword => ?_
    refine takes_path.bind fun what hwhat => ?_
    refine (takes_expect (by decide)).bind fun source hsource => ?_
    refine (takes_expect (by decide)).bind fun file hfile => .pure ?_
    exact ⟨⟨hword, hwhat, hsource, hfile⟩,
      by simp [Simple.tree, Simple.formTree]⟩
  · refine (takes_expect (by decide)).bind fun t ht => .pure ?_
    exact ⟨ht, by simp [Simple.tree, Simple.formTree]⟩
  · refine (takes_expect (by decide)).bind fun t ht => .pure ?_
    exact ⟨ht, by simp [Simple.tree, Simple.formTree, Tree.unary]⟩
  · refine takes_pinDef.bind fun p hp => takes_peek.bind fun t _ => ?_
    split
    · have hleft : (Connectable.pin p).Formed := hp
      simpa [Connectable.tree] using takes_connectAfter hleft
    · exact .pure ⟨hp, by simp [Simple.tree, Simple.formTree]⟩
  · refine takes_signalDef.bind fun p hp => takes_peek.bind fun t _ => ?_
    split
    · have hleft : (Connectable.signal p).Formed := hp
      simpa [Connectable.tree] using takes_connectAfter hleft
    · exact .pure ⟨hp, by simp [Simple.tree, Simple.formTree]⟩
  · refine takes_path.bind fun p hp => takes_peek.bind fun t _ => ?_
    split
    · refine (takes_expect (by decide)).bind fun mark hmark => ?_
      refine takes_assignable.bind fun value hvalue => .pure ?_
      exact ⟨⟨hp, hmark, hvalue⟩, by simp [Simple.tree, Simple.formTree]⟩
    · refine (takes_expect (by decide)).bind fun mark hmark => ?_
      refine takes_path.bind fun cls hcls => .pure ?_
      exact ⟨⟨hp, hmark, hcls⟩, by simp [Simple.tree, Simple.formTree]⟩
    · refine (takes_expect (by decide)).bind fun dot hdot => ?_
      refine (takes_expect (by decide)).bind fun number hnumber => ?_
      have hleft : (Connectable.numbered p dot number).Formed := ⟨hp, hdot, hnumber⟩
      simpa [Connectable.tree, numberedTree] using takes_connectAfter hleft
    · have hleft : (Connectable.path p).Formed := hp
      simpa [Connectable.tree] using takes_connectAfter hleft
  · exact takes_stop

theorem takes_more (fuel : Nat) :
    Takes (fun x us => ((∀ w ∈ x.1, w.1.kind = .semicolon ∧ w.2.Formed) ∧
      ∀ t ∈ x.2, t.kind = .semicolon) ∧
        us = (x.1.flatMap fun w => w.1 :: w.2.tree.tokens) ++ x.2.toList) (more fuel) := by
  induction fuel with
  | zero => exact takes_stop
  | succ fuel ih =>
    refine (takes_optional (by decide)).bind fun mark hmark => ?_
    cases mark with
    | none => exact .pure ⟨by simp, by simp⟩
    | some mark =>
      have hkind := hmark mark rfl
      refine takes_peek.bind fun t _ => ?_
      split
      · exact .pure ⟨by simpa using hkind, by simp⟩
      · refine takes_simple.bind fun s hs => ?_
        refine ih.bind fun x ⟨hrest, hlast⟩ => .pure ?_
        exact ⟨⟨forall_mem_cons.2 ⟨⟨hkind, hs⟩, hrest⟩, hlast⟩,
          by simp⟩

theorem takes_line : Takes (fun l us => l.Formed ∧ us = l.tree.tokens) line := by
  refine takes_simple.bind fun first hfirst => ?_
  refine takes_get.bind fun _ _ => ?_
  refine (takes_more _).bind fun x ⟨hmore, hlast⟩ => ?_
  refine (takes_expect (by decide)).bind fun newline hnewline => .pure ?_
  exact ⟨⟨hfirst, hmore, hlast, hnewline⟩, by simp⟩

theorem takes_blockWord : Takes (fun t us => t.kind.BeginsBlock ∧ us = [t]) blockWord := by
  have hword : ∀ k : Kind, k ≠ .eof → k.BeginsBlock →
      Takes (fun t us => t.kind.BeginsBlock ∧ [] ++ us = [t]) (expect k) := by
    intro k hk hbegins ts t rest h
    obtain ⟨us, hts, hne, rfl, hus⟩ := takes_expect hk ts t rest h
    exact ⟨us, hts, hne, hbegins, hus⟩
  refine takes_peek.bind fun t _ => ?_
  split
  · exact hword _ (by decide) (.inl rfl)
  · exact hword _ (by decide) (.inr (.inl rfl))
  · exact hword _ (by decide) (.inr (.inr rfl))

theorem takes_header : Takes (fun h us => h.Formed ∧ us = Tree.tokensAll h.trees) header := by
  refine takes_blockWord.bind fun word hword => ?_
  refine (takes_expect (by decide)).bind fun name hname => ?_
  refine (takes_optional (by decide)).bind fun mark hmark => ?_
  cases mark with
  | none =>
    refine (takes_expect (by decide)).bind fun colon hcolon => .pure ?_
    exact ⟨⟨hword, hname, by simp, hcolon⟩,
      by simp [Header.trees, Tree.unary]⟩
  | some mark =>
    refine takes_path.bind fun parent hparent => ?_
    refine (takes_expect (by decide)).bind fun colon hcolon => .pure ?_
    exact ⟨⟨hword, hname, by simpa using ⟨hmark mark rfl, hparent⟩, hcolon⟩,
      by simp [Header.trees, Tree.unary]⟩

/-- What is taken for statements and bodies, whatever the bound on the nesting. -/
theorem takes_stmts (fuel : Nat) :
    Takes (fun s us => s.Formed ∧ us = s.tree.tokens) (stmt fuel) ∧
      Takes (fun b us => b.Formed ∧ us = b.tree.tokens) (block fuel) ∧
      Takes (fun ss us => Stmt.AllFormed ss ∧ us = Tree.tokensAll (Stmt.trees ss))
        (stmts fuel) := by
  induction fuel with
  | zero => exact ⟨takes_stop, takes_stop, takes_stop⟩
  | succ fuel ih =>
    obtain ⟨hstmt, hblock, hstmts⟩ := ih
    have hheaded : Takes (fun (s : Stmt) us => s.Formed ∧ us = s.tree.tokens)
        (do let h ← header; return Stmt.block h (← block fuel)) := by
      refine takes_header.bind fun h hh => hblock.bind fun b hb => .pure ?_
      exact ⟨⟨hh, hb⟩, by simp [Stmt.tree]⟩
    refine ⟨?_, ?_, ?_⟩
    · refine takes_peek.bind fun t _ => ?_
      split
      · exact hheaded
      · exact hheaded
      · exact hheaded
      · refine takes_line.bind fun l hl => .pure ?_
        exact ⟨hl, by simp [Stmt.tree]⟩
    · refine takes_peek.bind fun t _ => ?_
      split
      · refine (takes_expect (by decide)).bind fun newline hnewline => ?_
        refine (takes_expect (by decide)).bind fun indent hindent => ?_
        refine hstmt.bind fun first hfirst => ?_
        refine hstmts.bind fun rest hrest => ?_
        refine (takes_expect (by decide)).bind fun dedent hdedent => .pure ?_
        exact ⟨⟨hnewline, hindent, ⟨by simp, hfirst, hrest⟩, hdedent⟩,
          by simp [Block.tree, Stmt.trees]⟩
      · refine takes_line.bind fun l hl => .pure ?_
        exact ⟨hl, by simp [Block.tree]⟩
    · refine takes_peek.bind fun t _ => ?_
      split
      · exact .pure ⟨trivial, by simp [Stmt.trees]⟩
      · refine hstmt.bind fun s hs => hstmts.bind fun ss hss => .pure ?_
        exact ⟨⟨hs, hss⟩, by simp [Stmt.trees]⟩

theorem takes_items (fuel : Nat) :
    Takes (fun is us => (∀ i ∈ is, i.Formed) ∧ us = is.flatMap fun i => i.tree.tokens)
      (items fuel) := by
  induction fuel with
  | zero => exact takes_stop
  | succ fuel ih =>
    refine takes_peek.bind fun t _ => ?_
    split
    · exact .pure ⟨by simp, by simp⟩
    · refine (takes_expect (by decide)).bind fun newline hnewline => ?_
      refine ih.bind fun is his => .pure ?_
      exact ⟨forall_mem_cons.2 ⟨hnewline, his⟩, by simp [Item.tree]⟩
    · refine (takes_stmts fuel).1.bind fun s hs => ?_
      refine ih.bind fun is his => .pure ?_
      exact ⟨forall_mem_cons.2 ⟨hs, his⟩, by simp [Item.tree]⟩

/-- The end of the file comes after its items. -/
theorem kind_after_items {fuel : Nat} {is : List Item}
    (h : (items fuel).run ts = .ok (is, rest)) :
    (rest.headD ⟨.eof, "<EOF>", ⟨1, 0⟩⟩).kind = .eof := by
  induction fuel generalizing ts is with
  | zero => cases h
  | succ fuel ih =>
    obtain ⟨t, us, ht, h⟩ := run_bind_eq_ok.1 h
    cases ht
    split at h
    · next hkind =>
        cases h
        exact hkind
    · obtain ⟨newline, us, -, h⟩ := run_bind_eq_ok.1 h
      obtain ⟨is', vs, his, h⟩ := run_bind_eq_ok.1 h
      cases h
      exact ih his
    · obtain ⟨s, us, -, h⟩ := run_bind_eq_ok.1 h
      obtain ⟨is', vs, his, h⟩ := run_bind_eq_ok.1 h
      cases h
      exact ih his

end Parse

/-- A file that is read is made of the tokens in front of its end. -/
theorem SourceFile.taken_of_ofTokens {ts : List Token} {f : SourceFile} (h : ofTokens ts = .ok f) :
    ∃ us rest, ts = us ++ rest ∧ (∀ t ∈ us, t.kind ≠ .eof) ∧
      us = (f.items.flatMap fun i => i.tree.tokens) ∧ f.Formed ∧
        f.eof = rest.headD ⟨.eof, "<EOF>", ⟨1, 0⟩⟩ := by
  obtain ⟨⟨g, rest⟩, hrun, rfl⟩ : ∃ x, Parse.file.run ts = .ok x ∧ x.1 = f := by
    rw [ofTokens] at h
    cases hrun : Parse.file.run ts with
    | error t =>
      rw [hrun] at h
      cases h
    | ok x =>
      rw [hrun] at h
      cases h
      exact ⟨x, rfl, rfl⟩
  obtain ⟨_, _, hget, hrun⟩ := Parse.run_bind_eq_ok.1 hrun
  cases hget
  obtain ⟨is, _, his, hrun⟩ := Parse.run_bind_eq_ok.1 hrun
  cases hrun
  obtain ⟨us, hus, hne, hformed, hitems⟩ := Parse.takes_items _ _ _ _ his
  exact ⟨us, rest, hus, hne, hitems, ⟨hformed, Parse.kind_after_items his⟩, rfl⟩

end Boardwright.Syntax
