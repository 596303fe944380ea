import Boardwright.Proofs.Syntax.Lexeme

/-!
# Reading accepts the grammar

A formed form is read from the tokens of its tree if what comes next cannot belong to it:
`run_path`, `run_simple`, …, `run_file`. So a list of tokens that ends with the file is read if and
only if the grammar derives it, and what is read has the only derivation tree of the list:
`tree_ofTokens_iff`.
-/

open List

open Nat

namespace Boardwright.Syntax

variable {fuel : Nat} {ms : List (Token × Simple)} {l : Layout}

namespace Parse

variable {α β γ δ ε : Type} {p : Parse α} {f : α → Parse β} {ts us rest : List Token}
  {t newline : Token} {k : Kind} {x : α} {s : Simple} {last : Option Token}

/-! ### What is read

`simp` runs a parser on the tokens that it looks at, step by step. -/

@[local simp] theorem ok_bind (y : γ) (g : γ → Except ε δ) :
    (Except.ok y >>= g) = g y := rfl

@[local simp] theorem ok_map (y : γ) (g : γ → δ) :
    (g <$> (.ok y : Except ε γ)) = .ok (g y) := rfl

@[local simp] theorem pure_eq_ok (y : γ) : (pure y : Except ε γ) = .ok y := rfl

attribute [local simp] run_expect

theorem run_bind (h : p.run ts = .ok (x, us)) : (p >>= f).run ts = (f x).run us := by
  simp [h]

theorem run_get (ts : List Token) : (get : Parse (List Token)).run ts = .ok (ts, ts) := rfl

@[local simp] theorem run_peek (t : Token) (ts : List Token) :
    peek.run (t :: ts) = .ok (t, t :: ts) := rfl

@[local simp] theorem run_optional_some (ht : t.kind = k) :
    (optional k).run (t :: ts) = .ok (some t, ts) := by
  simp [optional, ht]

@[local simp] theorem run_optional_none (ht : t.kind ≠ k) :
    (optional k).run (t :: ts) = .ok (none, t :: ts) := by
  simp [optional, ht]

/-- What comes after a path: no dot with a name after it. -/
def PathEnds (ts : List Token) : Prop :=
  ∀ d n us, ts = d :: n :: us → d.kind = .dot → n.kind ≠ .name

theorem pathEnds_cons (ht : t.kind = k) (hk : k ≠ .dot) : PathEnds (t :: ts) := by
  intro d n us h hd
  cases h
  exact absurd (ht.symm.trans hd) hk

theorem dotted_flatMap {ws : List (Token × Token)}
    (hws : ∀ w ∈ ws, w.1.kind = .dot ∧ w.2.kind = .name) (hrest : PathEnds rest) :
    dotted ((ws.flatMap fun w => [w.1, w.2]) ++ rest) = (ws, rest) := by
  induction ws with
  | nil =>
    cases rest with
    | nil => rfl
    | cons d ts =>
      cases ts with
      | nil => rfl
      | cons n ts =>
        have hnot : ¬(d.kind = .dot ∧ n.kind = .name) := fun h => hrest d n ts rfl h.1 h.2
        simp [dotted, hnot]
  | cons w ws ih =>
    rw [forall_mem_cons] at hws
    simp [dotted, hws.1, ih hws.2]

theorem run_path {p : Path} (hp : p.Formed) (hrest : PathEnds rest) :
    path.run (p.head :: ((p.tail.flatMap fun w => [w.1, w.2]) ++ rest)) = .ok (p, rest) := by
  rw [path, run_bind (run_expect hp.1)]
  change Except.ok ((⟨p.head, (dotted _).1⟩ : Path), (dotted _).2) = _
  rw [dotted_flatMap hp.2 hrest]

theorem run_pinDef {p : PinDef} (hp : p.Formed) :
    pinDef.run (p.word :: p.label.token :: rest) = .ok (p, rest) := by
  obtain ⟨word, label⟩ := p
  obtain ⟨hword, hlabel⟩ := hp
  cases label <;> simp_all [pinDef, PinLabel.token]

theorem run_signalDef {s : SignalDef} (hs : s.Formed) :
    signalDef.run (s.word :: s.name :: rest) = .ok (s, rest) := by
  simp [signalDef, hs.1, hs.2]

def EndsSimple (t : Token) : Prop := t.kind = .semicolon ∨ t.kind = .newline

theorem EndsSimple.kind_ne (ht : EndsSimple t) (hsemicolon : k ≠ .semicolon)
    (hnewline : k ≠ .newline) : t.kind ≠ k := by
  rcases ht with ht | ht
  · exact ht ▸ hsemicolon.symm
  · exact ht ▸ hnewline.symm

theorem EndsSimple.pathEnds (ht : EndsSimple t) : PathEnds (t :: ts) :=
  ht.elim (pathEnds_cons · (by decide)) (pathEnds_cons · (by decide))

theorem pathEnds_numbered {dot number : Token} (hnumber : number.kind = .number) :
    PathEnds (dot :: number :: ts) := by
  intro d n us h _
  cases h
  simp [hnumber]

theorem run_connectable {c : Connectable} (hc : c.Formed) (ht : EndsSimple t) :
    connectable.run (c.tree.tokens ++ t :: ts) = .ok (c, t :: ts) := by
  cases c with
  | path p =>
    have hp : p.Formed := hc
    have hends : PathEnds (t :: ts) := ht.pathEnds
    rcases ht with ht | ht <;> simp [Connectable.tree, connectable, hp.1, run_path hp hends, ht]
  | numbered p dot number =>
    obtain ⟨hp, hdot, hnumber⟩ := hc
    simp [Connectable.tree, numberedTree, connectable, hp.1,
      run_path hp (pathEnds_numbered hnumber), hdot, hnumber]
  | signal s =>
    have hs : s.Formed := hc
    simp [Connectable.tree, connectable, hs.1, run_signalDef hs]
  | pin p =>
    have hp : p.Formed := hc
    simp [Connectable.tree, connectable, hp.1, run_pinDef hp]

theorem run_measure {m : Measure} (hm : m.Formed) (ht : t.kind ≠ .name) :
    measure.run (m.number :: (m.unit.toList ++ t :: ts)) = .ok (m, t :: ts) := by
  obtain ⟨number, unit⟩ := m
  cases unit with
  | none => simp [measure, show number.kind = _ from hm.1, ht]
  | some u => simp [measure, show number.kind = _ from hm.1, hm.2 u rfl]

theorem run_tolerance {m : Tolerance} (hm : m.Formed) (ht : EndsSimple t) :
    tolerance.run (m.number :: (m.unit.toList ++ t :: ts)) = .ok (m, t :: ts) := by
  obtain ⟨number, unit⟩ := m
  have hnumber : number.kind = .number := hm.1
  cases unit with
  | none => rcases ht with ht | ht <;> simp [tolerance, hnumber, ht]
  | some u => rcases hm.2 u rfl with hu | hu <;> simp [tolerance, hnumber, hu]

theorem run_physical {p : Physical} (hp : p.Formed) (ht : EndsSimple t) :
    physical.run (p.tree.tokens ++ t :: ts) = .ok (p, t :: ts) := by
  have hname := ht.kind_ne (k := .name) (by decide) (by decide)
  cases p with
  | bound low word high =>
    obtain ⟨hlow, hword, hhigh⟩ := hp
    simp [Physical.tree, Physical.formTree, physical, boundAfter, run_measure hlow, hword,
      run_measure hhigh hname]
  | bilateral nominal mark tolerance =>
    obtain ⟨hnominal, hmark, htolerance⟩ := hp
    simp [Physical.tree, Physical.formTree, physical, bilateralAfter, run_measure hnominal, hmark,
      run_tolerance htolerance ht]
  | implicit m =>
    rcases ht with ht | ht <;>
      simp [Physical.tree, Physical.formTree, physical, run_measure hp hname, ht]

theorem run_assignable {v : Assignable} (hv : v.Formed) (ht : EndsSimple t) :
    assignable.run (v.tree.tokens ++ t :: ts) = .ok (v, t :: ts) := by
  cases v with
  | string u => simp [Assignable.tree, assignable, show u.kind = _ from hv]
  | new word cls =>
    obtain ⟨hword, hcls⟩ := hv
    simp [Assignable.tree, newTree, assignable, newStmt, hword, run_path hcls ht.pathEnds]
  | physical p =>
    have hnumber : p.start.kind = .number := by
      cases p with
      | bound low word high => exact hv.1.1
      | bilateral nominal mark tolerance => exact hv.1.1
      | implicit m => exact hv.1
    have hpeek : peek.run (p.tree.tokens ++ t :: ts) =
        .ok (p.start, p.tree.tokens ++ t :: ts) := by
      cases p <;> simp [Physical.tree, Physical.formTree, Physical.start]
    simp [Assignable.tree, assignable, hpeek, hnumber, run_physical hv ht]

theorem run_simple_connect {left right : Connectable} {mark : Token} (hleft : left.Formed)
    (hmark : mark.kind = .tilde) (hright : right.Formed) (ht : EndsSimple t) :
    simple.run (left.tree.tokens ++ mark :: (right.tree.tokens ++ t :: ts)) =
      .ok (.connect left mark right, t :: ts) := by
  have hafter : connectable.run (right.tree.tokens ++ t :: ts) = _ := run_connectable hright ht
  generalize right.tree.tokens ++ t :: ts = us at hafter
  cases left with
  | path p =>
    have hp : p.Formed := hleft
    simp [Connectable.tree, simple, connectAfter, hp.1,
      run_path hp (pathEnds_cons hmark (by decide)), hmark, hafter]
  | numbered p dot number =>
    obtain ⟨hp, hdot, hnumber⟩ := hleft
    simp [Connectable.tree, numberedTree, simple, connectAfter, hp.1,
      run_path hp (pathEnds_numbered hnumber), hdot, hnumber, hmark, hafter]
  | signal s =>
    have hs : s.Formed := hleft
    simp [Connectable.tree, simple, connectAfter, hs.1, run_signalDef hs, hmark, hafter]
  | pin p =>
    have hp : p.Formed := hleft
    simp [Connectable.tree, simple, connectAfter, hp.1, run_pinDef hp, hmark, hafter]

theorem run_simple (hs : s.Formed) (ht : EndsSimple t) :
    simple.run (s.tree.tokens ++ t :: ts) = .ok (s, t :: ts) := by
  cases s with
  | importing word what source file =>
    obtain ⟨hword, hwhat, hsource, hfile⟩ := hs
    simp [Simple.tree, Simple.formTree, simple, importing, hword,
      run_path hwhat (pathEnds_cons hsource (by decide)), hsource, hfile]
  | assign target mark value =>
    obtain ⟨htarget, hmark, hvalue⟩ := hs
    simp [Simple.tree, Simple.formTree, simple, assignAfter, htarget.1,
      run_path htarget (pathEnds_cons hmark (by decide)), hmark, run_assignable hvalue ht]
  | connect left mark right =>
    obtain ⟨hleft, hmark, hright⟩ := hs
    simpa [Simple.tree, Simple.formTree] using run_simple_connect hleft hmark hright ht
  | retype target mark cls =>
    obtain ⟨htarget, hmark, hcls⟩ := hs
    simp [Simple.tree, Simple.formTree, simple, retypeAfter, htarget.1,
      run_path htarget (pathEnds_cons hmark (by decide)), hmark, run_path hcls ht.pathEnds]
  | pin p =>
    have hp : p.Formed := hs
    rcases ht with ht | ht <;>
      simp [Simple.tree, Simple.formTree, simple, hp.1, run_pinDef hp, ht]
  | signal s =>
    have hs : s.Formed := hs
    rcases ht with ht | ht <;>
      simp [Simple.tree, Simple.formTree, simple, hs.1, run_signalDef hs, ht]
  | doc u => simp [Simple.tree, Simple.formTree, simple, show u.kind = _ from hs]
  | equation u => simp [Simple.tree, Simple.formTree, Tree.unary, simple, show u.kind = _ from hs]

theorem run_peek_of_cons (h : ∃ us, ts = t :: us) (rest : List Token) :
    peek.run (ts ++ rest) = .ok (t, ts ++ rest) := by
  obtain ⟨us, rfl⟩ := h
  rfl

theorem tokens_simple_eq_cons (s : Simple) : ∃ us, s.tree.tokens = s.start :: us := by
  have hleft : ∀ left : Connectable, ∃ us, left.tree.tokens = left.start :: us := by
    rintro (p | ⟨p, dot, number⟩ | s | p) <;>
      simp [Connectable.tree, Connectable.start, numberedTree]
  cases s with
  | connect left mark right =>
    obtain ⟨us, hus⟩ := hleft left
    simp [Simple.tree, Simple.formTree, Simple.start, hus]
  | _ => simp [Simple.tree, Simple.formTree, Simple.start, Tree.unary]

theorem start_kind_mem (hs : s.Formed) :
    s.start.kind ∈ [Kind.importWord, .string, .equation, .pinWord, .signalWord, .name] := by
  cases s with
  | importing word what source file => simp [Simple.start, show word.kind = _ from hs.1]
  | assign target mark value => simp [Simple.start, show target.head.kind = _ from hs.1.1]
  | connect left mark right =>
    cases left with
    | path p => simp [Simple.start, Connectable.start, show p.head.kind = _ from hs.1.1]
    | numbered p dot number =>
      simp [Simple.start, Connectable.start, show p.head.kind = _ from hs.1.1.1]
    | signal s => simp [Simple.start, Connectable.start, show s.word.kind = _ from hs.1.1]
    | pin p => simp [Simple.start, Connectable.start, show p.word.kind = _ from hs.1.1]
  | retype target mark cls => simp [Simple.start, show target.head.kind = _ from hs.1.1]
  | pin p => simp [Simple.start, show p.word.kind = _ from hs.1]
  | signal s => simp [Simple.start, show s.word.kind = _ from hs.1]
  | doc t => simp [Simple.start, show t.kind = _ from hs]
  | equation t => simp [Simple.start, show t.kind = _ from hs]

/-- The rest of a line starts with a semicolon or ends it. -/
theorem exists_endsSimple (ts : List Token) (hms : ∀ w ∈ ms, w.1.kind = .semicolon ∧ w.2.Formed)
    (hlast : ∀ t ∈ last, t.kind = .semicolon) (hnewline : newline.kind = .newline) :
    ∃ t us, EndsSimple t ∧ (ms.flatMap fun w => w.1 :: w.2.tree.tokens) ++ (last.toList ++
      newline :: ts) = t :: us := by
  cases ms with
  | cons w ms => exact ⟨w.1, _, .inl (hms w (by simp)).1, rfl⟩
  | nil =>
    cases last with
    | some t => exact ⟨t, _, .inl (hlast t rfl), rfl⟩
    | none => exact ⟨newline, _, .inr hnewline, rfl⟩

theorem run_more (ts : List Token)
    (hms : ∀ w ∈ ms, w.1.kind = .semicolon ∧ w.2.Formed) (hlast : ∀ t ∈ last, t.kind = .semicolon)
    (hnewline : newline.kind = .newline) (hfuel : ms.length < fuel) :
    (more fuel).run ((ms.flatMap fun w => w.1 :: w.2.tree.tokens) ++ (last.toList ++
      newline :: ts)) = .ok ((ms, last), newline :: ts) := by
  induction ms generalizing fuel with
  | nil =>
    obtain ⟨fuel, rfl⟩ := exists_eq_succ_of_ne_zero (Nat.ne_of_gt hfuel)
    cases last with
    | none => simp [more, hnewline]
    | some mark => simp [more, hlast mark rfl, hnewline]
  | cons w ms ih =>
    obtain ⟨fuel, rfl⟩ := exists_eq_succ_of_ne_zero (Nat.ne_of_gt (zero_lt_of_lt hfuel))
    rw [forall_mem_cons] at hms
    obtain ⟨⟨hmark, hs⟩, hms⟩ := hms
    obtain ⟨t, us, ht, hus⟩ := exists_endsSimple ts hms hlast hnewline
    have hrest := ih hms (lt_of_succ_lt_succ hfuel)
    rw [hus] at hrest
    rw [flatMap_cons, append_assoc, hus, cons_append, more,
      run_bind (run_optional_some hmark)]
    dsimp only
    rw [run_bind (run_peek_of_cons (tokens_simple_eq_cons _) _)]
    split
    · next hkind => exact absurd (hkind ▸ start_kind_mem hs) (by decide)
    · simp [run_simple hs ht, hrest]

theorem length_le_length_more (ms : List (Token × Simple)) :
    ms.length ≤ (ms.flatMap fun w => w.1 :: w.2.tree.tokens).length := by
  induction ms with
  | nil => exact Nat.le_refl 0
  | cons w ms ih =>
    rw [flatMap_cons, length_append, length_cons, length_cons]
    omega

theorem run_line {l : Line} (hl : l.Formed) : line.run (l.tree.tokens ++ ts) = .ok (l, ts) := by
  obtain ⟨hfirst, hms, hlast, hnewline⟩ := hl
  obtain ⟨t, us, ht, hus⟩ := exists_endsSimple ts hms hlast hnewline
  have htokens : l.tree.tokens ++ ts = l.first.tree.tokens ++ t :: us := by
    rw [← hus]
    simp
  have hlength : l.more.length < (t :: us).length + 1 := by
    rw [← hus, length_append]
    have hle := length_le_length_more l.more
    omega
  have hmore := run_more ts hms hlast hnewline hlength
  rw [hus] at hmore
  rw [htokens, line, run_bind (run_simple hfirst ht), run_bind (run_get _), run_bind hmore,
    run_bind (run_expect hnewline)]
  rfl

theorem run_blockWord (ht : t.kind.BeginsBlock) : blockWord.run (t :: ts) = .ok (t, ts) := by
  rw [blockWord, run_bind (run_peek _ _)]
  rcases ht with ht | ht | ht <;> simp only [ht] <;> exact run_expect ht

theorem run_header {h : Header} (hh : h.Formed) :
    header.run (Tree.tokensAll h.trees ++ ts) = .ok (h, ts) := by
  obtain ⟨word, name, parent, colon⟩ := h
  obtain ⟨hword, hname, hparent, hcolon⟩ := hh
  dsimp only at hword hname hparent hcolon
  cases parent with
  | none =>
    simp [Header.trees, Tree.unary, header, run_blockWord hword, hname, hcolon]
  | some w =>
    obtain ⟨hmark, hp⟩ := hparent w rfl
    simp [Header.trees, Tree.unary, header, run_blockWord hword, hname, hmark,
      run_path hp (pathEnds_cons hcolon (by decide)), hcolon]

theorem tokens_line_eq_cons (l : Line) : ∃ us, l.tree.tokens = l.first.start :: us := by
  obtain ⟨us, hus⟩ := tokens_simple_eq_cons l.first
  simp [hus]

theorem tokens_stmt_eq_cons (s : Stmt) : ∃ us, s.tree.tokens = s.start :: us := by
  cases s with
  | line l =>
    obtain ⟨us, hus⟩ := tokens_line_eq_cons l
    exact ⟨us, by simpa [Stmt.tree, Stmt.start] using hus⟩
  | block h b => exact ⟨_, rfl⟩

theorem start_kind_not_mem {s : Stmt} (hs : s.Formed) :
    s.start.kind ∉ [Kind.newline, .dedent, .eof] := by
  cases s with
  | line l =>
    have hl : l.Formed := hs
    have hmem := start_kind_mem hl.1
    intro hnot
    rw [Stmt.start] at hnot
    generalize l.first.start.kind = k at hmem hnot
    revert k
    decide
  | block h b => rcases hs.1.1 with hw | hw | hw <;> simp [Stmt.start, hw]

/-- Statements are read under a bound on the nesting that exceeds the number of tokens. -/
def ReadsStmt (fuel : Nat) : Prop :=
  ∀ (s : Stmt) ts, s.Formed → s.tree.tokens.length < fuel →
    (stmt fuel).run (s.tree.tokens ++ ts) = .ok (s, ts)

def ReadsBlock (fuel : Nat) : Prop :=
  ∀ (b : Block) ts, b.Formed → b.tree.tokens.length < fuel →
    (block fuel).run (b.tree.tokens ++ ts) = .ok (b, ts)

/-- Lists of statements are read under such a bound, which counts the token that ends them. -/
def ReadsStmts (fuel : Nat) : Prop :=
  ∀ ss dedent ts, Stmt.AllFormed ss → dedent.kind = .dedent →
    (Tree.tokensAll (Stmt.trees ss)).length + 1 < fuel →
    (stmts fuel).run (Tree.tokensAll (Stmt.trees ss) ++ dedent :: ts) = .ok (ss, dedent :: ts)

theorem ReadsBlock.stmt (hblock : ReadsBlock fuel) : ReadsStmt (fuel + 1) := by
  intro s ts hs hfuel
  have hpeek := run_peek_of_cons (tokens_stmt_eq_cons s) ts
  cases s with
  | line l =>
    have hl : l.Formed := hs
    have hmem := start_kind_mem hl.1
    have htokens : (Stmt.line l).tree.tokens = l.tree.tokens := by simp [Stmt.tree]
    rw [Parse.stmt, run_bind hpeek, htokens]
    split
    · next hkind => exact absurd (hkind ▸ hmem) (by decide)
    · next hkind => exact absurd (hkind ▸ hmem) (by decide)
    · next hkind => exact absurd (hkind ▸ hmem) (by decide)
    · rw [run_bind (run_line hl)]
      rfl
  | block h b =>
    obtain ⟨hh, hb⟩ := hs
    have htokens : (Stmt.block h b).tree.tokens = Tree.tokensAll h.trees ++ b.tree.tokens := by
      simp [Stmt.tree]
    have hlength : b.tree.tokens.length < fuel := by
      have hword : 0 < (Tree.tokensAll h.trees).length := zero_lt_succ _
      rw [htokens, length_append] at hfuel
      omega
    rw [Parse.stmt, run_bind hpeek, htokens, append_assoc]
    rcases hh.1 with hw | hw | hw <;>
      simp [Stmt.start, hw, run_header hh, hblock b ts hb hlength]

theorem ReadsStmt.block {fuel : Nat} (hstmt : ReadsStmt fuel) (hstmts : ReadsStmts fuel) :
    ReadsBlock (fuel + 1) := by
  intro b ts hb hfuel
  cases b with
  | inline l =>
    have hl : l.Formed := hb
    have htokens : (Block.inline l).tree.tokens = l.tree.tokens := by simp [Block.tree]
    rw [htokens, Parse.block, run_bind (run_peek_of_cons (tokens_line_eq_cons l) ts)]
    split
    · next hkind => exact absurd (hkind ▸ start_kind_mem hl.1) (by decide)
    · rw [run_bind (run_line hl)]
      rfl
  | indented newline indent body dedent =>
    obtain ⟨hnewline, hindent, ⟨hne, hbody⟩, hdedent⟩ := hb
    obtain ⟨first, rest, rfl⟩ := exists_cons_of_ne_nil hne
    obtain ⟨hfirst, hrest⟩ := hbody
    simp only [Block.tree, Stmt.trees, Tree.tokens_node, Tree.tokensAll_cons, Tree.tokens_leaf,
      Tree.tokensAll_append, length_append, length_cons] at hfuel
    simp [Block.tree, Stmt.trees, Parse.block, hnewline, hindent,
      hstmt first _ hfirst (by omega), hstmts rest dedent ts hrest hdedent (by omega), hdedent]

theorem ReadsStmt.stmts (hstmt : ReadsStmt fuel) (hstmts : ReadsStmts fuel) :
    ReadsStmts (fuel + 1) := by
  intro ss dedent ts hss hdedent hfuel
  cases ss with
  | nil => simp [Stmt.trees, Parse.stmts, hdedent]
  | cons s ss =>
    obtain ⟨hs, hss⟩ := hss
    obtain ⟨us, hus⟩ := tokens_stmt_eq_cons s
    have hpos : 0 < s.tree.tokens.length := hus ▸ zero_lt_succ _
    simp only [Stmt.trees, Tree.tokensAll_cons, length_append] at hfuel
    rw [Stmt.trees, Tree.tokensAll_cons, append_assoc, Parse.stmts,
      run_bind (run_peek_of_cons (tokens_stmt_eq_cons s) _)]
    split
    · next hkind => exact absurd (by simp [hkind]) (start_kind_not_mem hs)
    · simp [hstmt s _ hs (by omega), hstmts ss dedent ts hss hdedent (by omega)]

theorem readsStmt (fuel : Nat) : ReadsStmt fuel := by
  have hall : ∀ fuel, ReadsStmt fuel ∧ ReadsBlock fuel ∧ ReadsStmts fuel := by
    intro fuel
    induction fuel with
    | zero => exact ⟨nofun, nofun, nofun⟩
    | succ fuel ih => exact ⟨ih.2.1.stmt, ih.1.block ih.2.2, ih.1.stmts ih.2.2⟩
  exact (hall fuel).1

theorem run_items {is : List Item} {eof : Token} (his : ∀ i ∈ is, i.Formed) (heof : eof.kind = .eof)
    (hfuel : (is.flatMap fun i => i.tree.tokens).length + 1 < fuel) :
    (items fuel).run ((is.flatMap fun i => i.tree.tokens) ++ [eof]) = .ok (is, [eof]) := by
  induction is generalizing fuel with
  | nil =>
    obtain ⟨fuel, rfl⟩ := exists_eq_succ_of_ne_zero (Nat.ne_of_gt (zero_lt_of_lt hfuel))
    simp [items, heof]
  | cons i is ih =>
    obtain ⟨fuel, rfl⟩ := exists_eq_succ_of_ne_zero (Nat.ne_of_gt (zero_lt_of_lt hfuel))
    rw [forall_mem_cons] at his
    rw [flatMap_cons, length_append] at hfuel
    rw [flatMap_cons, append_assoc, items]
    cases i with
    | blank newline =>
      have hnewline : newline.kind = .newline := his.1
      have hone : (Item.blank newline).tree.tokens = [newline] := rfl
      rw [hone, length_singleton] at hfuel
      have hrest := @ih fuel his.2 (by omega)
      simp [hone, hnewline, hrest]
    | stmt s =>
      have hs : s.Formed := his.1
      have htree : (Item.stmt s).tree = s.tree := rfl
      obtain ⟨us, hus⟩ := tokens_stmt_eq_cons s
      have hpos : 0 < s.tree.tokens.length := hus ▸ zero_lt_succ _
      rw [htree] at hfuel ⊢
      rw [run_bind (run_peek_of_cons (tokens_stmt_eq_cons s) _)]
      split
      · next hkind => exact absurd (by simp [hkind]) (start_kind_not_mem hs)
      · next hkind => exact absurd (by simp [hkind]) (start_kind_not_mem hs)
      · rw [run_bind (readsStmt fuel s _ hs (by omega)), run_bind (ih his.2 (by omega))]
        rfl

theorem run_file {f : SourceFile} (hf : f.Formed) :
    file.run f.tree.tokens = .ok (f, [f.eof]) := by
  have htokens : f.tree.tokens = (f.items.flatMap fun i => i.tree.tokens) ++ [f.eof] := by
    simp [SourceFile.tree, map_eq_flatMap]
  have hfuel : (f.items.flatMap fun i => i.tree.tokens).length + 1 <
      2 * f.tree.tokens.length + 2 := by
    rw [htokens, length_append, length_singleton]
    omega
  have hitems := run_items hf.1 hf.2 hfuel
  rw [file, run_bind (run_get _)]
  rw [← htokens] at hitems
  rw [run_bind hitems]
  rfl

end Parse

/-! ### Files -/

def EndsFile (ts : List Token) : Prop :=
  ∃ us e, ts = us ++ [e] ∧ (∀ t ∈ us, t.kind ≠ .eof) ∧ e.kind = .eof

theorem EndsFile.append {ts us : List Token} (h : EndsFile us) (hts : ∀ t ∈ ts, t.kind ≠ .eof) :
    EndsFile (ts ++ us) := by
  obtain ⟨vs, e, rfl, hvs, he⟩ := h
  refine ⟨ts ++ vs, e, (append_assoc _ _ _).symm, fun t ht => ?_, he⟩
  exact (mem_append.1 ht).elim (hts t) (hvs t)

theorem Layout.kind_ne_eof_of_mem_step {x : Lexeme} {t : Token}
    (hx : x.rule ≠ .token .eof) (ht : t ∈ (l.step x).2) : t.kind ≠ .eof := by
  intro heof
  rcases mem_step ht with ⟨hrule, -⟩ | hlayout
  · exact hx (heof ▸ hrule)
  · simp [heof] at hlayout

theorem Layout.endsFile_tokensFrom {xs : List Lexeme}
    (hxs : ∀ x ∈ xs, x.rule ≠ .token .eof) : EndsFile (l.tokensFrom xs) := by
  induction xs generalizing l with
  | nil =>
    refine EndsFile.append ⟨[], _, rfl, by simp, rfl⟩ fun t ht => ?_
    split at ht
    · cases ht
    · rcases mem_cons.1 ht with rfl | ht
      · exact nofun
      · simp [kind_of_mem_close ht]
  | cons x xs ih =>
    rw [forall_mem_cons] at hxs
    exact (ih hxs.2).append fun t ht => kind_ne_eof_of_mem_step hxs.1 ht

theorem endsFile_tokens (s : String) : EndsFile (tokens s) :=
  Layout.endsFile_tokensFrom fun _ hx hrule =>
    Lexeme.token_not_mem_rules (by simp) (hrule ▸ Lexeme.rule_mem_rules hx)

namespace SourceFile

theorem ofTokens_tokens {f : SourceFile} (hf : f.Formed) : ofTokens f.tree.tokens = .ok f := by
  rw [ofTokens, Parse.run_file hf]
  rfl

theorem formed_of_ofTokens {ts : List Token} {f : SourceFile} (hts : EndsFile ts)
    (h : ofTokens ts = .ok f) : f.Formed ∧ f.tree.tokens = ts := by
  obtain ⟨us, e, rfl, hus, he⟩ := hts
  obtain ⟨is, eof⟩ := f
  obtain ⟨vs, rest, hvs, hne, hitems, hformed, rfl⟩ := taken_of_ofTokens h
  -- the tokens of the items do not end the file, and the token after them does
  have hrest : rest = [e] := by
    rcases append_eq_append_iff.1 hvs with ⟨more, rfl, hmore⟩ | ⟨more, rfl, rfl⟩
    · cases more with
      | nil => exact hmore.symm
      | cons t more =>
        obtain ⟨rfl, -⟩ := List.cons.inj hmore
        exact absurd he (hne e (by simp))
    · cases more with
      | nil => rfl
      | cons t more => exact absurd hformed.2 (hus t (by simp))
  subst hrest
  refine ⟨hformed, ?_⟩
  rw [hvs, hitems]
  simp [SourceFile.tree, map_eq_flatMap]

/-- A list of tokens that ends with the file is read if and only if it is derived by the grammar,
and the tree of what is read is a derivation tree of it. No list of tokens has two of them. -/
theorem tree_ofTokens_iff {ts : List Token} (hts : EndsFile ts) :
    (∀ t, (ofTokens ts).map tree = .ok t ↔
      Derives (.rule .fileInput) [t] ∧ t.tokens = ts) ∧
    ∀ t u : Tree, Derives (.rule .fileInput) [t] → Derives (.rule .fileInput) [u] →
      t.tokens = u.tokens → t = u := by
  refine ⟨fun t => ⟨fun h => ?_, ?_⟩, fun t u ht hu htu => ?_⟩
  · obtain ⟨f, hf, rfl⟩ : ∃ f, ofTokens ts = .ok f ∧ f.tree = t := by
      cases hf : ofTokens ts with
      | error e =>
        rw [hf] at h
        cases h
      | ok f =>
        rw [hf] at h
        cases h
        exact ⟨f, rfl, rfl⟩
    obtain ⟨hformed, htokens⟩ := formed_of_ofTokens hts hf
    exact ⟨(describes_file _).2 ⟨f, hformed, rfl⟩, htokens⟩
  · rintro ⟨ht, rfl⟩
    obtain ⟨f, hf, hft⟩ := (describes_file _).1 ht
    obtain rfl := List.singleton_inj.1 hft
    rw [ofTokens_tokens hf]
    rfl
  · obtain ⟨f, hf, hft⟩ := (describes_file _).1 ht
    obtain ⟨g, hg, hgu⟩ := (describes_file _).1 hu
    obtain rfl := List.singleton_inj.1 hft
    obtain rfl := List.singleton_inj.1 hgu
    have hfg := ofTokens_tokens hf
    rw [htu, ofTokens_tokens hg] at hfg
    rw [Except.ok.inj hfg]

/-- A block of two lines that start with the same name. -/
def sampleText : String := "module M:\n a.1~pin 2\n a=1 to 2A;\n"

theorem tree_ofTokens_sampleText :
    EndsFile (tokens sampleText) ∧ ∃ t, (ofTokens (tokens sampleText)).map tree = .ok t ∧
      Derives (.rule .fileInput) [t] ∧ t.tokens = tokens sampleText := by
  refine ⟨endsFile_tokens sampleText, ?_⟩
  have hread : ((ofTokens (tokens sampleText)).map tree).toOption.isSome := by decide +kernel
  cases h : (ofTokens (tokens sampleText)).map tree with
  | error e =>
    rw [h] at hread
    cases hread
  | ok t => exact ⟨t, rfl, ((tree_ofTokens_iff (endsFile_tokens sampleText)).1 t).1 h⟩

end SourceFile

end Boardwright.Syntax
