import Boardwright.Proofs.Syntax.Taking
import Mathlib.Data.List.Chain

/-!
# Tokens next to each other

From the productions it can be read off which sorts of token may begin and end what a pattern
allows, and so which may stand next to each other: `Derives.allows`. A string never follows a name
or a string, and within a statement the end of a line never follows what the layout makes. So if
it does follow that, it stands directly in the file: `exists_blank`.
-/

open List

namespace Boardwright.Syntax

variable {p : Pattern} {t : Tree} {ts : List Tree}

/-! ### Beginnings and ends -/

namespace Pattern

def nullable : Pattern → Bool
  | token _ | rule _ => false
  | empty | star _ => true
  | seq p q => p.nullable && q.nullable
  | alt p q => p.nullable || q.nullable

def begins (F : Nonterminal → List Kind) : Pattern → List Kind
  | token k => [k]
  | rule r => F r
  | empty => []
  | seq p q => p.begins F ++ if p.nullable then q.begins F else []
  | alt p q => p.begins F ++ q.begins F
  | star p => p.begins F

def ends (L : Nonterminal → List Kind) : Pattern → List Kind
  | token k => [k]
  | rule r => L r
  | empty => []
  | seq p q => q.ends L ++ if q.nullable then p.ends L else []
  | alt p q => p.ends L ++ q.ends L
  | star p => p.ends L

end Pattern

/-- What the productions say of a nonterminal after some rounds, if nothing is known at first. -/
def rounds (f : (Nonterminal → List Kind) → Pattern → List Kind) : Nat → Nonterminal → List Kind
  | 0, _ => []
  | n + 1, r => f (rounds f n) (production r)

/-- The sorts of token that a nonterminal may begin with. No nonterminal is more than ten
productions away from its first token. -/
def Nonterminal.begins : Nonterminal → List Kind := rounds Pattern.begins 10

def Nonterminal.ends : Nonterminal → List Kind := rounds Pattern.ends 10

theorem Nonterminal.begins_production (r : Nonterminal) :
    (production r).begins Nonterminal.begins ⊆ r.begins := by
  cases r <;> decide +kernel

theorem Nonterminal.ends_production (r : Nonterminal) :
    (production r).ends Nonterminal.ends ⊆ r.ends := by
  cases r <;> decide +kernel

theorem nullable_production (r : Nonterminal) : (production r).nullable = false := by
  cases r <;> rfl

/-- Whether what a pattern puts next to each other may stand there, and all its nonterminals are
among those given. -/
def Pattern.Joins (A : Nonterminal → Bool) (R : Kind → Kind → Bool) : Pattern → Bool
  | token _ | empty => true
  | rule r => A r
  | seq p q => p.Joins A R && q.Joins A R &&
      (p.ends Nonterminal.ends).all fun k => (q.begins Nonterminal.begins).all (R k)
  | alt p q => p.Joins A R && q.Joins A R
  | star p => p.Joins A R &&
      (p.ends Nonterminal.ends).all fun k => (p.begins Nonterminal.begins).all (R k)

def kindsOf (ts : List Tree) : List Kind := (Tree.tokensAll ts).map (·.kind)

theorem kindsOf_append (ts us : List Tree) : kindsOf (ts ++ us) = kindsOf ts ++ kindsOf us := by
  rw [kindsOf, Tree.tokensAll_append, map_append, ← kindsOf, ← kindsOf]

/-- Sorts of token that stand next to each other, begin and end as a pattern allows it. -/
structure Pattern.Allows (R : Kind → Kind → Bool) (p : Pattern) (ks : List Kind) : Prop where
  chain : ks.IsChain (R · ·)
  nonempty : ks = [] → p.nullable = true
  head : ∀ k ∈ ks.head?, k ∈ p.begins Nonterminal.begins
  last : ∀ k ∈ ks.getLast?, k ∈ p.ends Nonterminal.ends

variable {A : Nonterminal → Bool} {R : Kind → Kind → Bool}

theorem Pattern.Allows.append {q : Pattern} {ks ls : List Kind} (hp : p.Allows R ks)
    (hq : q.Allows R ls)
    (hR : ∀ k ∈ p.ends Nonterminal.ends, ∀ k' ∈ q.begins Nonterminal.begins, R k k' = true) :
    (Pattern.seq p q).Allows R (ks ++ ls) where
  chain := isChain_append.2 ⟨hp.chain, hq.chain,
    fun k hk k' hk' => hR k (hp.last k hk) k' (hq.head k' hk')⟩
  nonempty h := by
    obtain ⟨hks, hls⟩ := append_eq_nil_iff.1 h
    simp [Pattern.nullable, hp.nonempty hks, hq.nonempty hls]
  head k hk := by
    rw [Pattern.begins, mem_append]
    rw [head?_append, Option.mem_def, Option.or_eq_some_iff] at hk
    rcases hk with hk | ⟨hks, hk⟩
    · exact .inl (hp.head k hk)
    · rw [hp.nonempty (head?_eq_none_iff.1 hks)]
      exact .inr (hq.head k hk)
  last k hk := by
    rw [Pattern.ends, mem_append]
    rw [getLast?_append, Option.mem_def, Option.or_eq_some_iff] at hk
    rcases hk with hk | ⟨hls, hk⟩
    · exact .inl (hq.last k hk)
    · rw [hq.nonempty (getLast?_eq_none_iff.1 hls)]
      exact .inr (hp.last k hk)

theorem Derives.allows (hA : ∀ r, A r = true → (production r).Joins A R = true) (h : Derives p ts)
    (hp : p.Joins A R = true) : p.Allows R (kindsOf ts) := by
  induction h with
  | token h =>
    subst h
    exact ⟨isChain_singleton _, by simp [kindsOf, Tree.tokensAll, Tree.tokens],
      by simp [kindsOf, Tree.tokensAll, Tree.tokens, Pattern.begins],
      by simp [kindsOf, Tree.tokensAll, Tree.tokens, Pattern.ends]⟩
  | @rule r ts h ih =>
    have hrule := ih (hA r hp)
    have hkinds : kindsOf [.node r.label ts] = kindsOf ts := by
      simp [kindsOf, Tree.tokensAll, Tree.tokens]
    rw [hkinds]
    refine ⟨hrule.chain, fun hnil => ?_, fun k hk => r.begins_production (hrule.head k hk),
      fun k hk => r.ends_production (hrule.last k hk)⟩
    have := hrule.nonempty hnil
    rw [nullable_production] at this
    contradiction
  | empty => exact ⟨isChain_nil, fun _ => rfl, nofun, nofun⟩
  | seq _ _ ihp ihq =>
    simp only [Pattern.Joins, Bool.and_eq_true, all_eq_true] at hp
    rw [kindsOf_append]
    exact (ihp hp.1.1).append (ihq hp.1.2) hp.2
  | left _ ih =>
    simp only [Pattern.Joins, Bool.and_eq_true] at hp
    have h := ih hp.1
    exact ⟨h.chain, fun hnil => by simp [Pattern.nullable, h.nonempty hnil],
      fun k hk => mem_append_left _ (h.head k hk),
      fun k hk => mem_append_left _ (h.last k hk)⟩
  | right _ ih =>
    simp only [Pattern.Joins, Bool.and_eq_true] at hp
    have h := ih hp.2
    exact ⟨h.chain, fun hnil => by simp [Pattern.nullable, h.nonempty hnil],
      fun k hk => mem_append_right _ (h.head k hk),
      fun k hk => mem_append_right _ (h.last k hk)⟩
  | done => exact ⟨isChain_nil, fun _ => rfl, nofun, nofun⟩
  | again _ _ ihp ihs =>
    have hstar := ihs hp
    simp only [Pattern.Joins, Bool.and_eq_true, all_eq_true] at hp
    rw [kindsOf_append]
    have h := (ihp hp.1).append hstar hp.2
    refine ⟨h.chain, fun _ => rfl, fun k hk => ?_, fun k hk => ?_⟩
    · have hhead := h.head k hk
      simp only [Pattern.begins, mem_append] at hhead ⊢
      grind
    · simpa [Pattern.ends, Pattern.nullable] using h.last k hk

/-! ### Sorts of token -/

/-- Whether all sorts of token that a pattern names have a property. -/
def Pattern.all (P : Kind → Bool) : Pattern → Bool
  | token k => P k
  | rule _ | empty => true
  | seq p q | alt p q => p.all P && q.all P
  | star p => p.all P

theorem Derives.forall_kind {P : Kind → Bool} (hP : ∀ r, (production r).all P = true)
    (h : Derives p ts) (hp : p.all P = true) : ∀ k ∈ kindsOf ts, P k = true := by
  induction h with
  | token h =>
    subst h
    simpa [kindsOf, Tree.tokensAll, Tree.tokens, Pattern.all] using hp
  | @rule r ts h ih => simpa [kindsOf, Tree.tokensAll, Tree.tokens] using ih (hP r)
  | empty => simp [kindsOf, Tree.tokensAll]
  | seq _ _ ihp ihq =>
    simp only [Pattern.all, Bool.and_eq_true] at hp
    rw [kindsOf_append, forall_mem_append]
    exact ⟨ihp hp.1, ihq hp.2⟩
  | again _ _ ihp ihs =>
    rw [kindsOf_append, forall_mem_append]
    exact ⟨ihp hp, ihs hp⟩
  | left _ ih =>
    simp only [Pattern.all, Bool.and_eq_true] at hp
    exact ih hp.1
  | right _ ih =>
    simp only [Pattern.all, Bool.and_eq_true] at hp
    exact ih hp.2
  | done => simp [kindsOf, Tree.tokensAll]

/-- Whether a token of a sort belongs to a file that can be read: the grammar has no brackets. -/
def Kind.isPlain (k : Kind) : Bool := k != .unknown && Layout.bracket k == 0

/-- Whether a sort of token may follow another: a string follows no name and no string. -/
def Kind.leaves (k k' : Kind) : Bool := !(k' == .string && (k == .name || k == .string))

theorem isPlain_of_derives (h : Derives (.rule .fileInput) [t]) :
    ∀ k ∈ kindsOf [t], k.isPlain = true :=
  h.forall_kind (fun r => by cases r <;> decide) rfl

theorem isChain_of_derives (h : Derives (.rule .fileInput) [t]) :
    (kindsOf [t]).IsChain (Kind.leaves · ·) :=
  (h.allows (A := fun _ => true) (fun r _ => by cases r <;> decide +kernel) rfl).chain

/-! ### Statements -/

/-- The sorts of token that the layout makes within a file. -/
def Kind.isLayout (k : Kind) : Bool := k == .newline || k == .indent || k == .dedent

/-- Whether a sort of token may follow another in a statement: the end of a line does not follow
what the layout makes. -/
def Kind.goesOn (k k' : Kind) : Bool := !(k' == .newline && k.isLayout)

/-- The nonterminals that stand below others. -/
def Nonterminal.isInner : Nonterminal → Bool
  | .fileInput => false
  | _ => true

theorem allows_of_stmt (h : Derives (.rule .stmt) [t]) :
    (Pattern.rule .stmt).Allows Kind.goesOn (kindsOf [t]) :=
  h.allows (A := Nonterminal.isInner)
    (fun r hr => by cases r <;> first | decide +kernel | cases hr) rfl

/-- What stands directly in a file: the end of a line, or a statement. -/
def IsItem (t : Tree) : Prop :=
  (∃ n : Token, n.kind = .newline ∧ t = .leaf n) ∨ Derives (.rule .stmt) [t]

theorem derives_items :
    Derives (.star (.token .newline ||| .rule .stmt)) ts ↔ ∀ t ∈ ts, IsItem t := by
  constructor
  · intro h
    obtain ⟨xs, hxs, rfl⟩ := (((describes_token .newline).or (describes_self .stmt)).star ts).1 h
    intro t ht
    obtain ⟨x, hx, ht⟩ := mem_flatMap.1 ht
    rcases x with n | s
    · exact .inl ⟨n, hxs _ hx, mem_singleton.1 ht⟩
    · obtain rfl := mem_singleton.1 ht
      exact .inr (hxs _ hx)
  · intro h
    induction ts with
    | nil => exact .done
    | cons t ts ih =>
      rw [forall_mem_cons] at h
      rw [← singleton_append]
      refine .again ?_ (ih h.2)
      rcases h.1 with ⟨n, hn, rfl⟩ | hstmt
      · exact .left (.token hn)
      · exact .right hstmt

theorem derives_fileInput :
    Derives (.rule .fileInput) [t] ↔
      ∃ is e, t = .node "file_input" (is ++ [.leaf e]) ∧ (∀ i ∈ is, IsItem i) ∧ e.kind = .eof := by
  constructor
  · intro h
    obtain ⟨us, hus, hfile⟩ := derives_rule.1 h
    obtain ⟨is, es, rfl, his, hes⟩ := derives_append.1 hfile
    obtain ⟨e, he, rfl⟩ := derives_token.1 hes
    exact ⟨is, e, singleton_inj.1 hus, derives_items.1 his, he⟩
  · rintro ⟨is, e, rfl, his, he⟩
    exact .rule (r := .fileInput) (.seq (derives_items.2 his) (.token he))

theorem kindsOf_singleton (t : Tree) : kindsOf [t] = t.tokens.map (·.kind) := by
  simp [kindsOf, Tree.tokensAll]

theorem begins_stmt : ∀ k ∈ Nonterminal.begins .stmt, k.isLayout = false := by decide +kernel

theorem ends_stmt : ∀ k ∈ Nonterminal.ends .stmt, k = .newline ∨ k = .dedent := by decide +kernel

theorem tokens_ne_nil (h : Derives (.rule .stmt) [t]) : t.tokens ≠ [] := by
  intro hnil
  have hnonempty := (allows_of_stmt h).nonempty (by rw [kindsOf_singleton, hnil]; rfl)
  contradiction

/-- An item begins with something that the layout makes only if it is the end of a line. -/
theorem IsItem.exists_head (h : IsItem t) :
    ∃ u us, t.tokens = u :: us ∧ (u.kind.isLayout = true → t = .leaf u ∧ u.kind = .newline) := by
  rcases h with ⟨n, hn, rfl⟩ | h
  · exact ⟨n, [], rfl, fun _ => ⟨rfl, hn⟩⟩
  · obtain ⟨u, us, htokens⟩ := exists_cons_of_ne_nil (tokens_ne_nil h)
    refine ⟨u, us, htokens, fun hu => ?_⟩
    have hhead := begins_stmt u.kind
      ((allows_of_stmt h).head _ (by rw [kindsOf_singleton, htokens]; rfl))
    rw [hu] at hhead
    contradiction

/-- An item ends with the end of a line, or with the end of an indentation. -/
theorem IsItem.exists_last (h : IsItem t) :
    ∃ us u, t.tokens = us ++ [u] ∧ (u.kind = .newline ∨ u.kind = .dedent) := by
  rcases h with ⟨n, hn, rfl⟩ | h
  · exact ⟨[], n, rfl, .inl hn⟩
  · obtain ⟨us, u, htokens⟩ := eq_nil_or_concat t.tokens |>.resolve_left (tokens_ne_nil h)
    refine ⟨us, u, by simpa using htokens, ends_stmt u.kind ?_⟩
    exact (allows_of_stmt h).last _ (by simp [kindsOf_singleton, htokens])

/-- The end of a line that follows what the layout makes is an item of its own. -/
theorem exists_blank {is : List Tree} (his : ∀ i ∈ is, IsItem i) {xs ys : List Token} {u n : Token}
    (h : Tree.tokensAll is = xs ++ u :: n :: ys) (hu : u.kind.isLayout = true)
    (hn : n.kind = .newline) :
    ∃ is₁ is₂, is = is₁ ++ .leaf n :: is₂ ∧ Tree.tokensAll is₁ = xs ++ [u] ∧
      Tree.tokensAll is₂ = ys := by
  induction is generalizing xs with
  | nil => simp [Tree.tokensAll] at h
  | cons i is ih =>
    rw [forall_mem_cons] at his
    rw [Tree.tokensAll, append_cons] at h
    have hnext (hi : i.tokens = xs ++ [u]) (hrest : Tree.tokensAll is = n :: ys) :
        ∃ is₁ is₂, i :: is = is₁ ++ .leaf n :: is₂ ∧ Tree.tokensAll is₁ = xs ++ [u] ∧
          Tree.tokensAll is₂ = ys := by
      cases is with
      | nil => simp [Tree.tokensAll] at hrest
      | cons j js =>
        obtain ⟨v, vs, hv, hlayout⟩ := (his.2 j (by simp)).exists_head
        rw [Tree.tokensAll, hv, cons_append] at hrest
        obtain ⟨rfl, hys⟩ := List.cons.inj hrest
        obtain ⟨rfl, -⟩ := hlayout (by simp [Kind.isLayout, hn])
        obtain ⟨-, rfl⟩ := List.cons.inj hv
        exact ⟨[i], js, rfl, by simp [Tree.tokensAll, hi], hys⟩
    -- the first item ends before the two tokens, between them, or behind them
    rcases append_eq_append_iff.1 h with ⟨as, hcut, hrest⟩ | ⟨bs, hcut, hrest⟩
    · rcases eq_nil_or_concat as with rfl | ⟨as, v, rfl⟩
      · exact hnext (by simpa using hcut.symm) hrest
      · rw [concat_eq_append, ← append_assoc] at hcut
        obtain ⟨rfl, rfl⟩ := append_singleton_inj.1 hcut
        have hrest' : Tree.tokensAll is = as ++ u :: n :: ys := by simpa using hrest
        obtain ⟨is₁, is₂, rfl, hbefore, hbehind⟩ := ih his.2 hrest'
        exact ⟨i :: is₁, is₂, rfl, by simp [Tree.tokensAll, hbefore], hbehind⟩
    · cases bs with
      | nil => exact hnext (by simpa using hcut) (by simpa using hrest.symm)
      | cons b bs =>
        obtain ⟨rfl, -⟩ := List.cons.inj hrest
        rcases his.1 with ⟨v, -, rfl⟩ | hstmt
        · have hlength := congrArg List.length hcut
          simp [Tree.tokens] at hlength
          omega
        · have hchain := (allows_of_stmt hstmt).chain
          rw [kindsOf_singleton, hcut] at hchain
          simp only [map_append, map_cons, append_assoc,
            cons_append, nil_append] at hchain
          have hpair := (isChain_append_cons_cons.1 hchain).2.1
          simp [Kind.goesOn, hn, hu] at hpair

end Boardwright.Syntax
