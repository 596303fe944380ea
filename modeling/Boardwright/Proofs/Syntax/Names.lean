import Boardwright.Proofs.Address
import Boardwright.Proofs.Syntax.Taking

/-!
# The names in a source file

A token of the sort `name` is a word: the rule for names takes at least one character, and
only characters of names. No dot and no colon is one of them, so addresses can be built from
words. Reading only ever passes tokens on, so each name that a statement of a parsed file
holds is a word: `SourceFile.spelled_of_parse`.

What is said of the names in a statement is said for a sort of names, a `Spelling`. The two
sorts that are needed are all names that addresses can be built from, and words.
-/

open List

namespace Boardwright

variable {first : Bool} {l : Layout} {s : List Char} {t : Token} {x : Lexeme} {n : String}
  {c : Char}

/-- A word: a name as files spell it, or a numeral. -/
def IsWord (n : String) : Prop :=
  n ≠ "" ∧ ∀ c ∈ n.toList, Text.isNameStart c = true ∨ Text.isNamePart c = true

instance (n : String) : Decidable (IsWord n) :=
  decidable_of_iff (n ≠ "" ∧ n.toList.all fun c => Text.isNameStart c || Text.isNamePart c)
    (by simp [IsWord])

theorem IsWord.not_mem (h : IsWord n) (hstart : Text.isNameStart c = false)
    (hpart : Text.isNamePart c = false) : c ∉ n.toList := by
  intro hc
  have hor := h.2 c hc
  simp [hstart, hpart] at hor

theorem IsWord.isName (h : IsWord n) : IsName n :=
  ⟨h.1, h.not_mem (by decide) (by decide), h.not_mem (by decide) (by decide)⟩

theorem isNamePart_of_isDigit (h : c.isDigit = true) : Text.isNamePart c = true := by
  have hlt : c.toNat < 128 := by
    simp only [Char.isDigit, Bool.and_eq_true, decide_eq_true_eq] at h
    have hle : c.val.toNat ≤ 57 := h.2
    have : c.toNat = c.val.toNat := rfl
    omega
  simp [Text.isNamePart, hlt, Char.isAlphanum, h]

theorem isWord_toString (k : Nat) : IsWord (toString k) := by
  have hlist : (toString k).toList = Nat.toDigits 10 k := by
    rw [Nat.toString_eq_repr, Nat.toList_repr]
  constructor
  · intro h
    have hnil : Nat.toDigits 10 k = [] := by rw [← hlist, h]; rfl
    exact Nat.toDigits_ne_nil hnil
  · intro c hc
    rw [hlist] at hc
    have hdigit : c.isDigit = true := Nat.isDigit_of_mem_toDigits (by decide) (by decide) hc
    exact Or.inr (isNamePart_of_isDigit hdigit)

/-- A sort of names to which all numerals belong and from which addresses can be built. -/
structure Spelling where
  Holds : String → Prop
  isName : ∀ {n}, Holds n → IsName n
  number : ∀ k : Nat, Holds (toString k)

namespace Spelling

def names : Spelling := ⟨IsName, id, fun k => (isWord_toString k).isName⟩

def words : Spelling := ⟨IsWord, IsWord.isName, isWord_toString⟩

end Spelling

variable {N : Spelling}

namespace Syntax

/-- A token that is a name only if it belongs to a sort of names. -/
def Token.Spelled (N : Spelling) (t : Token) : Prop := t.kind = .name → N.Holds t.text

/-! ### Lexemes -/

namespace Lexeme

theorem best_mem (found : Rule × Nat) (cs : List (Rule × Nat)) :
    best found cs ∈ found :: cs := by
  induction cs generalizing found with
  | nil => exact mem_singleton_self found
  | cons c cs ih =>
    rw [best]
    split
    · exact mem_cons_of_mem _ (ih c)
    · rcases mem_cons.1 (ih found) with h | h
      · rw [h]
        exact mem_cons_self
      · exact mem_cons_of_mem _ (mem_cons_of_mem _ h)

theorem le_best (found : Rule × Nat) (cs : List (Rule × Nat)) :
    ∀ c ∈ found :: cs, c.2 ≤ (best found cs).2 := by
  induction cs generalizing found with
  | nil => simp [best]
  | cons c cs ih =>
    have hle := ih (if found.2 < c.2 then c else found)
    have hhead := hle _ mem_cons_self
    rw [best]
    intro d hd
    rcases mem_cons.1 hd with rfl | hd
    · refine Nat.le_trans ?_ hhead
      split <;> omega
    · rcases mem_cons.1 hd with rfl | hd
      · refine Nat.le_trans ?_ hhead
        split <;> omega
      · exact hle d (mem_cons_of_mem _ hd)

theorem eq_nameLength_of_mem {n : Nat} (h : (Rule.token .name, n) ∈ candidates first s) :
    n = nameLength s := by
  have hwords : ∀ w ∈ keywords, w.2 ≠ .name := by decide
  have hmarks : ∀ w ∈ marks, w.2 ≠ .name := by decide
  simp only [candidates, mem_append, mem_map, mem_cons, not_mem_nil, or_false,
    Prod.mk.injEq, Rule.token.injEq, reduceCtorEq, false_and, false_or, true_and] at h
  rcases h with (⟨w, hw, h⟩ | h) | ⟨w, hw, h⟩
  · exact absurd h.1 (hwords w hw)
  · exact h
  · exact absurd h.1 (hmarks w hw)

theorem isWord_take_nameLength (h : 0 < nameLength s) :
    IsWord (String.ofList (s.take (nameLength s))) := by
  cases s with
  | nil => simp [nameLength] at h
  | cons c cs =>
    by_cases hc : Text.isNameStart c
    · have htake : (c :: cs).take (nameLength (c :: cs)) = c :: cs.takeWhile Text.isNamePart := by
        have hprefix :=
          prefix_iff_eq_take.1 ( takeWhile_prefix Text.isNamePart (l := cs))
        simp [nameLength, hc, run, ← hprefix]
      rw [htake]
      refine ⟨by simp, fun d hd => ?_⟩
      rw [String.toList_ofList, mem_cons] at hd
      rcases hd with rfl | hd
      · exact Or.inl hc
      · exact Or.inr (all_eq_true.1 all_takeWhile d hd)
    · simp [nameLength, hc] at h

theorem isWord_of_next {cs : List Char} {n : Nat}
    (h : next first (c :: cs) = (.token .name, n)) : IsWord (String.ofList ((c :: cs).take n)) := by
  have hmem := best_mem (.token .unknown, 0) (candidates first (c :: cs))
  rw [← next, h] at hmem
  have hn : n = nameLength (c :: cs) := eq_nameLength_of_mem (by simpa using hmem)
  have hpos : 1 ≤ n := by
    have hle := le_best (.token .unknown, 0) (candidates first (c :: cs)) (.token .unknown, 1)
      (by simp [candidates])
    rwa [← next, h] at hle
  subst hn
  exact isWord_take_nameLength hpos

/-- A lexeme is cut by the rule that takes most. -/
theorem exists_next {skip : Nat} (hx : x ∈ allFrom first skip s) :
    ∃ first c cs n, next first (c :: cs) = (x.rule, n) ∧ x.text = (c :: cs).take n := by
  fun_induction allFrom first skip s with
  | case1 => cases hx
  | case2 first skip c cs ih => exact ih hx
  | case3 first c cs rule n hnext ih =>
    rcases mem_cons.1 hx with rfl | hx
    · exact ⟨first, c, cs, n, hnext, rfl⟩
    · exact ih hx

theorem isWord_of_mem_allFrom {skip : Nat} (hx : x ∈ allFrom first skip s)
    (hr : x.rule = .token .name) : IsWord (String.ofList x.text) := by
  obtain ⟨first, c, cs, n, hnext, htext⟩ := exists_next hx
  rw [htext]
  exact isWord_of_next (hr ▸ hnext)

end Lexeme

/-! ### Tokens -/

namespace Layout

theorem kind_of_mem_close {pos : Pos} {n : Nat} {ws : List Nat} (ht : t ∈ (close pos n ws).1) :
    t.kind = .dedent := by
  induction ws with
  | nil => simp [close] at ht
  | cons w ws ih =>
    rw [close] at ht
    split at ht
    · rcases mem_cons.1 ht with rfl | ht
      · rfl
      · exact ih ht
    · simp at ht

theorem kind_of_mem_endLine {text ahead : List Char} (ht : t ∈ (l.endLine text ahead).2) :
    t.kind ∈ [Kind.newline, .indent, .dedent] := by
  unfold endLine at ht
  simp only at ht
  split at ht
  · cases ht
  · split at ht
    · simp_all
    · split at ht
      · rcases mem_pair.1 ht with rfl | rfl <;> simp
      · rcases mem_cons.1 ht with rfl | ht
        · simp
        · simp [kind_of_mem_close ht]

/-- A token is the lexeme that it is made of, or the layout makes it. -/
theorem mem_step (ht : t ∈ (l.step x).2) :
    x.rule = .token t.kind ∧ t.text = String.ofList x.text ∨
      t.kind ∈ [Kind.newline, .indent, .dedent] := by
  unfold step at ht
  split at ht
  · next kind hr =>
      obtain rfl := mem_singleton.1 ht
      exact .inl ⟨hr, rfl⟩
  · exact .inr (kind_of_mem_endLine ht)
  · cases ht

theorem spelled_of_mem_step (hx : x.rule = .token .name → N.Holds (String.ofList x.text))
    (ht : t ∈ (l.step x).2) : t.Spelled N := by
  intro hk
  rcases mem_step ht with ⟨hrule, htext⟩ | hlayout
  · exact htext ▸ hx (hk ▸ hrule)
  · simp [hk] at hlayout

theorem kind_ne_name_of_mem_finish (ht : t ∈ l.finish) : t.kind ≠ .name := by
  unfold finish at ht
  rcases mem_append.1 ht with ht | ht
  · split at ht
    · simp at ht
    · rcases mem_cons.1 ht with rfl | ht
      · simp
      · simp [kind_of_mem_close ht]
  · obtain rfl := mem_singleton.1 ht
    simp

theorem spelled_of_mem_tokensFrom {xs : List Lexeme}
    (hxs : ∀ x ∈ xs, x.rule = .token .name → N.Holds (String.ofList x.text))
    (ht : t ∈ l.tokensFrom xs) : t.Spelled N := by
  induction xs generalizing l with
  | nil => exact fun hk => absurd hk (kind_ne_name_of_mem_finish ht)
  | cons x xs ih =>
    rw [forall_mem_cons] at hxs
    rcases mem_append.1 ht with ht | ht
    · exact spelled_of_mem_step hxs.1 ht
    · exact ih hxs.2 ht

end Layout

/-- Each name among the tokens of a text is a word. -/
theorem spelled_of_mem_tokens (hN : ∀ {n}, IsWord n → N.Holds n) {s : String} {t : Token}
    (ht : t ∈ tokens s) : t.Spelled N :=
  Layout.spelled_of_mem_tokensFrom (fun _ hx hr => hN (Lexeme.isWord_of_mem_allFrom hx hr)) ht

/-! ### Statements -/

/-- A definition of a pin whose label, if it is a name, belongs to a sort of names. -/
def PinDef.Spelled (N : Spelling) (p : PinDef) : Prop := ∀ t, p.label = .name t → N.Holds t.text

/-- A side of a connection with names of a sort. -/
def Connectable.Spelled (N : Spelling) : Connectable → Prop
  | .path p => ∀ n ∈ p.names, N.Holds n
  | .numbered p _ _ => ∀ n ∈ p.names, N.Holds n
  | .signal s => N.Holds s.name.text
  | .pin p => p.Spelled N

def Simple.Spelled (N : Spelling) : Simple → Prop
  | .assign target _ _ => ∀ n ∈ target.names, N.Holds n
  | .connect left _ right => left.Spelled N ∧ right.Spelled N
  | .retype target _ _ => ∀ n ∈ target.names, N.Holds n
  | .pin p => p.Spelled N
  | .signal s => N.Holds s.name.text
  | _ => True

mutual

/-- A statement, with all statements in it, with names of a sort. -/
def Stmt.Spelled (N : Spelling) : Stmt → Prop
  | .line l => ∀ s ∈ l.simples, s.Spelled N
  | .block h b => N.Holds h.name.text ∧ Block.Spelled N b

def Block.Spelled (N : Spelling) : Block → Prop
  | .inline l => ∀ s ∈ l.simples, s.Spelled N
  | .indented _ _ body _ => Stmt.AllSpelled N body

def Stmt.AllSpelled (N : Spelling) : List Stmt → Prop
  | [] => True
  | s :: ss => Stmt.Spelled N s ∧ Stmt.AllSpelled N ss

end

theorem Stmt.allSpelled_iff {ss : List Stmt} :
    Stmt.AllSpelled N ss ↔ ∀ s ∈ ss, s.Spelled N := by
  induction ss with
  | nil => simp [Stmt.AllSpelled]
  | cons s ss ih => simp [Stmt.AllSpelled, ih]

/-- A definition of a pin whose label, if it is a name, addresses can be built from. -/
abbrev PinDef.Sound (p : PinDef) : Prop := p.Spelled .names

/-- A side of a connection with names that addresses can be built from. -/
abbrev Connectable.Sound (c : Connectable) : Prop := c.Spelled .names

/-- A statement with names that addresses can be built from. -/
abbrev Simple.Sound (s : Simple) : Prop := s.Spelled .names

/-! ### Formed statements -/

theorem Path.Formed.spelled {p : Path} (hp : p.Formed) (hN : ∀ t ∈ p.tree.tokens, t.Spelled N) :
    ∀ n ∈ p.names, N.Holds n := by
  rw [p.tokens_tree, forall_mem_cons] at hN
  rw [Path.names, forall_mem_cons]
  refine ⟨hN.1 hp.1, fun n hn => ?_⟩
  obtain ⟨w, hw, rfl⟩ := mem_map.1 hn
  exact hN.2 w.2 (mem_flatMap.2 ⟨w, hw, by simp⟩) (hp.2 w hw).2

theorem PinDef.Formed.spelled {p : PinDef} (hp : p.Formed)
    (hN : ∀ t ∈ p.tree.tokens, t.Spelled N) : p.Spelled N := by
  obtain ⟨word, label⟩ := p
  rintro t rfl
  exact hN t (by simp [PinLabel.token]) hp.2

theorem SignalDef.Formed.spelled {s : SignalDef} (hs : s.Formed)
    (hN : ∀ t ∈ s.tree.tokens, t.Spelled N) : N.Holds s.name.text :=
  hN s.name (by simp) hs.2

theorem Connectable.Formed.spelled {c : Connectable} (hc : c.Formed)
    (hN : ∀ t ∈ c.tree.tokens, t.Spelled N) : c.Spelled N := by
  cases c with
  | path p =>
    refine Path.Formed.spelled hc fun t ht => hN t ?_
    rwa [Connectable.tree, Tree.tokens_node, Tree.tokensAll_cons, Tree.tokensAll_nil, append_nil]
  | numbered p dot number =>
    refine hc.1.spelled fun t ht => hN t ?_
    rw [Connectable.tree, Tree.tokens_node, Tree.tokensAll_cons, numberedTree, Tree.tokens_node]
    exact mem_append_left _ (mem_append_left _ ht)
  | signal s => exact SignalDef.Formed.spelled hc hN
  | pin p => exact PinDef.Formed.spelled hc fun t ht => hN t (mem_append_left _ ht)

theorem Simple.Formed.spelled {s : Simple} (hs : s.Formed)
    (hN : ∀ t ∈ s.tree.tokens, t.Spelled N) : s.Spelled N := by
  replace hN : ∀ t ∈ s.formTree.tokens, t.Spelled N := fun t ht =>
    hN t (mem_append_left _ ht)
  cases s with
  | assign target mark value | retype target mark cls =>
    exact hs.1.spelled fun t ht => hN t (mem_append_left _ ht)
  | connect left mark right =>
    refine ⟨hs.1.spelled fun t ht => hN t (mem_append_left _ ht),
      hs.2.2.spelled fun t ht => hN t (mem_append_right _ ?_)⟩
    rw [Tree.tokensAll_cons, Tree.tokensAll_cons]
    exact mem_append_right _ (mem_append_left _ ht)
  | pin p => exact PinDef.Formed.spelled hs hN
  | signal s => exact SignalDef.Formed.spelled hs hN
  | _ => trivial

theorem Line.Formed.spelled {l : Line} (hl : l.Formed) (hN : ∀ t ∈ l.tree.tokens, t.Spelled N) :
    ∀ s ∈ l.simples, s.Spelled N := by
  rw [l.tokens_tree] at hN
  simp only [forall_mem_append, forall_mem_flatMap, forall_mem_cons] at hN
  refine forall_mem_cons.2 ⟨hl.1.spelled hN.1.1.1, fun s hs => ?_⟩
  obtain ⟨w, hw, rfl⟩ := mem_map.1 hs
  exact (hl.2.1 w hw).2.spelled (hN.1.1.2 w hw).2

mutual

theorem Stmt.Formed.spelled (s : Stmt) (hs : s.Formed) (hN : ∀ t ∈ s.tree.tokens, t.Spelled N) :
    s.Spelled N := by
  cases s with
  | line l => exact Line.Formed.spelled hs fun t ht => hN t (by simpa [Stmt.tree] using ht)
  | block h b =>
    refine ⟨hN h.name ?_ hs.1.2.1, Block.Formed.spelled b hs.2 fun t ht => hN t ?_⟩
    · simp [Stmt.tree, Header.trees]
    · simp [Stmt.tree, ht]

theorem Block.Formed.spelled (b : Block) (hb : b.Formed) (hN : ∀ t ∈ b.tree.tokens, t.Spelled N) :
    b.Spelled N := by
  cases b with
  | inline l => exact Line.Formed.spelled hb fun t ht => hN t (by simpa [Block.tree] using ht)
  | indented newline indent body dedent =>
    exact Stmt.AllFormed.spelled body hb.2.2.1.2 fun t ht => hN t (by simp [Block.tree, ht])

theorem Stmt.AllFormed.spelled (ss : List Stmt) (hss : Stmt.AllFormed ss)
    (hN : ∀ t ∈ Tree.tokensAll (Stmt.trees ss), t.Spelled N) : Stmt.AllSpelled N ss := by
  cases ss with
  | nil => trivial
  | cons s ss =>
    rw [Stmt.trees, Tree.tokensAll_cons, forall_mem_append] at hN
    exact ⟨Stmt.Formed.spelled s hss.1 hN.1, Stmt.AllFormed.spelled ss hss.2 hN.2⟩

end

theorem SourceFile.spelled_of_parse (hN : ∀ {n}, IsWord n → N.Holds n) {text : String}
    {f : SourceFile} (h : SourceFile.parse text = .ok f) : Stmt.AllSpelled N f.stmts := by
  obtain ⟨is, e⟩ := f
  obtain ⟨us, rest, htokens, -, rfl, hformed, -⟩ := taken_of_ofTokens h
  refine Stmt.allSpelled_iff.2 fun s hs => ?_
  obtain ⟨i, hi, his⟩ := mem_filterMap.1 hs
  cases i with
  | blank t => cases his
  | stmt s' =>
    cases his
    refine Stmt.Formed.spelled s (hformed.1 _ hi) fun t ht => ?_
    refine @spelled_of_mem_tokens N hN text t ?_
    rw [htokens]
    exact mem_append_left _ (mem_flatMap.2 ⟨_, hi, ht⟩)

end Syntax

end Boardwright
