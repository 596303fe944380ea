import Boardwright.Proofs.Syntax.Layout

/-!
# Indentations are balanced

Whatever a text holds, its tokens open and close indentations like brackets: none is closed that
is not open, and at the end of the text all are closed. Each one is opened directly after the end
of a line, and closed directly after the end of a line or after another that is closed there.

A list of tokens is `Nested` at a depth if it is made line by line in this way. The layout makes
such a list of any lexemes, and the depth is the number of its open indentations, which get wider
towards the innermost: `nested_read`. A prefix of a nested list is nested, so what is claimed of
each place in the tokens of a text is read off the last step by which a nested list was made.
-/

open List

namespace Boardwright.Syntax

variable {l : Layout} {ws : List Nat} {n : Token}

def tally (k : Kind) (ts : List Token) : Nat := ts.countP (·.kind = k)

/-- A list of tokens in which `depth` indentations are open at the end. -/
inductive Nested : List Token → Nat → Prop
  | nil : Nested [] 0
  | token {ts : List Token} {depth : Nat} {t : Token} (h : Nested ts depth)
      (hindent : t.kind ≠ .indent) (hdedent : t.kind ≠ .dedent) : Nested (ts ++ [t]) depth
  | opens {ts : List Token} {depth : Nat} {n t : Token} (h : Nested ts depth)
      (hn : n.kind = .newline) (ht : t.kind = .indent) : Nested (ts ++ [n, t]) (depth + 1)
  | closes {ts : List Token} {depth k : Nat} {n t : Token} (h : Nested ts (depth + k))
      (hn : n.kind = .newline) (ht : t.kind = .dedent) :
      Nested (ts ++ n :: List.replicate k t) depth

namespace Nested

variable {ts us : List Token} {depth : Nat}

/-- The end of a line at which no indentation changes. -/
theorem line (h : Nested ts depth) (hn : n.kind = .newline) :
    Nested (ts ++ [n]) depth :=
  h.token (by simp [hn]) (by simp [hn])

theorem tally_eq (h : Nested ts depth) : tally .indent ts = tally .dedent ts + depth := by
  induction h with
  | nil => rfl
  | token _ hindent hdedent ih => simp_all [tally]
  | opens _ hn ht ih =>
    simp_all [tally]
    omega
  | closes _ hn ht ih =>
    simp_all [tally, countP_replicate]
    omega

theorem prefix_append_cases {vs ws : List Token} (h : us <+: vs ++ ws) :
    us <+: vs ∨ ∃ xs, us = vs ++ xs ∧ xs <+: ws := by
  rcases prefix_or_prefix_of_prefix h (prefix_append vs ws) with h' | ⟨xs, rfl⟩
  · exact .inl h'
  · exact .inr ⟨xs, rfl, (prefix_append_right_inj vs).1 h⟩

theorem initial (h : Nested ts depth) (hus : us <+: ts) : ∃ d, Nested us d := by
  induction h generalizing us with
  | nil => exact ⟨0, prefix_nil.1 hus ▸ nil⟩
  | token h hindent hdedent ih =>
    rcases prefix_concat_iff.1 hus with rfl | hus
    · exact ⟨_, h.token hindent hdedent⟩
    · exact ih hus
  | @opens ts depth n t h hn ht ih =>
    rw [append_cons] at hus
    rcases prefix_concat_iff.1 hus with rfl | hus
    · exact ⟨_, append_cons ts n [t] ▸ h.opens hn ht⟩
    · rcases prefix_concat_iff.1 hus with rfl | hus
      · exact ⟨_, h.line hn⟩
      · exact ih hus
  | @closes ts depth k n t h hn ht ih =>
    rcases prefix_append_cases hus with hus | ⟨xs, rfl, hxs⟩
    · exact ih hus
    · rcases prefix_cons_iff.1 hxs with rfl | ⟨ys, rfl, hys⟩
      · exact ⟨_, (append_nil ts).symm ▸ h⟩
      · -- the list is cut among the indentations that are closed: the others stay open
        obtain ⟨j, hj, rfl⟩ : ∃ j ≤ k, ys = List.replicate j t :=
          ⟨_, prefix_replicate_iff.1 hys⟩
        have hdepth : depth + k = depth + (k - j) + j := by omega
        rw [hdepth] at h
        exact ⟨_, h.closes hn ht⟩

theorem dedents_le (h : Nested ts depth) (hus : us <+: ts) :
    tally .dedent us ≤ tally .indent us := by
  obtain ⟨d, hd⟩ := h.initial hus
  rw [hd.tally_eq]
  exact Nat.le_add_right _ _

theorem last_cases {t : Token} (h : Nested (us ++ [t]) depth) :
    (t.kind = .indent → ∃ vs n, us = vs ++ [n] ∧ n.kind = .newline) ∧
    (t.kind = .dedent →
      ∃ vs n ds, us = vs ++ n :: ds ∧ n.kind = .newline ∧ ∀ d ∈ ds, d.kind = .dedent) := by
  generalize hts : us ++ [t] = ts at h
  cases h with
  | nil => simp at hts
  | token h hindent hdedent =>
    obtain ⟨-, rfl⟩ := append_singleton_inj.1 hts
    exact ⟨fun ht => absurd ht hindent, fun ht => absurd ht hdedent⟩
  | @opens vs _ n i h hn ht =>
    rw [append_cons vs n [i]] at hts
    obtain ⟨rfl, rfl⟩ := append_singleton_inj.1 hts
    exact ⟨fun _ => ⟨vs, n, rfl, hn⟩, fun hd => by simp [ht] at hd⟩
  | @closes vs _ k n d h hn hd =>
    cases k with
    | zero =>
      obtain ⟨rfl, rfl⟩ := append_singleton_inj.1 hts
      exact ⟨fun ht => by simp [hn] at ht, fun ht => by simp [hn] at ht⟩
    | succ k =>
      rw [replicate_succ', ← cons_append, ← append_assoc] at hts
      obtain ⟨rfl, rfl⟩ := append_singleton_inj.1 hts
      refine ⟨fun ht => by simp [hd] at ht, fun _ => ⟨vs, n, _, rfl, hn, fun c hc => ?_⟩⟩
      rw [eq_of_mem_replicate hc, hd]

end Nested

namespace Layout

/-- Indentations that can be open at once, from the innermost outwards. -/
def Widens (ws : List Nat) : Prop := ws.Pairwise (· > ·) ∧ ∀ w ∈ ws, 0 < w

theorem Widens.indentsAt {ws : List Nat} (h : Widens ws) (n : Nat) : Widens (indentsAt ws n) := by
  rw [Layout.indentsAt]
  split
  · next hlt =>
      refine ⟨pairwise_cons.2 ⟨fun w hw => ?_, h.1⟩, forall_mem_cons.2 ⟨?_, h.2⟩⟩
      · -- the innermost indentation is the widest, and the line is wider than it
        cases ws with
        | nil => cases hw
        | cons v vs =>
          have hv : v < n := hlt
          rcases mem_cons.1 hw with rfl | hw
          · exact hv
          · exact lt_trans ((pairwise_cons.1 h.1).1 w hw) hv
      · exact Nat.zero_lt_of_lt hlt
  · have hsub := dropWhile_sublist (l := ws) (n < ·)
    exact ⟨h.1.sublist hsub, fun w hw => h.2 w (hsub.subset hw)⟩

theorem Widens.takeWhile (h : Widens ws) : ws.takeWhile (0 < ·) = ws := by
  simpa [takeWhile_eq_self_iff] using h.2

variable {ts : List Token}

/-- The tokens at the end of a line take the depth to the number of indentations of the next. -/
theorem nested_marksAt (h : Nested ts ws.length)
    (hn : n.kind = .newline) (spaces : List Char) (pos : Pos) :
    Nested (ts ++ n :: marksAt ws spaces pos) (indentsAt ws (width spaces)).length := by
  rw [marksAt, indentsAt]
  split
  · exact h.opens hn rfl
  · refine Nested.closes ?_ hn rfl
    rwa [Nat.add_comm, ← length_append, takeWhile_append_dropWhile]

theorem step_nested {x : Lexeme} (hx : x.rule ∈ Lexeme.rules)
    (h : Nested ts l.indents.length ∧ Widens l.indents) :
    Nested (ts ++ (l.step x).2) (l.step x).1.indents.length ∧ Widens (l.step x).1.indents := by
  rcases step_cases l x with ⟨kind, hrule, hindents, htokens⟩ | ⟨hindents, htokens⟩ |
    ⟨n, hn, -, hindents, htokens⟩
  · rw [hindents, htokens]
    have hkind : ∀ k ∈ [Kind.newline, .indent, .dedent, .eof], kind ≠ k := by
      rintro k hk rfl
      exact Lexeme.token_not_mem_rules hk (hrule ▸ hx)
    exact ⟨h.1.token (hkind _ (by simp)) (hkind _ (by simp)), h.2⟩
  · rw [hindents, htokens, append_nil]
    exact h
  · rw [hindents, htokens]
    exact ⟨nested_marksAt h.1 hn _ _, h.2.indentsAt _⟩

theorem nested_read {xs : List Lexeme} (hxs : ∀ x ∈ xs, x.rule ∈ Lexeme.rules)
    (h : Nested ts l.indents.length ∧ Widens l.indents) :
    Nested (ts ++ (l.read xs).2) (l.read xs).1.indents.length ∧ Widens (l.read xs).1.indents := by
  induction xs generalizing l ts with
  | nil => simpa [read] using h
  | cons x xs ih =>
    rw [forall_mem_cons] at hxs
    have hstep := ih hxs.2 (step_nested hxs.1 h)
    rwa [append_assoc] at hstep

theorem nested_finish (h : Nested ts l.indents.length ∧ Widens l.indents) :
    Nested (ts ++ l.finish) 0 := by
  rw [finish, close_eq, h.2.takeWhile, ← append_assoc]
  refine Nested.token ?_ nofun nofun
  split
  · next hempty =>
      rw [append_nil]
      have hdepth : l.indents.length = 0 := by simpa using hempty
      exact hdepth ▸ h.1
  · exact Nested.closes (by simpa using h.1) rfl rfl

end Layout

theorem nested_tokens (s : String) : Nested (tokens s) 0 := by
  have hrules : ∀ x ∈ Lexeme.all s.toList, x.rule ∈ Lexeme.rules :=
    fun x hx => Lexeme.rule_mem_rules hx
  rw [tokens, Layout.tokensFrom_eq]
  exact Layout.nested_finish (Layout.nested_read (l := {}) hrules ⟨.nil, by simp [Layout.Widens]⟩)

/-- The tokens of a text open and close indentations in pairs, from the first to the end of the
file. After any number of lexemes the indentations that were opened and not closed are as many as
the layout keeps open, which get wider inwards and are not empty. An indentation is opened directly
after the end of a line, and closed after the end of a line with nothing between but others that
are closed. -/
theorem indentation_balanced (s : String) :
    EndsFile (tokens s) ∧
    (∀ ts, ts <+: tokens s → tally .dedent ts ≤ tally .indent ts) ∧
    tally .dedent (tokens s) = tally .indent (tokens s) ∧
    (∀ xs, xs <+: Lexeme.all s.toList →
      (Layout.read {} xs).2 <+: tokens s ∧
      tally .indent (Layout.read {} xs).2 =
        tally .dedent (Layout.read {} xs).2 + (Layout.read {} xs).1.indents.length ∧
      (Layout.read {} xs).1.indents.Pairwise (· > ·) ∧
      ∀ w ∈ (Layout.read {} xs).1.indents, 0 < w) ∧
    ∀ ts t us, tokens s = ts ++ t :: us →
      (t.kind = .indent → ∃ vs n, ts = vs ++ [n] ∧ n.kind = .newline) ∧
      (t.kind = .dedent →
        ∃ vs n ds, ts = vs ++ n :: ds ∧ n.kind = .newline ∧ ∀ d ∈ ds, d.kind = .dedent) := by
  have hall := nested_tokens s
  refine ⟨endsFile_tokens s, fun ts hts => hall.dedents_le hts, hall.tally_eq.symm, ?_, ?_⟩
  · rintro xs ⟨ys, hys⟩
    have hrules : ∀ x ∈ xs, x.rule ∈ Lexeme.rules := by
      intro x hx
      have hmem : x ∈ Lexeme.all s.toList := hys ▸ List.mem_append_left _ hx
      exact Lexeme.rule_mem_rules hmem
    obtain ⟨hnested, hwidens⟩ := Layout.nested_read (l := {}) hrules
      ⟨.nil, by simp [Layout.Widens]⟩
    refine ⟨?_, hnested.tally_eq, hwidens⟩
    rw [tokens, ← hys, Layout.tokensFrom_append]
    exact List.prefix_append _ _
  · intro ts t us hts
    have hcut : ts ++ [t] <+: tokens s := ⟨us, by simp [hts]⟩
    obtain ⟨d, hd⟩ := hall.initial hcut
    exact hd.last_cases

/-- A line of a tab in a block of two spaces, and a line that is narrower than both. -/
def steppedText : String := "a:\n  b:\n\tc\n d"

/-- Before the last line two indentations are open, and both are closed at once. -/
theorem indentation_balanced_stepped :
    let xs := (Lexeme.all steppedText.toList).take 7
    let ts := (tokens steppedText).take 11
    (Layout.read {} xs).1.indents = [8, 2] ∧
    tally .indent (Layout.read {} xs).2 = tally .dedent (Layout.read {} xs).2 + 2 ∧
    tally .dedent ts ≤ tally .indent ts ∧
    ∃ t us, tokens steppedText = ts ++ t :: us ∧ t.kind = .dedent ∧
      ∃ vs n ds, ts = vs ++ n :: ds ∧ n.kind = .newline ∧ ∀ d ∈ ds, d.kind = .dedent := by
  obtain ⟨-, hinitial, -, hread, hafter⟩ := indentation_balanced steppedText
  have hindents :
      (Layout.read {} ((Lexeme.all steppedText.toList).take 7)).1.indents = [8, 2] := by
    decide +kernel
  obtain ⟨-, htally, -⟩ := hread _ (List.take_prefix 7 _)
  rw [hindents, List.length_cons, List.length_singleton] at htally
  have hnext : ((tokens steppedText).drop 11).head?.map (·.kind) = some .dedent := by
    decide +kernel
  obtain ⟨t, hhead, ht⟩ := Option.map_eq_some_iff.1 hnext
  obtain ⟨us, hdrop⟩ := List.head?_eq_some_iff.1 hhead
  have hcut := (List.take_append_drop 11 (tokens steppedText)).symm
  rw [hdrop] at hcut
  exact ⟨hindents, htally, hinitial _ (List.take_prefix 11 _), t, us, hcut, ht,
    (hafter _ t us hcut).2 ht⟩

end Boardwright.Syntax
