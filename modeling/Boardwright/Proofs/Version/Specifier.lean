import Boardwright.Proofs.Text.Pieces
import Boardwright.Proofs.Version.Order
import Boardwright.Proofs.Version.Reading

/-!
# What specifiers mean

A `Specifier` is made of alternatives, and an alternative of comparators; its text has `||` between
the alternatives, with any number of spaces around it, and one space between comparators. It holds
of a version if all comparators of one alternative do. A version satisfies the text of a specifier
exactly if the specifier holds of it without its prerelease and build, and the question is always
answered: `satisfies_text`.

White space at the ends of a text is stripped again and again on the way. It never matters, since
`matchesAlternative` and `matchesComparator` strip their text themselves: `satisfies_eq` and
`matchesAlternative_eq`.
-/

open List

namespace Boardwright.Version

/-! ### Operators -/

def Operator.mark : Operator → String
  | .caret => "^"
  | .tilde => "~"
  | .differs => "!"
  | .equal => "=="
  | .atLeast => ">="
  | .atMost => "<="
  | .above => ">"
  | .below => "<"

def Operator.Holds (v x : Version) : Operator → Prop
  | .caret => v.order x ≠ .lt ∧ v.order x.bumpMajor = .lt
  | .tilde => v.order x ≠ .lt ∧ v.order x.bumpMinor = .lt
  | .differs => v.order x ≠ .eq
  | .equal => v.order x = .eq
  | .atLeast => v.order x ≠ .lt
  | .atMost => v.order x ≠ .gt
  | .above => v.order x = .gt
  | .below => v.order x = .lt

theorem le_iff {v x : Version} : x.le v = true ↔ v.order x ≠ .lt := by
  rw [le, bne_iff_ne, ne_eq, order_eq_gt_iff]

theorem Operator.holds_iff {op : Operator} {v x : Version} :
    op.holds v x = true ↔ op.Holds v x := by
  cases op with
  | caret | tilde => simp [Operator.holds, Operator.Holds, le_iff, lt]
  | atLeast => exact le_iff
  | above => simp [Operator.holds, Operator.Holds, lt, order_eq_gt_iff]
  | differs | equal => simp [Operator.holds, Operator.Holds, same]
  | atMost => simp [Operator.holds, Operator.Holds, le]
  | below => simp [Operator.holds, Operator.Holds, lt]

instance (op : Operator) (v x : Version) : Decidable (op.Holds v x) :=
  decidable_of_iff (op.holds v x = true) Operator.holds_iff

/-! ### Specifiers -/

/-- A comparator: `*`, or a text that is read as a version, behind an operator that may be
missing. -/
inductive Comparator
  | any
  | version (op : Option Operator) (text : String) (x : Version) (h : parse text = .ok x)

/-- Comparators with a space between them, and the numbers of spaces before and after them. -/
structure Alternative where
  before : Nat
  first : Comparator
  more : List Comparator
  after : Nat

/-- Alternatives. -/
structure Specifier where
  first : Alternative
  more : List Alternative

namespace Comparator

def text : Comparator → String
  | any => "*"
  | version op text _ _ => (op.elim "" Operator.mark) ++ text

def Holds (v : Version) : Comparator → Prop
  | any => True
  | version op _ x _ => (op.getD .caret).Holds v x

instance (v : Version) : DecidablePred (Holds v)
  | any => .isTrue trivial
  | version op _ x _ => inferInstanceAs (Decidable ((op.getD .caret).Holds v x))

end Comparator

namespace Alternative

variable (a : Alternative)

def comparators : List Comparator := a.first :: a.more

def text : String :=
  String.ofList (.replicate a.before ' ') ++ Text.join " " (a.comparators.map Comparator.text) ++
    String.ofList (.replicate a.after ' ')

def Holds (v : Version) : Prop := ∀ c ∈ a.comparators, c.Holds v

instance (v : Version) : Decidable (a.Holds v) :=
  inferInstanceAs (Decidable (∀ c ∈ a.comparators, c.Holds v))

end Alternative

namespace Specifier

variable (s : Specifier)

def alternatives : List Alternative := s.first :: s.more

def text : String := Text.join "||" (s.alternatives.map Alternative.text)

def Holds (v : Version) : Prop := ∃ a ∈ s.alternatives, a.Holds v

instance (v : Version) : Decidable (s.Holds v) :=
  inferInstanceAs (Decidable (∃ a ∈ s.alternatives, a.Holds v))

end Specifier

/-! ### Characters -/

theorem isBlank_of_isDigit {c : Char} (hc : Text.isDigit c = true) : Text.isBlank c = false := by
  have hzeros : ∀ z ∈ Text.zeros, ∀ d < 10, Text.isBlank (Char.ofNat (z + d)) = false := by
    decide +kernel
  obtain ⟨z, hz, hlow, hhigh⟩ := Text.isDigit_iff.1 hc
  have hblank := hzeros z hz (c.toNat - z) (by omega)
  rwa [Nat.add_sub_cancel' hlow, Char.ofNat_toNat] at hblank

theorem isBlank_of_isVersionChar {c : Char} (hc : isVersionChar c = true) :
    Text.isBlank c = false := by
  simp only [isVersionChar, isPartChar, isIdentChar, Char.isAlphanum, Bool.or_eq_true,
    beq_iff_eq] at hc
  rcases hc with (((hdigit | ((halpha | hdigit) | rfl)) | rfl) | rfl)
  · exact isBlank_of_isDigit hdigit
  · have hrange : 65 ≤ c.toNat ∧ c.toNat ≤ 90 ∨ 97 ≤ c.toNat ∧ c.toNat ≤ 122 := by
      rcases Bool.or_eq_true_iff.1 halpha with hletter | hletter
      · exact .inl (of_decide_eq_true hletter)
      · obtain ⟨hlow, hhigh⟩ := Bool.and_eq_true_iff.1 hletter
        exact .inr ⟨of_decide_eq_true hlow, of_decide_eq_true hhigh⟩
    simp only [Text.isBlank, Bool.or_eq_false_iff, Bool.and_eq_false_iff, decide_eq_false_iff_not,
      beq_eq_false_iff_ne]
    omega
  · exact isBlank_of_isDigit (Text.isDigit_of_isDigit hdigit)
  all_goals decide

/-- The text of a comparator is nothing but its core, but for ends of lines behind it. -/
structure Core (s core tail : List Char) : Prop where
  eq_append : s = core ++ tail
  ne_nil : core ≠ []
  core_chars : ∀ c ∈ core, Text.isBlank c = false ∧ c ≠ '|'
  tail_chars : ∀ c ∈ tail, c = '\n'

namespace Core

variable {s core tail : List Char}

theorem strip_eq (h : Core s core tail) : Text.strip Text.isBlank s = core := by
  have htail : ∀ c ∈ tail, Text.isBlank c = true := by
    intro c hc
    rw [h.tail_chars c hc]
    rfl
  rw [h.eq_append, Text.strip_append_right htail]
  exact Text.strip_eq_self (fun c hc => (h.core_chars c (mem_of_mem_head? hc)).1)
    fun c hc => (h.core_chars c (mem_of_getLast? hc)).1

theorem not_mem (h : Core s core tail) : ' ' ∉ s ∧ '|' ∉ s := by
  rw [h.eq_append]
  constructor <;> intro hc <;> rcases mem_append.1 hc with hc | hc
  · exact absurd (h.core_chars _ hc).1 (by decide)
  · cases h.tail_chars _ hc
  · exact (h.core_chars _ hc).2 rfl
  · cases h.tail_chars _ hc

end Core

namespace Comparator

theorem exists_core_version (op : Option Operator) {text : String} {x : Version}
    (h : parse text = .ok x) :
    ∃ body tail, Core ((op.elim "" Operator.mark) ++ text).toList
        ((op.elim "" Operator.mark).toList ++ body) tail ∧
      parse (String.ofList body) = .ok x ∧ ∃ c ∈ body.head?, c = 'v' ∨ c.isDigit = true := by
  obtain ⟨body, tail, htext, htail, hparse, hchars, hhead⟩ := exists_body_of_parse h
  refine ⟨body, tail, ⟨by simp [htext], ?_, fun c hc => ?_, htail⟩, hparse, hhead⟩
  · rintro hnil
    obtain ⟨c, hc, -⟩ := hhead
    rw [(append_eq_nil_iff.1 hnil).2] at hc
    cases hc
  · rcases mem_append.1 hc with hc | hc
    · cases op with
      | none => cases hc
      | some op =>
        have hmark : op.mark.toList.all (fun d => !Text.isBlank d && d != '|') = true := by
          cases op <;> decide
        simpa using all_eq_true.1 hmark c hc
    · refine ⟨isBlank_of_isVersionChar (hchars c hc), ?_⟩
      rintro rfl
      exact absurd (hchars _ hc) (by decide)

theorem exists_core (c : Comparator) : ∃ core tail, Core c.text.toList core tail := by
  cases c with
  | any => exact ⟨['*'], [], rfl, by simp, forall_mem_singleton.2 (by decide), nofun⟩
  | version op text x h =>
    obtain ⟨body, tail, hcore, -⟩ := exists_core_version op h
    exact ⟨_, tail, hcore⟩

end Comparator

/-! ### One comparator -/

theorem operator?_mark (op : Operator) {c : Char} (hc : c = 'v' ∨ c.isDigit = true) (s : List Char) :
    operator? (op.mark.toList ++ c :: s) = some (op, c :: s) := by
  have hne : c ≠ '=' := by
    rintro rfl
    simp at hc
  cases op <;> simp [Operator.mark, operator?, hne]

theorem operator?_none {c : Char} (hc : c = 'v' ∨ c.isDigit = true) (s : List Char) :
    operator? (c :: s) = none := by
  unfold operator?
  split <;> simp_all

theorem comparator_mark (op : Option Operator) {body : List Char} {x : Version}
    (hparse : parse (String.ofList body) = .ok x)
    (hhead : ∃ c ∈ body.head?, c = 'v' ∨ c.isDigit = true) :
    comparator (String.ofList ((op.elim "" Operator.mark).toList ++ body)) =
      .ok (op.getD .caret, x) := by
  obtain ⟨c, hc, hstart⟩ := hhead
  cases body with
  | nil => cases hc
  | cons d s =>
    cases hc
    rw [comparator, if_neg (by simp), String.toList_ofList]
    cases op with
    | none =>
      have hnone : operator? ((Option.elim none "" Operator.mark).toList ++ c :: s) = none :=
        operator?_none hstart s
      have hparse' : parse (String.ofList ((Option.elim none "" Operator.mark).toList ++ c :: s)) =
          .ok x := hparse
      rw [hnone]
      dsimp only
      rw [hparse']
      rfl
    | some op =>
      rw [Option.elim_some, operator?_mark op hstart]
      dsimp only
      rw [hparse]
      rfl

theorem matchesComparator_congr (v : Version) {s t : String} (h : Text.trim s = Text.trim t) :
    matchesComparator v s = matchesComparator v t := by
  rw [matchesComparator, matchesComparator, h]

theorem matchesComparator_text (v : Version) (c : Comparator) :
    matchesComparator v c.text = .ok (decide (c.Holds v)) := by
  cases c with
  | any => rfl
  | version op text x h =>
    obtain ⟨body, tail, hcore, hparse, hhead⟩ := Comparator.exists_core_version op h
    have htrim : Text.trim (Comparator.version op text x h).text =
        String.ofList ((op.elim "" Operator.mark).toList ++ body) := by
      rw [Text.trim, Comparator.text, hcore.strip_eq]
    have hcomparator := comparator_mark op hparse hhead
    have hne : String.ofList ((op.elim "" Operator.mark).toList ++ body) ≠ "*" := by
      intro hstar
      have hinvalid : comparator "*" = .error (.invalid "*") := rfl
      rw [hstar, hinvalid] at hcomparator
      cases hcomparator
    rw [matchesComparator, htrim, if_neg hne, hcomparator]
    refine congrArg Except.ok (Bool.eq_iff_iff.2 ?_)
    rw [decide_eq_true_iff]
    exact Operator.holds_iff

/-! ### Comparators and alternatives -/

theorem matchesAll_eq (v : Version) {ss : List String} {cs : List Comparator}
    (h : ss.map Text.trim = cs.map fun c => Text.trim c.text) :
    matchesAll v ss = .ok (decide (∀ c ∈ cs, c.Holds v)) := by
  induction cs generalizing ss with
  | nil =>
    obtain rfl := map_eq_nil_iff.1 h
    rfl
  | cons c cs ih =>
    obtain ⟨s, ss, rfl, hs, hss⟩ := map_eq_cons_iff.1 h
    rw [matchesAll, matchesComparator_congr v hs, matchesComparator_text, ih hss]
    by_cases hc : c.Holds v <;> simp [hc, bind, Except.bind, pure, Except.pure]

/-- An alternative of one comparator is treated like one of several. -/
theorem matchesAlternative_eq (v : Version) (s : String) :
    matchesAlternative v s = matchesAll v (Text.split " " (Text.trim s)) := by
  have hone (t : String) : matchesAll v [t] = matchesComparator v t := by
    rw [matchesAll]
    cases matchesComparator v t with
    | error e => rfl
    | ok b => cases b <;> rfl
  rw [matchesAlternative]
  split
  · next hstar =>
      rw [hstar]
      rfl
  · split
    · rfl
    · next hspace =>
        have hcut : Text.cut [' '] (Text.trim s).toList = none := by
          simpa [Text.contains, Text.occurs] using hspace
        have hsplit : Text.split " " (Text.trim s) = [Text.trim s] := by
          simpa [Text.split] using congrArg (List.map String.ofList) (Text.splitOn_of_cut_eq_none hcut)
        rw [hsplit, hone]

/-- The texts of comparators with a space between them: only ends of lines stand behind the last
character that is not blank. -/
theorem exists_join_eq {cs : List Comparator} (hcs : cs ≠ []) :
    ∃ u tail, [' '].intercalate (cs.map (·.text.toList)) = u ++ tail ∧ (∀ c ∈ tail, c = '\n') ∧
      (∀ c ∈ u.head?, Text.isBlank c = false) ∧ u ≠ [] ∧
      ∀ c ∈ u.getLast?, Text.isBlank c = false := by
  induction cs with
  | nil => contradiction
  | cons c cs ih =>
    obtain ⟨core, tail, hcore⟩ := c.exists_core
    have hhead : ∀ d ∈ core.head?, Text.isBlank d = false :=
      fun d hd => (hcore.core_chars d (mem_of_mem_head? hd)).1
    cases cs with
    | nil =>
      refine ⟨core, tail, by simp [hcore.eq_append], hcore.tail_chars, hhead, hcore.ne_nil, ?_⟩
      exact fun d hd => (hcore.core_chars d (mem_of_getLast? hd)).1
    | cons c' cs =>
      obtain ⟨u, tail', hjoin, htail', -, hne, hlast⟩ := ih (by simp)
      rw [map_cons] at hjoin
      refine ⟨core ++ (tail ++ [' '] ++ u), tail', ?_, htail', ?_, by simp, ?_⟩
      · rw [map_cons, map_cons, intercalate_cons_cons, hjoin, hcore.eq_append]
        simp
      · rwa [head?_append_of_ne_nil _ hcore.ne_nil]
      · rwa [← append_assoc, getLast?_append_of_ne_nil _ hne]

theorem map_trim_split (mark s : String) :
    (Text.split mark s).map Text.trim =
      ((Text.splitOn mark.toList s.toList).map (Text.strip Text.isBlank)).map String.ofList := by
  simp [Text.split, Text.trim, Function.comp_def]

theorem matchesAlternative_text (v : Version) (a : Alternative) :
    matchesAlternative v a.text = .ok (decide (a.Holds v)) := by
  rw [matchesAlternative_eq]
  refine matchesAll_eq v ?_
  have hne : a.comparators ≠ [] := by simp [Alternative.comparators]
  obtain ⟨u, tail, hjoin, htail, hhead, -, hlast⟩ := exists_join_eq hne
  have hspaces (n : Nat) : ∀ c ∈ List.replicate n ' ', Text.isBlank c = true := by
    intro c hc
    rw [eq_of_mem_replicate hc]
    rfl
  have hblank : ∀ c ∈ tail, Text.isBlank c = true ∧ c ∉ [' '] := by
    intro c hc
    rw [htail c hc]
    decide
  have htrim : (Text.trim a.text).toList = u := by
    have htext : a.text.toList = List.replicate a.before ' ' ++ (u ++ tail) ++
        List.replicate a.after ' ' := by
      rw [← hjoin]
      simp [Alternative.text, Text.join, Function.comp_def]
    rw [Text.trim, String.toList_ofList, htext, Text.strip_append (hspaces _) (hspaces _),
      Text.strip_append_right fun c hc => (hblank c hc).1, Text.strip_eq_self hhead hlast]
  have hsplit : Text.splitOn [' '] (u ++ tail) = a.comparators.map (·.text.toList) := by
    rw [← hjoin]
    refine Text.splitOn_intercalate [] (by simpa using hne) fun s hs => ?_
    obtain ⟨c, -, rfl⟩ := mem_map.1 hs
    obtain ⟨core, tail, hcore⟩ := c.exists_core
    exact hcore.not_mem.1
  have hstrip := Text.map_strip_splitOn (l := []) [] (by simp) hblank u
  have hmark : " ".toList = [' '] := rfl
  rw [map_trim_split, htrim, hmark, ← hstrip, nil_append, hsplit]
  simp [Text.trim, Function.comp_def]

/-! ### Specifiers -/

theorem matchesAlternative_congr (v : Version) {s t : String} (h : Text.trim s = Text.trim t) :
    matchesAlternative v s = matchesAlternative v t := by
  rw [matchesAlternative_eq, matchesAlternative_eq, h]

theorem matchesAny_congr (v : Version) {ss ts : List String}
    (h : ss.map Text.trim = ts.map Text.trim) : matchesAny v ss = matchesAny v ts := by
  induction ss generalizing ts with
  | nil =>
    obtain rfl := map_eq_nil_iff.1 h.symm
    rfl
  | cons s ss ih =>
    obtain ⟨t, ts, rfl, ht, hts⟩ := map_eq_cons_iff.1 h.symm
    rw [matchesAny, matchesAny, matchesAlternative_congr v ht, ih hts.symm]

/-- A specifier of one alternative is treated like one of several, and white space at its ends does
not matter. -/
theorem satisfies_eq (v : Version) (spec : String) :
    v.satisfies spec = matchesAny v.clean (Text.split "||" spec) := by
  have hone (t : String) : matchesAny v.clean [t] = matchesAlternative v.clean t := by
    rw [matchesAny]
    cases matchesAlternative v.clean t with
    | error e => rfl
    | ok b => cases b <;> rfl
  have htrim : matchesAny v.clean (Text.split "||" spec) =
      matchesAny v.clean (Text.split "||" (Text.trim spec)) := by
    obtain ⟨l, r, hspec, hl, hr⟩ := Text.exists_strip Text.isBlank spec.toList
    have hbar {c : Char} (hc : Text.isBlank c = true) : c ∉ ['|', '|'] := by
      intro hmem
      simp only [mem_cons, not_mem_nil, or_false, or_self] at hmem
      subst hmem
      cases hc
    have hsplit := Text.map_strip_splitOn ['|'] (fun c hc => ⟨hl c hc, hbar (hl c hc)⟩)
      (fun c hc => ⟨hr c hc, hbar (hr c hc)⟩) (Text.strip Text.isBlank spec.toList)
    rw [← hspec] at hsplit
    refine matchesAny_congr v.clean ?_
    have hmark : "||".toList = ['|', '|'] := rfl
    rw [map_trim_split, map_trim_split, hmark, hsplit, Text.trim, String.toList_ofList]
  rw [satisfies, htrim]
  split
  · next hstar =>
      rw [hstar]
      rfl
  · split
    · rfl
    · next hbar =>
        have hcut : Text.cut ['|', '|'] (Text.trim spec).toList = none := by
          simpa [Text.contains, Text.occurs] using hbar
        have hsplit : Text.split "||" (Text.trim spec) = [Text.trim spec] := by
          simpa [Text.split] using congrArg (List.map String.ofList) (Text.splitOn_of_cut_eq_none hcut)
        rw [hsplit, hone]

theorem matchesAny_text (v : Version) (as : List Alternative) :
    matchesAny v (as.map Alternative.text) = .ok (decide (∃ a ∈ as, a.Holds v)) := by
  induction as with
  | nil => rfl
  | cons a as ih =>
    rw [map_cons, matchesAny, matchesAlternative_text, ih]
    by_cases ha : a.Holds v <;> simp [ha, bind, Except.bind, pure, Except.pure]

theorem Alternative.not_mem_text (a : Alternative) : '|' ∉ a.text.toList := by
  have hjoin : '|' ∉ [' '].intercalate (a.comparators.map (·.text.toList)) := by
    intro h
    rcases Text.mem_intercalate h with h | ⟨s, hs, h⟩
    · cases mem_singleton.1 h
    · obtain ⟨c, -, rfl⟩ := mem_map.1 hs
      obtain ⟨core, tail, hcore⟩ := c.exists_core
      exact hcore.not_mem.2 h
  simpa [Alternative.text, Text.join, Function.comp_def] using hjoin

theorem Specifier.split_text (s : Specifier) :
    Text.split "||" s.text = s.alternatives.map Alternative.text := by
  have hbar : ∀ t ∈ s.alternatives.map (String.toList ∘ Alternative.text), '|' ∉ t := by
    intro t ht
    obtain ⟨a, -, rfl⟩ := mem_map.1 ht
    exact a.not_mem_text
  have hmark : "||".toList = ['|', '|'] := rfl
  rw [Text.split, Specifier.text, Text.join, String.toList_intercalate, hmark, map_map,
    Text.splitOn_intercalate ['|'] (by simp [Specifier.alternatives]) hbar]
  simp [Function.comp_def]

/-- Specifiers mean what they say: whether a version satisfies the text of a specifier is always
answered, and it does if and only if the specifier holds of its three numbers. -/
theorem satisfies_text (v : Version) (s : Specifier) :
    v.satisfies s.text = .ok (decide (s.Holds v.clean)) := by
  rw [satisfies_eq, s.split_text, matchesAny_text]
  rfl

example :
    (⟨⟨0, .version (some .atLeast) "1.2.0" ⟨1, 2, 0, none, none⟩ (by decide +kernel),
        [.version (some .below) "1.4.0" ⟨1, 4, 0, none, none⟩ (by decide +kernel)], 1⟩,
      [⟨2, .version none "v2.0.0.dev1" ⟨2, 0, 0, some "dev1", none⟩ (by decide +kernel),
        [], 0⟩]⟩ : Specifier).text = ">=1.2.0 <1.4.0 ||  v2.0.0.dev1" := by
  decide +kernel

theorem satisfies_mark (v : Version) (op : Operator) {text : String} {x : Version}
    (h : parse text = .ok x) :
    v.satisfies (op.mark ++ text) = .ok (decide (op.Holds v.clean x)) := by
  let s : Specifier := ⟨⟨0, .version (some op) text x h, [], 0⟩, []⟩
  have htext : s.text = op.mark ++ text := by
    simp [s, Specifier.text, Specifier.alternatives, Alternative.text, Alternative.comparators,
      Comparator.text, Text.join]
  have hholds : (∃ a ∈ s.alternatives, a.Holds v.clean) ↔ op.Holds v.clean x := by
    simp [s, Specifier.alternatives, Alternative.Holds, Alternative.comparators, Comparator.Holds]
  rw [← htext, satisfies_eq, s.split_text, matchesAny_text]
  simp only [hholds]

end Boardwright.Version
