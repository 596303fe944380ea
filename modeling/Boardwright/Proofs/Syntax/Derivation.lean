import Boardwright.Syntax.Statement
import Mathlib.Data.List.Basic

/-!
# Derivations by the grammar

The grammar gives for each nonterminal the sequences of trees that may stand below it: a `Pattern`
of sorts of tokens and of nonterminals. `Derives` holds of a pattern and the sequences of trees
that it allows, so a tree is a derivation tree of a nonterminal if `Derives` holds of this
nonterminal and the tree alone.

The forms of statement hold tokens of any sort. A form is `Formed` if its tokens are of the sorts
that belong to their places. The derivation trees of a nonterminal are the trees of its formed
forms: `derives_path`, `derives_simple`, …, `derives_file`.
-/

open List

namespace Boardwright.Syntax

/-! ### The grammar -/

/-- The nonterminals of the grammar. -/
inductive Nonterminal
  | fileInput | stmt | simpleStmts | simpleStmt | compoundStmt | block | blockDef | blockType
  | importStmt | assignStmt | assignable
  | quantityEnd | boundQuantity | bilateralNominal | bilateralTolerance | bilateralQuantity
  | implicitQuantity | physical
  | retypeStmt | connectStmt | connectable | signalDef | pinDef | newStmt | stringStmt | eqnStmt
  | nameOrAttr | numericalPinRef | attr | totallyAnInteger | name | string | boolean

def Nonterminal.label : Nonterminal → String
  | .fileInput => "file_input"
  | .stmt => "stmt"
  | .simpleStmts => "simple_stmts"
  | .simpleStmt => "simple_stmt"
  | .compoundStmt => "compound_stmt"
  | .block => "block"
  | .blockDef => "blockdef"
  | .blockType => "blocktype"
  | .importStmt => "import_stmt"
  | .assignStmt => "assign_stmt"
  | .assignable => "assignable"
  | .quantityEnd => "quantity_end"
  | .boundQuantity => "bound_quantity"
  | .bilateralNominal => "bilateral_nominal"
  | .bilateralTolerance => "bilateral_tolerance"
  | .bilateralQuantity => "bilateral_quantity"
  | .implicitQuantity => "implicit_quantity"
  | .physical => "physical"
  | .retypeStmt => "retype_stmt"
  | .connectStmt => "connect_stmt"
  | .connectable => "connectable"
  | .signalDef => "signaldef_stmt"
  | .pinDef => "pindef_stmt"
  | .newStmt => "new_stmt"
  | .stringStmt => "string_stmt"
  | .eqnStmt => "eqn_stmt"
  | .nameOrAttr => "name_or_attr"
  | .numericalPinRef => "numerical_pin_ref"
  | .attr => "attr"
  | .totallyAnInteger => "totally_an_integer"
  | .name => "name"
  | .string => "string"
  | .boolean => "boolean_"

/-- What may stand in a place: a token of a sort, a nonterminal, one pattern after another, one
of two patterns, or a pattern any number of times. -/
inductive Pattern
  | token (k : Kind)
  | rule (r : Nonterminal)
  | empty
  | seq (p q : Pattern)
  | alt (p q : Pattern)
  | star (p : Pattern)

namespace Pattern

instance : Append Pattern := ⟨seq⟩

instance : OrOp Pattern := ⟨alt⟩

def opt (p : Pattern) : Pattern := p ||| empty

def plus (p : Pattern) : Pattern := p ++ star p

end Pattern

open Pattern in
def production : Nonterminal → Pattern
  | .fileInput => star (token .newline ||| rule .stmt) ++ token .eof
  | .stmt => rule .simpleStmts ||| rule .compoundStmt
  | .simpleStmts =>
    rule .simpleStmt ++ (star (token .semicolon ++ rule .simpleStmt) ++
      (opt (token .semicolon) ++ token .newline))
  | .simpleStmt =>
    rule .importStmt ||| rule .assignStmt ||| rule .connectStmt ||| rule .retypeStmt |||
      rule .pinDef ||| rule .signalDef ||| rule .stringStmt ||| rule .eqnStmt
  | .compoundStmt => rule .blockDef
  | .block =>
    rule .simpleStmts |||
      token .newline ++ (token .indent ++ (plus (rule .stmt) ++ token .dedent))
  | .blockDef =>
    rule .blockType ++ (rule .name ++ (opt (token .fromWord ++ rule .nameOrAttr) ++
      (token .colon ++ rule .block)))
  | .blockType => token .componentWord ||| token .moduleWord ||| token .interfaceWord
  | .importStmt =>
    token .importWord ++ (rule .nameOrAttr ++ (token .fromWord ++ rule .string))
  | .assignStmt => rule .nameOrAttr ++ (token .assign ++ rule .assignable)
  | .assignable => rule .string ||| rule .newStmt ||| rule .physical
  | .quantityEnd => token .number ++ opt (rule .name)
  | .boundQuantity => rule .quantityEnd ++ (token .toWord ++ rule .quantityEnd)
  | .bilateralNominal => token .number ++ opt (rule .name)
  | .bilateralTolerance => token .number ++ opt (token .percent ||| rule .name)
  | .bilateralQuantity =>
    rule .bilateralNominal ++ (token .plusMinus ++ rule .bilateralTolerance)
  | .implicitQuantity => token .number ++ opt (rule .name)
  | .physical => rule .boundQuantity ||| rule .bilateralQuantity ||| rule .implicitQuantity
  | .retypeStmt => rule .nameOrAttr ++ (token .arrow ++ rule .nameOrAttr)
  | .connectStmt => rule .connectable ++ (token .tilde ++ rule .connectable)
  | .connectable =>
    rule .nameOrAttr ||| rule .numericalPinRef ||| rule .signalDef ||| rule .pinDef
  | .signalDef => token .signalWord ++ rule .name
  | .pinDef => token .pinWord ++ (rule .name ||| rule .totallyAnInteger)
  | .newStmt => token .newWord ++ rule .nameOrAttr
  | .stringStmt => rule .string
  | .eqnStmt => token .equation
  | .nameOrAttr => rule .attr ||| rule .name
  | .numericalPinRef => rule .nameOrAttr ++ (token .dot ++ rule .totallyAnInteger)
  | .attr => rule .name ++ plus (token .dot ++ rule .name)
  | .totallyAnInteger => token .number
  | .name => token .name
  | .string => token .string
  | .boolean => token .trueWord ||| token .falseWord

/-- The sequences of trees that a pattern allows. -/
inductive Derives : Pattern → List Tree → Prop
  | token {k : Kind} {t : Token} (h : t.kind = k) : Derives (.token k) [.leaf t]
  | rule {r : Nonterminal} {ts : List Tree} (h : Derives (production r) ts) :
    Derives (.rule r) [.node r.label ts]
  | empty : Derives .empty []
  | seq {p q : Pattern} {ts us : List Tree} (hp : Derives p ts) (hq : Derives q us) :
    Derives (.seq p q) (ts ++ us)
  | left {p q : Pattern} {ts : List Tree} (h : Derives p ts) : Derives (.alt p q) ts
  | right {p q : Pattern} {ts : List Tree} (h : Derives q ts) : Derives (.alt p q) ts
  | done {p : Pattern} : Derives (.star p) []
  | again {p : Pattern} {ts us : List Tree} (hp : Derives p ts) (hs : Derives (.star p) us) :
    Derives (.star p) (ts ++ us)

variable {α β : Type} {p q : Pattern} {ts : List Tree} {r : Nonterminal} {k : Kind}

theorem derives_token :
    Derives (.token k) ts ↔ ∃ t : Token, t.kind = k ∧ ts = [.leaf t] := by
  constructor
  · rintro ⟨h⟩
    exact ⟨_, h, rfl⟩
  · rintro ⟨t, h, rfl⟩
    exact .token h

theorem derives_rule :
    Derives (.rule r) ts ↔ ∃ us, ts = [.node r.label us] ∧ Derives (production r) us := by
  constructor
  · rintro ⟨⟩
    exact ⟨_, rfl, by assumption⟩
  · rintro ⟨us, rfl, h⟩
    exact .rule h

theorem derives_append :
    Derives (p ++ q) ts ↔ ∃ us vs, ts = us ++ vs ∧ Derives p us ∧ Derives q vs := by
  constructor
  · rintro ⟨⟩
    exact ⟨_, _, rfl, by assumption, by assumption⟩
  · rintro ⟨us, vs, rfl, hp, hq⟩
    exact .seq hp hq

theorem derives_or : Derives (p ||| q) ts ↔ Derives p ts ∨ Derives q ts := by
  constructor
  · rintro ⟨⟩
    · left; assumption
    · right; assumption
  · rintro (h | h)
    · exact .left h
    · exact .right h

theorem derives_empty : Derives .empty ts ↔ ts = [] := by
  constructor
  · rintro ⟨⟩
    rfl
  · rintro rfl
    exact .empty

theorem derives_opt : Derives p.opt ts ↔ ts = [] ∨ Derives p ts := by
  rw [Pattern.opt, derives_or, derives_empty, or_comm]

/-! ### Patterns that allow the trees of some forms -/

def Describes (p : Pattern) (P : α → Prop) (f : α → List Tree) : Prop :=
  ∀ ts, Derives p ts ↔ ∃ x, P x ∧ ts = f x

variable {P : α → Prop} {Q : β → Prop} {f : α → List Tree} {g : β → List Tree}

theorem describes_token (k : Kind) :
    Describes (.token k) (fun t : Token => t.kind = k) fun t => [.leaf t] :=
  fun _ => derives_token

/-- A nonterminal allows one tree, with what its production allows below. -/
theorem Describes.rule (h : Describes (production r) P f) :
    Describes (.rule r) P fun x => [.node r.label (f x)] := by
  intro ts
  rw [derives_rule]
  constructor
  · rintro ⟨us, rfl, hus⟩
    obtain ⟨x, hx, rfl⟩ := (h us).1 hus
    exact ⟨x, hx, rfl⟩
  · rintro ⟨x, hx, rfl⟩
    exact ⟨f x, rfl, (h _).2 ⟨x, hx, rfl⟩⟩

theorem Describes.append (hp : Describes p P f) (hq : Describes q Q g) :
    Describes (p ++ q) (fun x : α × β => P x.1 ∧ Q x.2) fun x => f x.1 ++ g x.2 := by
  intro ts
  rw [derives_append]
  constructor
  · rintro ⟨us, vs, rfl, hus, hvs⟩
    obtain ⟨x, hx, rfl⟩ := (hp us).1 hus
    obtain ⟨y, hy, rfl⟩ := (hq vs).1 hvs
    exact ⟨(x, y), ⟨hx, hy⟩, rfl⟩
  · rintro ⟨⟨x, y⟩, ⟨hx, hy⟩, rfl⟩
    exact ⟨f x, g y, rfl, (hp _).2 ⟨x, hx, rfl⟩, (hq _).2 ⟨y, hy, rfl⟩⟩

theorem Describes.opt (hp : Describes p P f) :
    Describes p.opt (fun o : Option α => ∀ x ∈ o, P x) fun o => o.elim [] f := by
  intro ts
  rw [derives_opt, hp]
  constructor
  · rintro (rfl | ⟨x, hx, rfl⟩)
    · exact ⟨none, by simp, rfl⟩
    · exact ⟨some x, by simpa using hx, rfl⟩
  · rintro ⟨o, ho, rfl⟩
    cases o with
    | none => exact .inl rfl
    | some x => exact .inr ⟨x, ho x rfl, rfl⟩

theorem Describes.star (hp : Describes p P f) :
    Describes (.star p) (fun xs : List α => ∀ x ∈ xs, P x) fun xs => xs.flatMap f := by
  intro ts
  constructor
  · intro h
    generalize hq : Pattern.star p = q at h
    induction h with
    | done => exact ⟨[], by simp, rfl⟩
    | again hfirst _ _ ih =>
      cases hq
      obtain ⟨x, hx, rfl⟩ := (hp _).1 hfirst
      obtain ⟨xs, hxs, rfl⟩ := ih rfl
      exact ⟨x :: xs, forall_mem_cons.2 ⟨hx, hxs⟩, rfl⟩
    | _ => cases hq
  · rintro ⟨xs, hxs, rfl⟩
    induction xs with
    | nil => exact .done
    | cons x xs ih =>
      rw [forall_mem_cons] at hxs
      exact .again ((hp _).2 ⟨x, hxs.1, rfl⟩) (ih hxs.2)

theorem Describes.or (hp : Describes p P f) (hq : Describes q Q g) :
    Describes (p ||| q) (Sum.elim P Q) (Sum.elim f g) := by
  intro ts
  rw [derives_or, hp, hq, Sum.exists]
  rfl

/-- The same sequences of trees, as those of the forms that are made of the given ones. -/
theorem Describes.onto (hp : Describes p P f) (make : α → β) (hmake : ∀ x, P x → Q (make x))
    (hg : ∀ x, P x → g (make x) = f x) (hall : ∀ y, Q y → ∃ x, P x ∧ make x = y) :
    Describes p Q g := by
  intro ts
  rw [hp]
  constructor
  · rintro ⟨x, hx, rfl⟩
    exact ⟨make x, hmake x hx, (hg x hx).symm⟩
  · rintro ⟨y, hy, rfl⟩
    obtain ⟨x, hx, rfl⟩ := hall y hy
    exact ⟨x, hx, hg x hx⟩

/-! ### Names -/

theorem describes_name : Describes (.rule .name) (·.kind = .name) fun t => [nameTree t] :=
  (describes_token .name).rule (r := .name)

theorem describes_string : Describes (.rule .string) (·.kind = .string) fun t => [stringTree t] :=
  (describes_token .string).rule (r := .string)

theorem describes_integer :
    Describes (.rule .totallyAnInteger) (·.kind = .number) fun t => [integerTree t] :=
  (describes_token .number).rule (r := .totallyAnInteger)

/-- A name, or several with dots between them. -/
def Path.Formed (p : Path) : Prop :=
  p.head.kind = .name ∧ ∀ w ∈ p.tail, w.1.kind = .dot ∧ w.2.kind = .name

theorem describes_attr :
    Describes (.rule .attr) (fun p : Path => p.Formed ∧ p.tail ≠ []) fun p => [p.attrTree] := by
  have hdotted := (describes_token .dot).append describes_name
  refine ((describes_name.append (hdotted.append hdotted.star)).rule (r := .attr)).onto
    (fun x => ⟨x.1, x.2.1 :: x.2.2⟩) ?_ (fun _ _ => rfl) ?_
  · rintro x ⟨hn, hw, hws⟩
    exact ⟨⟨hn, forall_mem_cons.2 ⟨hw, hws⟩⟩, by simp⟩
  · rintro ⟨n, tail⟩ ⟨⟨hn, htail⟩, hne⟩
    cases tail with
    | nil => exact absurd rfl hne
    | cons w ws =>
      rw [forall_mem_cons] at htail
      exact ⟨(n, w, ws), ⟨hn, htail⟩, rfl⟩

theorem describes_path : Describes (.rule .nameOrAttr) Path.Formed fun p => [p.tree] := by
  refine ((describes_attr.or describes_name).rule (r := .nameOrAttr)).onto
    (Sum.elim id fun t => ⟨t, []⟩) ?_ ?_ ?_
  · rintro (p | t) h
    · exact h.1
    · exact ⟨h, by simp⟩
  · rintro (p | t) h
    · have hne : ¬p.tail.isEmpty := by simpa using h.2
      dsimp only [Sum.elim_inl, id_eq]
      rw [Path.tree, if_neg hne]
      rfl
    · rfl
  · intro p hp
    by_cases htail : p.tail = []
    · refine ⟨.inr p.head, hp.1, ?_⟩
      rw [Sum.elim_inr, ← htail]
    · exact ⟨.inl p, ⟨hp, htail⟩, rfl⟩

/-! ### Pins, signals and connections -/

def PinDef.Formed (p : PinDef) : Prop :=
  p.word.kind = .pinWord ∧ match p.label with
    | .name t => t.kind = .name
    | .number t => t.kind = .number

def SignalDef.Formed (s : SignalDef) : Prop := s.word.kind = .signalWord ∧ s.name.kind = .name

def Connectable.Formed : Connectable → Prop
  | .path p => p.Formed
  | .numbered p dot number => p.Formed ∧ dot.kind = .dot ∧ number.kind = .number
  | .signal s => s.Formed
  | .pin p => p.Formed

theorem describes_pinDef : Describes (.rule .pinDef) PinDef.Formed fun p => [p.tree] := by
  have hlabel := describes_name.or describes_integer
  refine (((describes_token .pinWord).append hlabel).rule (r := .pinDef)).onto
    (fun x => ⟨x.1, x.2.elim .name .number⟩) ?_ ?_ ?_
  · rintro ⟨word, t | t⟩ h <;> exact h
  · rintro ⟨word, t | t⟩ - <;> rfl
  · rintro ⟨word, t | t⟩ h
    · exact ⟨(word, .inl t), h, rfl⟩
    · exact ⟨(word, .inr t), h, rfl⟩

theorem describes_signalDef :
    Describes (.rule .signalDef) SignalDef.Formed fun s => [s.tree] :=
  (((describes_token .signalWord).append describes_name).rule (r := .signalDef)).onto
    (fun x => ⟨x.1, x.2⟩) (fun _ h => h) (fun _ _ => rfl) fun s h => ⟨(s.word, s.name), h, rfl⟩

theorem describes_numbered :
    Describes (.rule .numericalPinRef)
      (fun x : Path × Token × Token => x.1.Formed ∧ x.2.1.kind = .dot ∧ x.2.2.kind = .number)
      fun x => [numberedTree x.1 x.2.1 x.2.2] :=
  (describes_path.append ((describes_token .dot).append describes_integer)).rule
    (r := .numericalPinRef)

theorem describes_connectable :
    Describes (.rule .connectable) Connectable.Formed fun c => [c.tree] := by
  refine ((((describes_path.or describes_numbered).or describes_signalDef).or
    describes_pinDef).rule (r := .connectable)).onto
    (Sum.elim (Sum.elim (Sum.elim .path fun x => .numbered x.1 x.2.1 x.2.2) .signal) .pin) ?_ ?_ ?_
  · rintro (((p | x) | s) | p) h <;> exact h
  · rintro (((p | x) | s) | p) - <;> rfl
  · rintro (p | ⟨p, dot, number⟩ | s | p) h
    · exact ⟨.inl (.inl (.inl p)), h, rfl⟩
    · exact ⟨.inl (.inl (.inr (p, dot, number))), h, rfl⟩
    · exact ⟨.inl (.inr s), h, rfl⟩
    · exact ⟨.inr p, h, rfl⟩

/-! ### Quantities -/

/-- A number that may have a name as a unit. -/
def Measure.Formed (m : Measure) : Prop :=
  m.number.kind = .number ∧ ∀ u ∈ m.unit, u.kind = .name

/-- A number that may have a name or a percent sign as a unit. -/
def Tolerance.Formed (t : Tolerance) : Prop :=
  t.number.kind = .number ∧ ∀ u ∈ t.unit, u.kind = .percent ∨ u.kind = .name

def Physical.Formed : Physical → Prop
  | .bound low word high => low.Formed ∧ word.kind = .toWord ∧ high.Formed
  | .bilateral nominal mark tolerance =>
    nominal.Formed ∧ mark.kind = .plusMinus ∧ tolerance.Formed
  | .implicit m => m.Formed

/-- The three nonterminals for a number with a unit stand for the same. -/
theorem describes_measure (hr : production r = .token .number ++ (Pattern.rule .name).opt) :
    Describes (.rule r) Measure.Formed fun m => [m.tree r.label] := by
  have hunit := (describes_token .number).append describes_name.opt
  rw [← hr] at hunit
  refine hunit.rule.onto (fun x => ⟨x.1, x.2⟩) (fun _ h => h) ?_
    fun m h => ⟨(m.number, m.unit), h, rfl⟩
  rintro ⟨number, _ | u⟩ - <;> rfl

theorem describes_tolerance :
    Describes (.rule .bilateralTolerance) Tolerance.Formed fun t => [t.tree] := by
  have hunit : Describes (.token .percent ||| .rule .name)
      (fun u : Token => u.kind = .percent ∨ u.kind = .name)
      fun u => [if u.kind == .percent then .leaf u else nameTree u] := by
    refine ((describes_token .percent).or describes_name).onto (Sum.elim id id) ?_ ?_ ?_
    · rintro (u | u) h
      · exact .inl h
      · exact .inr h
    · rintro (u | u) h
      · simp [show u.kind = .percent from h]
      · simp [show u.kind = .name from h]
    · rintro u (h | h)
      · exact ⟨.inl u, h, rfl⟩
      · exact ⟨.inr u, h, rfl⟩
  refine (((describes_token .number).append hunit.opt).rule (r := .bilateralTolerance)).onto
    (fun x => ⟨x.1, x.2⟩) (fun _ h => h) ?_ fun t h => ⟨(t.number, t.unit), h, rfl⟩
  rintro ⟨number, _ | u⟩ - <;> rfl

theorem describes_physical : Describes (.rule .physical) Physical.Formed fun p => [p.tree] := by
  have hend : Describes (.rule .quantityEnd) Measure.Formed fun m => [m.tree "quantity_end"] :=
    describes_measure rfl
  have hnominal : Describes (.rule .bilateralNominal) Measure.Formed fun m =>
      [m.tree "bilateral_nominal"] := describes_measure rfl
  have himplicit : Describes (.rule .implicitQuantity) Measure.Formed fun m =>
      [m.tree "implicit_quantity"] := describes_measure rfl
  have hbound := (hend.append ((describes_token .toWord).append hend)).rule (r := .boundQuantity)
  have hbilateral := (hnominal.append ((describes_token .plusMinus).append
    describes_tolerance)).rule (r := .bilateralQuantity)
  refine (((hbound.or hbilateral).or himplicit).rule (r := .physical)).onto
    (Sum.elim (Sum.elim (fun x => .bound x.1 x.2.1 x.2.2) fun x => .bilateral x.1 x.2.1 x.2.2)
      .implicit) ?_ ?_ ?_
  · rintro ((x | x) | m) h <;> exact h
  · rintro ((x | x) | m) - <;> rfl
  · rintro (⟨low, word, high⟩ | ⟨nominal, mark, tolerance⟩ | m) h
    · exact ⟨.inl (.inl (low, word, high)), h, rfl⟩
    · exact ⟨.inl (.inr (nominal, mark, tolerance)), h, rfl⟩
    · exact ⟨.inr m, h, rfl⟩

/-! ### Simple statements -/

def Assignable.Formed : Assignable → Prop
  | .string t => t.kind = .string
  | .new word cls => word.kind = .newWord ∧ cls.Formed
  | .physical p => p.Formed

def Simple.Formed : Simple → Prop
  | .importing word what source file =>
    word.kind = .importWord ∧ what.Formed ∧ source.kind = .fromWord ∧ file.kind = .string
  | .assign target mark value => target.Formed ∧ mark.kind = .assign ∧ value.Formed
  | .connect left mark right => left.Formed ∧ mark.kind = .tilde ∧ right.Formed
  | .retype target mark cls => target.Formed ∧ mark.kind = .arrow ∧ cls.Formed
  | .pin p => p.Formed
  | .signal s => s.Formed
  | .doc t => t.kind = .string
  | .equation t => t.kind = .equation

theorem describes_assignable :
    Describes (.rule .assignable) Assignable.Formed fun v => [v.tree] := by
  have hnew := ((describes_token .newWord).append describes_path).rule (r := .newStmt)
  refine (((describes_string.or hnew).or describes_physical).rule (r := .assignable)).onto
    (Sum.elim (Sum.elim .string fun x => .new x.1 x.2) .physical) ?_ ?_ ?_
  · rintro ((t | x) | p) h <;> exact h
  · rintro ((t | x) | p) - <;> rfl
  · rintro (t | ⟨word, cls⟩ | p) h
    · exact ⟨.inl (.inl t), h, rfl⟩
    · exact ⟨.inl (.inr (word, cls)), h, rfl⟩
    · exact ⟨.inr p, h, rfl⟩

theorem describes_simple : Describes (.rule .simpleStmt) Simple.Formed fun s => [s.tree] := by
  have himport := ((describes_token .importWord).append (describes_path.append
    ((describes_token .fromWord).append describes_string))).rule (r := .importStmt)
  have hassign := (describes_path.append ((describes_token .assign).append
    describes_assignable)).rule (r := .assignStmt)
  have hconnect := (describes_connectable.append ((describes_token .tilde).append
    describes_connectable)).rule (r := .connectStmt)
  have hretype := (describes_path.append ((describes_token .arrow).append
    describes_path)).rule (r := .retypeStmt)
  have hdoc := describes_string.rule (r := .stringStmt)
  have hequation := (describes_token .equation).rule (r := .eqnStmt)
  refine ((((((((himport.or hassign).or hconnect).or hretype).or describes_pinDef).or
    describes_signalDef).or hdoc).or hequation).rule (r := .simpleStmt)).onto
    (Sum.elim (Sum.elim (Sum.elim (Sum.elim (Sum.elim (Sum.elim (Sum.elim
      (fun x => .importing x.1 x.2.1 x.2.2.1 x.2.2.2) (fun x => .assign x.1 x.2.1 x.2.2))
      (fun x => .connect x.1 x.2.1 x.2.2)) (fun x => .retype x.1 x.2.1 x.2.2)) .pin) .signal)
      .doc) .equation) ?_ ?_ ?_
  · rintro (((((((x | x) | x) | x) | p) | s) | t) | t) h <;> exact h
  · rintro (((((((x | x) | x) | x) | p) | s) | t) | t) - <;> rfl
  · intro s h
    cases s with
    | importing word what source file =>
      exact ⟨.inl (.inl (.inl (.inl (.inl (.inl (.inl (word, what, source, file))))))), h, rfl⟩
    | assign target mark value =>
      exact ⟨.inl (.inl (.inl (.inl (.inl (.inl (.inr (target, mark, value))))))), h, rfl⟩
    | connect left mark right =>
      exact ⟨.inl (.inl (.inl (.inl (.inl (.inr (left, mark, right)))))), h, rfl⟩
    | retype target mark cls =>
      exact ⟨.inl (.inl (.inl (.inl (.inr (target, mark, cls))))), h, rfl⟩
    | pin p => exact ⟨.inl (.inl (.inl (.inr p))), h, rfl⟩
    | signal s => exact ⟨.inl (.inl (.inr s)), h, rfl⟩
    | doc t => exact ⟨.inl (.inr t), h, rfl⟩
    | equation t => exact ⟨.inr t, h, rfl⟩

/-! ### Lines and blocks -/

def Line.Formed (l : Line) : Prop :=
  l.first.Formed ∧ (∀ w ∈ l.more, w.1.kind = .semicolon ∧ w.2.Formed) ∧
    (∀ t ∈ l.last, t.kind = .semicolon) ∧ l.newline.kind = .newline

def Kind.BeginsBlock (k : Kind) : Prop :=
  k = .componentWord ∨ k = .moduleWord ∨ k = .interfaceWord

def Header.Formed (h : Header) : Prop :=
  h.word.kind.BeginsBlock ∧ h.name.kind = .name ∧
    (∀ w ∈ h.parent, w.1.kind = .fromWord ∧ w.2.Formed) ∧ h.colon.kind = .colon

mutual

def Stmt.Formed : Stmt → Prop
  | .line l => l.Formed
  | .block h b => h.Formed ∧ Block.Formed b

def Block.Formed : Block → Prop
  | .inline l => l.Formed
  | .indented newline indent body dedent =>
    newline.kind = .newline ∧ indent.kind = .indent ∧ (body ≠ [] ∧ Stmt.AllFormed body) ∧
      dedent.kind = .dedent

def Stmt.AllFormed : List Stmt → Prop
  | [] => True
  | s :: ss => Stmt.Formed s ∧ Stmt.AllFormed ss

end

theorem describes_line : Describes (.rule .simpleStmts) Line.Formed fun l => [l.tree] := by
  have hmore := ((describes_token .semicolon).append describes_simple).star
  have hlast := (describes_token .semicolon).opt
  refine ((describes_simple.append (hmore.append (hlast.append
    (describes_token .newline)))).rule (r := .simpleStmts)).onto
    (fun x => ⟨x.1, x.2.1, x.2.2.1, x.2.2.2⟩) (fun _ h => h) ?_
    fun l h => ⟨(l.first, l.more, l.last, l.newline), h, rfl⟩
  rintro ⟨first, more, last, newline⟩ -
  cases last <;> simp [Line.tree, Tree.optional, Nonterminal.label]

/-- A nonterminal allows single trees. -/
theorem describes_self (r : Nonterminal) :
    Describes (.rule r) (fun t => Derives (.rule r) [t]) fun t => [t] := by
  intro ts
  constructor
  · intro h
    obtain ⟨us, rfl, hus⟩ := derives_rule.1 h
    exact ⟨_, h, rfl⟩
  · rintro ⟨t, ht, rfl⟩
    exact ht

theorem Stmt.trees_eq_map (ss : List Stmt) : Stmt.trees ss = ss.map Stmt.tree := by
  induction ss with
  | nil => rfl
  | cons s ss ih => rw [Stmt.trees, ih, map_cons]

theorem describes_blockType :
    Describes (.rule .blockType) (·.kind.BeginsBlock) fun t => [.unary "blocktype" t] := by
  refine ((((describes_token .componentWord).or (describes_token .moduleWord)).or
    (describes_token .interfaceWord)).rule (r := .blockType)).onto
    (Sum.elim (Sum.elim id id) id) ?_ ?_ ?_
  · rintro ((t | t) | t) h
    · exact .inl h
    · exact .inr (.inl h)
    · exact .inr (.inr h)
  · rintro ((t | t) | t) - <;> rfl
  · rintro t (h | h | h)
    · exact ⟨.inl (.inl t), h, rfl⟩
    · exact ⟨.inl (.inr t), h, rfl⟩
    · exact ⟨.inr t, h, rfl⟩

theorem describes_blockDef {f : α → Tree} (hblock : Describes (.rule .block) P fun b => [f b]) :
    Describes (.rule .blockDef) (fun x : Header × α => x.1.Formed ∧ P x.2) fun x =>
      [.node "blockdef" (x.1.trees ++ [f x.2])] := by
  have hparent := ((describes_token .fromWord).append describes_path).opt
  refine ((describes_blockType.append (describes_name.append (hparent.append
    ((describes_token .colon).append hblock)))).rule (r := .blockDef)).onto
    (fun x => (⟨x.1, x.2.1, x.2.2.1, x.2.2.2.1⟩, x.2.2.2.2)) ?_ ?_ ?_
  · rintro x ⟨hword, hname, hparent, hcolon, hb⟩
    exact ⟨⟨hword, hname, hparent, hcolon⟩, hb⟩
  · rintro ⟨word, name, _ | w, colon, b⟩ - <;> rfl
  · rintro ⟨⟨word, name, parent, colon⟩, b⟩ ⟨⟨hword, hname, hparent, hcolon⟩, hb⟩
    exact ⟨(word, name, parent, colon, b), ⟨hword, hname, hparent, hcolon, hb⟩, rfl⟩

/-- A statement, if it is known what the trees of bodies are. -/
theorem describes_stmt_of {f : α → Tree} (hblock : Describes (.rule .block) P fun b => [f b]) :
    Describes (.rule .stmt) (Sum.elim Line.Formed fun x : Header × α => x.1.Formed ∧ P x.2)
      fun x => [.node "stmt" [x.elim Line.tree fun x =>
        .node "compound_stmt" [.node "blockdef" (x.1.trees ++ [f x.2])]]] := by
  have hcompound := (describes_blockDef hblock).rule (r := .compoundStmt)
  refine ((describes_line.or hcompound).rule (r := .stmt)).onto id (fun _ h => h) ?_
    fun x h => ⟨x, h, rfl⟩
  rintro (l | x) - <;> rfl

/-- The body of a block, if it is known what the trees of statements are. -/
theorem describes_block_of {f : α → Tree} (hstmt : Describes (.rule .stmt) P fun s => [f s]) :
    Describes (.rule .block)
      (Sum.elim Line.Formed fun x : Token × Token × List α × Token => x.1.kind = .newline ∧
        x.2.1.kind = .indent ∧ (x.2.2.1 ≠ [] ∧ ∀ s ∈ x.2.2.1, P s) ∧ x.2.2.2.kind = .dedent)
      fun x => [.node "block" (x.elim (fun l => [l.tree]) fun x =>
        [.leaf x.1, .leaf x.2.1] ++ x.2.2.1.map f ++ [.leaf x.2.2.2])] := by
  have hindented := (describes_token .newline).append ((describes_token .indent).append
    ((hstmt.append hstmt.star).append (describes_token .dedent)))
  refine ((describes_line.or hindented).rule (r := .block)).onto
    (Sum.map id fun x => (x.1, x.2.1, x.2.2.1.1 :: x.2.2.1.2, x.2.2.2)) ?_ ?_ ?_
  · rintro (l | ⟨newline, indent, ⟨s, ss⟩, dedent⟩) h
    · exact h
    · obtain ⟨hnewline, hindent, ⟨hs, hss⟩, hdedent⟩ := h
      exact ⟨hnewline, hindent, ⟨by simp, forall_mem_cons.2 ⟨hs, hss⟩⟩, hdedent⟩
  · rintro (l | ⟨newline, indent, ⟨s, ss⟩, dedent⟩) -
    · rfl
    · simp [Nonterminal.label, map_eq_flatMap]
  · rintro (l | ⟨newline, indent, _ | ⟨s, ss⟩, dedent⟩) h
    · exact ⟨.inl l, h, rfl⟩
    · exact absurd rfl h.2.2.1.1
    · obtain ⟨hnewline, hindent, ⟨-, hss⟩, hdedent⟩ := h
      rw [forall_mem_cons] at hss
      exact ⟨.inr (newline, indent, (s, ss), dedent), ⟨hnewline, hindent, hss, hdedent⟩, rfl⟩

mutual

theorem derives_stmt : ∀ s : Stmt, s.Formed → Derives (.rule .stmt) [s.tree]
  | .line l, h => (describes_stmt_of (describes_self .block) _).2 ⟨.inl l, h, rfl⟩
  | .block hd b, h =>
    (describes_stmt_of (describes_self .block) _).2
      ⟨.inr (hd, b.tree), ⟨h.1, derives_block b h.2⟩, rfl⟩

theorem derives_block : ∀ b : Block, b.Formed → Derives (.rule .block) [b.tree]
  | .inline l, h => (describes_block_of (describes_self .stmt) _).2 ⟨.inl l, h, rfl⟩
  | .indented newline indent body dedent, ⟨hnewline, hindent, ⟨hne, hbody⟩, hdedent⟩ => by
    refine (describes_block_of (describes_self .stmt) _).2
      ⟨.inr (newline, indent, Stmt.trees body, dedent), ⟨hnewline, hindent, ⟨?_, ?_⟩, hdedent⟩, ?_⟩
    · simpa [Stmt.trees_eq_map] using hne
    · exact derives_stmts body hbody
    · simp [Block.tree]

theorem derives_stmts : ∀ ss : List Stmt, Stmt.AllFormed ss →
    ∀ t ∈ Stmt.trees ss, Derives (.rule .stmt) [t]
  | [], _, t, ht => absurd ht not_mem_nil
  | s :: ss, h, t, ht => by
    rcases mem_cons.1 ht with rfl | ht
    · exact derives_stmt s h.1
    · exact derives_stmts ss h.2 t ht

end

theorem exists_stmts {ts : List Tree} (h : ∀ t ∈ ts, ∃ s : Stmt, s.Formed ∧ t = s.tree) :
    ∃ ss, Stmt.AllFormed ss ∧ ts = Stmt.trees ss := by
  induction ts with
  | nil => exact ⟨[], trivial, rfl⟩
  | cons t ts ih =>
    rw [forall_mem_cons] at h
    obtain ⟨⟨s, hs, rfl⟩, hrest⟩ := h
    obtain ⟨ss, hss, rfl⟩ := ih hrest
    exact ⟨s :: ss, ⟨hs, hss⟩, rfl⟩

theorem Tree.sizeOf_lt_node {t : Tree} (h : t ∈ ts) (rule : String) :
    sizeOf t < sizeOf (Tree.node rule ts) := by
  have hlt := sizeOf_lt_of_mem h
  simp only [Tree.node.sizeOf_spec]
  omega

-- the induction is on the size of a tree: what stands below it is smaller
mutual

theorem exists_stmt (t : Tree) (h : Derives (.rule .stmt) [t]) :
    ∃ s : Stmt, s.Formed ∧ t = s.tree := by
  obtain ⟨l | ⟨hd, u⟩, hx, ht⟩ := (describes_stmt_of (describes_self .block) _).1 h
  · exact ⟨.line l, hx, singleton_inj.1 ht⟩
  · have ht' := singleton_inj.1 ht
    have hsmaller : sizeOf u < sizeOf t := by
      rw [ht']
      calc sizeOf u
        _ < sizeOf (Tree.node "blockdef" (hd.trees ++ [u])) := Tree.sizeOf_lt_node (by simp) _
        _ < sizeOf (Tree.node "compound_stmt" [.node "blockdef" (hd.trees ++ [u])]) :=
          Tree.sizeOf_lt_node (by simp) _
        _ < _ := Tree.sizeOf_lt_node (by simp) _
    obtain ⟨b, hb, rfl⟩ := exists_block u hx.2
    exact ⟨.block hd b, ⟨hx.1, hb⟩, ht'⟩
termination_by sizeOf t

theorem exists_block (t : Tree) (h : Derives (.rule .block) [t]) :
    ∃ b : Block, b.Formed ∧ t = b.tree := by
  obtain ⟨l | ⟨newline, indent, body, dedent⟩, hx, ht⟩ :=
    (describes_block_of (describes_self .stmt) _).1 h
  · exact ⟨.inline l, hx, singleton_inj.1 ht⟩
  · have ht' := singleton_inj.1 ht
    have hsmaller : ∀ u ∈ body, sizeOf u < sizeOf t := by
      intro u hu
      rw [ht']
      exact Tree.sizeOf_lt_node (by simp [hu]) _
    obtain ⟨hnewline, hindent, ⟨hne, hbody⟩, hdedent⟩ := hx
    obtain ⟨ss, hss, rfl⟩ := exists_stmts fun u hu => exists_stmt u (hbody u hu)
    refine ⟨.indented newline indent ss dedent, ⟨hnewline, hindent, ⟨?_, hss⟩, hdedent⟩, ?_⟩
    · simpa [Stmt.trees_eq_map] using hne
    · simpa [Block.tree] using ht'
termination_by sizeOf t
decreasing_by exact hsmaller u hu

end

theorem describes_stmt : Describes (.rule .stmt) Stmt.Formed fun s => [s.tree] := by
  intro ts
  constructor
  · intro h
    obtain ⟨t, ht, rfl⟩ := (describes_self .stmt ts).1 h
    obtain ⟨s, hs, rfl⟩ := exists_stmt t ht
    exact ⟨s, hs, rfl⟩
  · rintro ⟨s, hs, rfl⟩
    exact derives_stmt s hs

/-- An empty line or a formed statement. -/
def Item.Formed : Item → Prop
  | .blank newline => newline.kind = .newline
  | .stmt s => s.Formed

def SourceFile.Formed (f : SourceFile) : Prop :=
  (∀ i ∈ f.items, i.Formed) ∧ f.eof.kind = .eof

theorem describes_file : Describes (.rule .fileInput) SourceFile.Formed fun f => [f.tree] := by
  have hitem : Describes (.token .newline ||| .rule .stmt) Item.Formed fun i => [i.tree] := by
    refine ((describes_token .newline).or describes_stmt).onto (Sum.elim .blank .stmt) ?_ ?_ ?_
    · rintro (t | s) h <;> exact h
    · rintro (t | s) - <;> rfl
    · rintro (t | s) h
      · exact ⟨.inl t, h, rfl⟩
      · exact ⟨.inr s, h, rfl⟩
  refine ((hitem.star.append (describes_token .eof)).rule (r := .fileInput)).onto
    (fun x => ⟨x.1, x.2⟩) (fun _ h => h) ?_ fun f h => ⟨(f.items, f.eof), h, rfl⟩
  rintro ⟨items, eof⟩ -
  simp [SourceFile.tree, map_eq_flatMap, Nonterminal.label]

end Boardwright.Syntax
