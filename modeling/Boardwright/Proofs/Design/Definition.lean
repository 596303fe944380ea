import Boardwright.Proofs.Design.Visit
import Boardwright.Proofs.Syntax.Names
import Boardwright.Proofs.Table

/-!
# The definitions of a file

A file makes its definitions along the names of its blocks, `Source.follow`, where of blocks with
one name the last one counts. So what each block passes on to the blocks in it holds of all
definitions: `Source.forall_definitionsIn`.

Each definition that a file makes stands under the address of the file or of a block of
it, and its statements hold only names of the sort that the file holds: `Definition.Spelled`.
In particular what it replaces is a path of such names, and not the empty one.
-/

namespace Boardwright

open Syntax List Option Stmt

/-- A file as a definition: it extends the built-in module, and no scope stands around it. -/
structure Definition.IsFile (d : Definition) : Prop where
  address : d.address.IsFile
  base : d.base = [Builtin.module.word]
  closure : d.closure = []

/-- A file, or a definition under the address of a block, with names of a sort. -/
structure Definition.Spelled (N : Spelling) (d : Definition) : Prop where
  origin : d.IsFile ∨ d.address.IsEntry ∧ N.Holds d.address.name
  statements : ∀ s ∈ simplesOf d.body, s.Spelled N
  replacements : ∀ r ∈ d.replacements.keys, AreNames r ∧ r ≠ []

/-- A definition under the address of a file or a block, with names that addresses can be
built from. -/
abbrev Definition.Sound (d : Definition) : Prop := d.Spelled .names

variable {N : Spelling} {n : String}

theorem Definition.Spelled.address {d : Definition} (h : d.Spelled N) : d.address.IsRoot :=
  h.origin.imp IsFile.address And.left

namespace Syntax

theorem spelled_of_mem_simplesOf {ss : List Stmt} (hss : AllSpelled N ss) :
    ∀ s ∈ simplesOf ss, s.Spelled N := by
  intro s hs
  obtain ⟨stmt, hstmt, hs⟩ := mem_flatMap.1 hs
  have hspelled := allSpelled_iff.1 hss stmt hstmt
  cases stmt with
  | line l => exact hspelled s hs
  | block h b => exact absurd hs not_mem_nil

theorem areNames_of_mem_replacementsOf {ss : List Stmt} (hss : AllSpelled N ss) :
    ∀ r ∈ (replacementsOf ss).keys, AreNames r ∧ r ≠ [] := by
  intro r hr
  obtain ⟨e, he, rfl⟩ := mem_map.1 hr
  obtain ⟨s, hs, hse⟩ := mem_filterMap.1 (Table.mem_of_mem_ofList he)
  have hspelled := spelled_of_mem_simplesOf hss s hs
  cases s with
  | retype target mark block =>
    cases hse
    exact ⟨fun n hn => N.isName (hspelled n hn), cons_ne_nil _ _⟩
  | _ => cases hse

def Stmt.block? : Stmt → Option (Header × Block)
  | .line _ => none
  | .block h b => some (h, b)

/-- The last block of a name in a body. -/
def lastBlock (n : String) (ss : List Stmt) : Option (Header × Block) :=
  ((ss.filterMap Stmt.block?).filter (·.1.name.text = n)).getLast?

/-- A piece of a body: a simple statement, or a block. -/
inductive Piece
  | simple (s : Simple)
  | block (h : Header) (b : Block)

def Stmt.pieces : Stmt → List Piece
  | .line l => l.simples.map .simple
  | .block h b => [.block h b]

/-- The pieces of a body, whatever lines they stand on. -/
def pieces (ss : List Stmt) : List Piece := ss.flatMap Stmt.pieces

@[simp]
theorem pieces_cons (s : Stmt) (ss : List Stmt) : pieces (s :: ss) = s.pieces ++ pieces ss := rfl

variable {h : Header} {b : Block} {ss : List Stmt}

theorem mem_pieces_iff : .block h b ∈ pieces ss ↔ .block h b ∈ ss := by
  induction ss with
  | nil => simp [pieces]
  | cons s ss ih =>
    rw [pieces_cons, mem_append, ih, mem_cons]
    cases s with
    | line l => simp [Stmt.pieces]
    | block h' b' => simp [Stmt.pieces]

theorem mem_of_lastBlock (hb : lastBlock n ss = some (h, b)) :
    .block h b ∈ pieces ss ∧ h.name.text = n := by
  obtain ⟨hmem, hn⟩ := mem_filter.1 (mem_of_getLast? hb)
  obtain ⟨s, hs, hblock⟩ := mem_filterMap.1 hmem
  cases s with
  | line l => cases hblock
  | block h' b' =>
    cases hblock
    exact ⟨mem_pieces_iff.2 hs, of_decide_eq_true hn⟩

theorem sizeOf_stmts_lt (hb : .block h b ∈ pieces ss) : sizeOf b.stmts < sizeOf ss := by
  have hlt := sizeOf_lt_of_mem (mem_pieces_iff.1 hb)
  cases h
  cases b <;> simp [Block.stmts] at hlt ⊢ <;> omega

theorem Block.spelled_iff : b.Spelled N ↔ AllSpelled N b.stmts := by
  cases b with
  | inline l => exact (and_iff_left trivial).symm
  | indented _ _ body _ => exact Iff.rfl

theorem spelled_of_mem_pieces (hss : AllSpelled N ss) (hb : .block h b ∈ pieces ss) :
    N.Holds h.name.text ∧ AllSpelled N b.stmts := by
  have hspelled := allSpelled_iff.1 hss _ (mem_pieces_iff.1 hb)
  exact ⟨hspelled.1, Block.spelled_iff.1 hspelled.2⟩

end Syntax

namespace Source

variable {src : Source} {d e : Definition} {path : List String} {address : Address} {f : SourceFile}
  {ds : List Definition}

/-! ### Definitions along the names of blocks -/

def blockDefinition (src : Source) (a : Address) (closure : List Scope) (h : Header) (b : Block) :
    Definition :=
  { src.scope a h.word.pos b.stmts with
    base := h.base, replacements := replacementsOf b.stmts, body := b.stmts, closure }

/-- The definition of the last block of a name in the body of a definition. -/
def blockIn (src : Source) (d : Definition) (n : String) : Option Definition :=
  (lastBlock n d.body).map fun p =>
    src.blockDefinition (d.address.entryAt n) (d.toScope :: d.closure) p.1 p.2

/-- The definition that the names of blocks lead to from a definition inwards. -/
def follow (src : Source) (d : Definition) (path : List String) : Option Definition :=
  path.foldlM src.blockIn d

/-- A definition and those of the blocks in it, as they are made known. -/
def definitionsIn (src : Source) (d : Definition) : List Definition :=
  d :: (Table.ofList (src.bodyDefinitions d.address (d.toScope :: d.closure)
    d.body)).values.flatten

theorem blockDefinitions_eq (src : Source) (a : Address) (closure : List Scope) (h : Header)
    (b : Block) :
    src.blockDefinitions a closure h b = src.definitionsIn (src.blockDefinition a closure h b) := by
  cases b with
  | inline l => rfl
  | indented newline indent body dedent => rfl

theorem get?_bodyDefinitions (src : Source) (a : Address) (closure : List Scope) (ss : List Stmt)
    (n : String) : (Table.ofList (src.bodyDefinitions a closure ss)).get? n =
      (lastBlock n ss).map fun p => src.blockDefinitions (a.entryAt n) closure p.1 p.2 := by
  rw [Table.get?_ofList, lastBlock, ← getLast?_map]
  congr 1
  induction ss with
  | nil => rfl
  | cons s ss ih =>
    cases s with
    | line l => simpa [bodyDefinitions, Stmt.block?, filterMap_cons] using ih
    | block h b =>
      by_cases hn : h.name.text = n <;> simp [bodyDefinitions, Stmt.block?, hn, ih]

theorem mem_definitionsIn : e ∈ src.definitionsIn d ↔
    e = d ∨ ∃ n d', src.blockIn d n = some d' ∧ e ∈ src.definitionsIn d' := by
  rw [definitionsIn, mem_cons, mem_flatten]
  refine or_congr_right ⟨?_, ?_⟩
  · rintro ⟨ds, hds, he⟩
    obtain ⟨⟨n, ds⟩, hentry, rfl⟩ := mem_map.1 hds
    have hget := (Table.get?_eq_some_iff (Table.keys_nodup_ofList _)).2 hentry
    rw [get?_bodyDefinitions, map_eq_some_iff] at hget
    obtain ⟨⟨h, b⟩, hb, rfl⟩ := hget
    exact ⟨n, _, congrArg (Option.map _) hb, blockDefinitions_eq .. ▸ he⟩
  · rintro ⟨n, d', hd', he⟩
    obtain ⟨⟨h, b⟩, hb, rfl⟩ := map_eq_some_iff.1 hd'
    have hget := get?_bodyDefinitions src d.address (d.toScope :: d.closure) d.body n
    rw [hb, map_some, blockDefinitions_eq] at hget
    exact ⟨_, mem_map.2 ⟨_, Table.mem_entries_of_get? hget, rfl⟩, he⟩

theorem follow_cons (src : Source) (d : Definition) (n : String) (path : List String) :
    src.follow d (n :: path) = (src.blockIn d n).bind fun d' => src.follow d' path :=
  foldlM_cons

/-- The definitions that are made known are those that names of blocks lead to. -/
theorem mem_definitionsIn_iff : e ∈ src.definitionsIn d ↔ ∃ path, src.follow d path = some e := by
  constructor
  · -- blocks are smaller than the body that they stand in
    induction hn : sizeOf d.body using Nat.strongRecOn generalizing d with
    | ind k ih =>
      intro he
      rcases mem_definitionsIn.1 he with rfl | ⟨n, d', hd', he⟩
      · exact ⟨[], rfl⟩
      · obtain ⟨⟨h, b⟩, hb, rfl⟩ := map_eq_some_iff.1 hd'
        obtain ⟨path, hpath⟩ := ih _ (hn ▸ sizeOf_stmts_lt (mem_of_lastBlock hb).1) rfl he
        exact ⟨n :: path, by rw [follow_cons, hd', bind_some, hpath]⟩
  · rintro ⟨path, hpath⟩
    induction path generalizing d with
    | nil =>
      cases hpath
      exact mem_cons_self
    | cons n path ih =>
      rw [follow_cons, bind_eq_some_iff] at hpath
      obtain ⟨d', hd', hpath⟩ := hpath
      exact mem_definitionsIn.2 (.inr ⟨n, d', hd', ih hpath⟩)

theorem exists_of_follow_cons
    (h : src.follow d (n :: path) = some e) : ∃ header b, lastBlock n d.body = some (header, b) ∧
      src.follow (src.blockDefinition (d.address.entryAt n) (d.toScope :: d.closure) header b)
        path = some e := by
  rw [follow_cons, bind_eq_some_iff] at h
  obtain ⟨d', hd', hpath⟩ := h
  obtain ⟨⟨header, b⟩, hb, rfl⟩ := map_eq_some_iff.1 hd'
  exact ⟨header, b, hb, hpath⟩

theorem address_of_follow (h : src.follow d path = some e) :
    e.address = d.address.inside path := by
  induction path generalizing d with
  | nil => exact Option.some.inj h ▸ rfl
  | cons n path ih =>
    obtain ⟨header, b, -, hpath⟩ := exists_of_follow_cons h
    exact ih hpath

theorem areNames_of_follow (h : src.follow d path = some e)
    (hd : AllSpelled .names d.body) : AreNames path := by
  induction path generalizing d with
  | nil => exact areNames_nil
  | cons n path ih =>
    obtain ⟨header, b, hb, hpath⟩ := exists_of_follow_cons h
    obtain ⟨hmem, rfl⟩ := mem_of_lastBlock hb
    obtain ⟨hname, hinner⟩ := spelled_of_mem_pieces hd hmem
    exact areNames_cons.2 ⟨hname, ih hpath hinner⟩

/-- What holds of a definition, and of each block in a definition of which it holds, holds of all
definitions that are made known. -/
theorem forall_definitionsIn {P : Definition → Prop}
    (hblock : ∀ d h b, P d → .block h b ∈ pieces d.body → P (src.blockDefinition
      (d.address.entryAt h.name.text) (d.toScope :: d.closure) h b)) (hd : P d) :
    ∀ e ∈ src.definitionsIn d, P e := by
  intro e he
  obtain ⟨path, hpath⟩ := mem_definitionsIn_iff.1 he
  clear he
  induction path generalizing d with
  | nil => exact Option.some.inj hpath ▸ hd
  | cons n path ih =>
    obtain ⟨h, b, hb, hpath⟩ := exists_of_follow_cons hpath
    obtain ⟨hmem, rfl⟩ := mem_of_lastBlock hb
    exact ih (hblock _ _ _ hd hmem) hpath

def fileDefinition (src : Source) (a : Address) (f : SourceFile) : Definition :=
  { src.scope a f.start.pos f.stmts with
    base := [Builtin.module.word], replacements := ∅, body := f.stmts, closure := [] }

theorem definitions_eq_ok_iff : src.definitions address f = .ok ds ↔
    (∃ xs, Failure.gather (src.bodyImports f.stmts) = .ok xs) ∧ replacementsOf f.stmts = ∅ ∧
      ds = src.definitionsIn (src.fileDefinition address f) := by
  have hempty : (replacementsOf f.stmts).entries.isEmpty ↔ replacementsOf f.stmts = ∅ :=
    List.isEmpty_iff.trans ⟨congrArg Table.mk, congrArg Table.entries⟩
  rw [definitions_eq, ← hempty]
  cases Failure.gather (src.bodyImports f.stmts) with
  | error e => exact iff_of_false nofun fun h => nomatch h.1
  | ok xs =>
    show src.declared address f = .ok ds ↔ _
    unfold declared misplaced
    by_cases hnone : (replacementsOf f.stmts).entries.isEmpty
    · simp only [if_pos hnone]
      exact ⟨fun h => ⟨⟨xs, rfl⟩, hnone, (Except.ok.inj h).symm⟩, fun h => h.2.2 ▸ rfl⟩
    · simp only [if_neg hnone]
      exact iff_of_false nofun fun h => hnone h.2.1

/-- The definitions of a file have names of the sort that its statements have, and stand under
the address of the file. -/
theorem spelled_of_mem_definitions (ha : address.IsFile) (hf : AllSpelled N f.stmts)
    (h : src.definitions address f = .ok ds) (hd : d ∈ ds) :
    d.Spelled N ∧ d.address.file = address.file := by
  obtain ⟨-, -, rfl⟩ := definitions_eq_ok_iff.1 h
  have hfile : (src.fileDefinition address f).Spelled N :=
    ⟨.inl ⟨ha, rfl, rfl⟩, spelled_of_mem_simplesOf hf, fun r hr => absurd hr not_mem_nil⟩
  suffices hall : ∀ d ∈ src.definitionsIn (src.fileDefinition address f),
      d.Spelled N ∧ d.address.file = address.file ∧ AllSpelled N d.body from
    ⟨(hall d hd).1, (hall d hd).2.1⟩
  refine forall_definitionsIn ?_ ⟨hfile, rfl, hf⟩
  intro e h b he hb
  obtain ⟨hname, hss⟩ := spelled_of_mem_pieces he.2.2 hb
  refine ⟨⟨.inr ⟨he.1.address.entryAt (N.isName hname), ?_⟩, spelled_of_mem_simplesOf hss,
    areNames_of_mem_replacementsOf hss⟩, (Address.file_entryAt _ _).trans he.2.1, hss⟩
  exact (Address.name_entryAt _ (N.isName hname)).symm ▸ hname

/-! ### Scopes and replacements -/

def IsScope (src : Source) (file : String) (s : Scope) : Prop :=
  s.address.file = file ∧ ∃ pos stmts, s = src.scope s.address pos stmts

theorem isScope_scope (src : Source) (a : Address) (pos : Pos) (stmts : List Stmt) :
    src.IsScope a.file (src.scope a pos stmts) := ⟨rfl, pos, stmts, rfl⟩

/-- A definition as a file makes it: it replaces what its statements say, and the scopes around
it are those of the file. -/
structure Makes (src : Source) (file : String) (d : Definition) : Prop where
  replacements : d.replacements = replacementsOf d.body
  closure : ∀ s ∈ d.closure, src.IsScope file s

theorem makes_of_mem_definitions
    (h : src.definitions address f = .ok ds) (hd : d ∈ ds) : src.Makes address.file d := by
  obtain ⟨-, hmis, rfl⟩ := definitions_eq_ok_iff.1 h
  suffices hall : ∀ d ∈ src.definitionsIn (src.fileDefinition address f),
      src.Makes address.file d ∧ src.IsScope address.file d.toScope from (hall d hd).1
  have hclosure : ∀ s ∈ (src.fileDefinition address f).closure, src.IsScope address.file s :=
    forall_mem_nil _
  refine forall_definitionsIn ?_ ⟨⟨hmis.symm, hclosure⟩, src.isScope_scope address _ f.stmts⟩
  intro e h b he _
  refine ⟨⟨rfl, forall_mem_cons.2 ⟨he.2, he.1.closure⟩⟩, ?_⟩
  have hscope := src.isScope_scope (e.address.entryAt h.name.text) h.word.pos b.stmts
  rwa [Address.file_entryAt, he.2.1] at hscope

end Source

end Boardwright
