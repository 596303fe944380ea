import Boardwright.Proofs.Design.Declarations

/-!
# The definitions of rearranged files

If no two blocks of one body have the same name, the same names lead to a definition that is alike
where declarations are moved, `Source.exists_follow`. Imports find the same files wherever they
stand.

So each definition that some files make has its counterpart in the rearranged files, under the
same address: `Library.exists_defined`.
-/

namespace Boardwright

open Syntax List Table Source

variable {ds : List Definition} {f : SourceFile} {text text' : String} {n : Nat}

theorem Table.eq_empty_of_get? {κ ν : Type} [BEq κ] [LawfulBEq κ] {t : Table κ ν}
    (h : ∀ k, t.get? k = none) : t = ∅ := by
  obtain ⟨_ | ⟨e, es⟩⟩ := t
  · rfl
  · exact absurd (get?_eq_none_iff.1 (h e.1)) (by simp [Table.keys])

namespace Source

variable {src src' : Source} {d d' e e' : Definition} {path : List String} {h : Header} {b : Block}
  {a : Address} {f' : SourceFile}

def pieceDefinitions (src : Source) (a : Address) (closure : List Scope) :
    Piece → Option (String × List Definition)
  | .simple _ => none
  | .block h b => some (h.name.text, src.blockDefinitions (a.entryAt h.name.text) closure h b)

theorem bodyDefinitions_eq (src : Source) (a : Address) (closure : List Scope) (ss : List Stmt) :
    src.bodyDefinitions a closure ss = (pieces ss).filterMap (src.pieceDefinitions a closure) := by
  induction ss with
  | nil => rfl
  | cons s ss ih =>
    rw [pieces_cons, filterMap_append, ← ih]
    cases s with
    | line l => simp [Stmt.pieces, bodyDefinitions, filterMap_map, pieceDefinitions]
    | block h b => rfl

theorem lastBlock_eq_some {ss : List Stmt} (hd : Distinct (pieces ss))
    (hb : .block h b ∈ pieces ss) : lastBlock h.name.text ss = some (h, b) := by
  have hmem : (h, b) ∈ (ss.filterMap Stmt.block?).filter (·.1.name.text = h.name.text) :=
    mem_filter.2 ⟨mem_filterMap.2 ⟨_, mem_pieces_iff.1 hb, rfl⟩, decide_eq_true rfl⟩
  cases hlast : lastBlock h.name.text ss with
  | none => exact absurd hmem (getLast?_eq_none_iff.1 hlast ▸ not_mem_nil)
  | some p =>
    obtain ⟨hb', hname⟩ := mem_of_lastBlock hlast
    obtain ⟨rfl, rfl⟩ := hd.block_unique hb hb' hname.symm
    rfl

/-- Where declarations are moved, the same names lead to a definition that is alike. -/
theorem exists_follow (hsrc : src.imported = src'.imported) (hdd' : d.Alike d')
    (hd : Distinct (pieces d.body)) (h : src.follow d path = some e) :
    ∃ e', src'.follow d' path = some e' ∧ e.Alike e' := by
  induction path generalizing d d' with
  | nil => exact ⟨d', rfl, Option.some.inj h ▸ hdd'⟩
  | cons n path ih =>
    obtain ⟨header, b, hlast, hpath⟩ := exists_of_follow_cons h
    obtain ⟨hb, rfl⟩ := mem_of_lastBlock hlast
    obtain ⟨header', b', hb', hheader, hbody⟩ := hdd'.body.exists_block hb
    have hinner := hd.inner hb
    have hblock : (src.blockDefinition (d.address.entryAt header.name.text)
        (d.toScope :: d.closure) header b).Alike (src'.blockDefinition
          (d'.address.entryAt header'.name.text) (d'.toScope :: d'.closure) header' b') := by
      refine ⟨?_, Header.base_eq hheader, .cons hdd'.scope hdd'.closure,
        replacementsOf_rearranged hbody hinner, hbody⟩
      rw [Header.name_eq hheader, hdd'.scope.address]
      exact alike_scope hsrc hbody hinner _ _ _
    obtain ⟨e', he', halike⟩ := ih hblock hinner hpath
    refine ⟨e', ?_, halike⟩
    rw [Header.name_eq hheader, follow_cons, blockIn, lastBlock_eq_some (hd.rearranged hdd'.body) hb']
    exact he'

/-! ### Imports -/

def pieceImports (src : Source) : Piece → List (Except Failure (Reference × Import))
  | .simple (.importing word what _ file) => [src.imported word what file]
  | .simple _ => []
  | .block _ b => src.bodyImports b.stmts

theorem pieceImports_simple (src : Source) (s : Simple) :
    src.pieceImports (.simple s) = (src.import? s).toList := by
  cases s <;> rfl

theorem bodyImports_eq (src : Source) (ss : List Stmt) :
    src.bodyImports ss = (pieces ss).flatMap src.pieceImports := by
  induction ss with
  | nil => rfl
  | cons s ss ih =>
    rw [bodyImports, simplesWithin, filterMap_append, pieces_cons, flatMap_append, ← ih]
    congr 1
    cases s with
    | line l =>
      rw [Stmt.simplesWithin, Stmt.pieces, flatMap_map, filterMap_eq_flatMap_toList]
      simp only [pieceImports_simple]
    | block h b =>
      rw [Stmt.simplesWithin, Block.simplesWithin_eq, Stmt.pieces]
      exact (append_nil _).symm

theorem exists_imported {word word' file file' : Token} {what what' : Path}
    (hfile : file.unplaced = file'.unplaced) (hwhat : what.unplaced = what'.unplaced)
    {x : Reference × Import} (hx : src.imported word what file = .ok x) :
    ∃ y, src.imported word' what' file' = .ok y := by
  have hmap := src.map_imported word word' hfile hwhat
  rw [hx] at hmap
  obtain ⟨y, hy, -⟩ := Option.map_eq_some_iff.1 hmap.symm
  exact ⟨y, eq_ok_of_toOption hy⟩

def FindsImports (src : Source) (p : Piece) : Prop := ∀ r ∈ src.pieceImports p, ∃ x, r = .ok x

theorem findsImports_block :
    src.FindsImports (.block h b) ↔ ∀ p ∈ pieces b.stmts, src.FindsImports p := by
  rw [FindsImports, pieceImports, bodyImports_eq, forall_mem_flatMap]
  rfl

theorem FindsImports.simple {s s' : Simple} (hs : s.unplaced = s'.unplaced)
    (h : src.FindsImports (.simple s)) : src.FindsImports (.simple s') := by
  intro r hr
  cases s' with
  | importing word' what' source' file' =>
    cases s with
    | importing word what source file =>
      obtain ⟨-, hwhat, -, hfile⟩ := Simple.importing.inj hs
      obtain ⟨x, hx⟩ := h _ mem_cons_self
      rw [mem_singleton.1 hr]
      exact exists_imported hfile hwhat hx
    | _ => cases hs
  | _ => cases hr

theorem findsImports_rearranged {ps ps' : List Piece} (h : Rearranged ps ps')
    (hok : ∀ p ∈ ps, src.FindsImports p) : ∀ p ∈ ps', src.FindsImports p := by
  induction h with
  | nil => exact hok
  | simple hs _ ih =>
    rw [forall_mem_cons] at hok ⊢
    exact ⟨hok.1.simple hs, ih hok.2⟩
  | block _ _ _ ihb ih =>
    rw [forall_mem_cons] at hok ⊢
    exact ⟨findsImports_block.2 (ihb (findsImports_block.1 hok.1)), ih hok.2⟩
  | swap _ ps => exact fun p hp => hok p ((List.Perm.swap _ _ ps).mem_iff.1 hp)
  | trans _ _ ih ih' => exact ih' (ih hok)

theorem import?_congr (hsrc : src.imported = src'.imported) : src.import? = src'.import? := by
  funext s
  cases s with
  | importing word what source file => rw [import?, import?, hsrc]
  | _ => rfl

theorem bodyImports_congr (hsrc : src.imported = src'.imported) (ss : List Stmt) :
    src.bodyImports ss = src'.bodyImports ss := by
  rw [bodyImports, bodyImports, import?_congr hsrc]

theorem imported_eq (hlocate : src.locate? = src'.locate?) (hroute : src.route = src'.route) :
    src.imported = src'.imported := by
  funext word what file
  rw [imported, imported, hlocate, hroute]

/-! ### Files -/

/-- The imports of a file are gathered if all of them find their files. -/
theorem exists_gather_bodyImports {ss : List Stmt} :
    (∃ xs, Failure.gather (src.bodyImports ss) = .ok xs) ↔ ∀ p ∈ pieces ss, src.FindsImports p := by
  have hall : (∀ p ∈ pieces ss, src.FindsImports p) ↔ ∀ r ∈ src.bodyImports ss, ∃ x, r = .ok x := by
    rw [bodyImports_eq, forall_mem_flatMap]
    rfl
  rw [hall]
  constructor
  · rintro ⟨xs, hxs⟩
    rw [Failure.eq_map_ok_of_gather (fun g hg => (only_of_mem_bodyImports hg g rfl).1) hxs]
    exact fun r hr => (mem_map.1 hr).imp fun _ hx => hx.2.symm
  · intro h
    have hnone : ∀ g, .error g ∉ src.bodyImports ss := fun g hg => nomatch h _ hg
    rw [Failure.eq_map_ok_of_not_mem hnone]
    exact ⟨_, Failure.gather_map_ok _⟩

theorem exists_definitions (hsrc : src.imported = src'.imported)
    (hf : Rearranged (pieces f.stmts) (pieces f'.stmts)) (hd : Distinct (pieces f.stmts)) (h : src.definitions a f = .ok ds) :
    src'.definitions a f' = .ok (src'.definitionsIn (src'.fileDefinition a f')) := by
  obtain ⟨himports, hmisplaced, -⟩ := definitions_eq_ok_iff.1 h
  refine definitions_eq_ok_iff.2 ⟨?_, ?_, rfl⟩
  · rw [exists_gather_bodyImports] at himports
    rw [← bodyImports_congr hsrc, exists_gather_bodyImports]
    exact findsImports_rearranged hf himports
  · refine eq_empty_of_get? fun r => ?_
    have hblock := replacementsOf_rearranged hf hd r
    rw [hmisplaced] at hblock
    exact Option.map_eq_none_iff.1 hblock.symm

theorem alike_fileDefinition (hsrc : src.imported = src'.imported)
    (hf : Rearranged (pieces f.stmts) (pieces f'.stmts)) (hd : Distinct (pieces f.stmts))
    (a : Address) : (src.fileDefinition a f).Alike (src'.fileDefinition a f') :=
  ⟨alike_scope hsrc hf hd _ _ _, rfl, .nil, fun _ => rfl, hf⟩

end Source

/-- Texts of which the second one has moved declarations, or which are the same. -/
def RearrangedText (text text' : String) : Prop :=
  text = text' ∨ ∃ f f', SourceFile.parse text = .ok f ∧ SourceFile.parse text' = .ok f' ∧
    Rearranged (pieces f.stmts) (pieces f'.stmts)

theorem RearrangedText.exists_parse (h : RearrangedText text text')
    (hf : SourceFile.parse text = .ok f) :
    ∃ f', SourceFile.parse text' = .ok f' ∧ Rearranged (pieces f.stmts) (pieces f'.stmts) := by
  rcases h with rfl | ⟨g, f', hg, hf', hgf'⟩
  · exact ⟨f, hf, .of_stmts f.stmts⟩
  · cases hf.symm.trans hg
    exact ⟨f', hf', hgf'⟩

/-- Texts whose declarations are found to be moved. -/
theorem RearrangedText.of_within
    (h : ((SourceFile.parse text).toOption.bind fun f =>
      (SourceFile.parse text').toOption.map fun f' =>
        rearrangedWithin n (pieces f.stmts) (pieces f'.stmts)) = some true) :
    RearrangedText text text' := by
  obtain ⟨f, hf, h⟩ := Option.bind_eq_some_iff.1 h
  obtain ⟨f', hf', h⟩ := Option.map_eq_some_iff.1 h
  exact .inr ⟨f, f', eq_ok_of_toOption hf, eq_ok_of_toOption hf', rearranged_of_within h⟩

/-- A text whose declarations are found to be for different things. -/
theorem distinct_of_parse
    (h : ((SourceFile.parse text).toOption.all fun f => distinctWithin n (pieces f.stmts)) = true)
    (hf : SourceFile.parse text = .ok f) : Distinct (pieces f.stmts) := by
  rw [hf] at h
  exact distinct_of_within h

namespace Files

variable {fs fs' : Files} {r : Route}

/-- The same files, with texts of which `P` holds. -/
structure Like (P : String → String → Prop) (fs fs' : Files) : Prop where
  dirs : fs.dirs = fs'.dirs
  cwd : fs.cwd = fs'.cwd
  texts : fs.texts.Matches (fun _ => P) fs'.texts

/-- The same files, with declarations moved in their texts. -/
structure Rearranged (fs fs' : Files) : Prop where
  dirs : fs.dirs = fs'.dirs
  cwd : fs.cwd = fs'.cwd
  texts : fs.texts.Matches (fun _ => RearrangedText) fs'.texts

/-- Files in which no file and no block declares the same thing twice. -/
def Distinct (fs : Files) : Prop :=
  ∀ parts text f, fs.texts.get? parts = some text → SourceFile.parse text = .ok f →
    Syntax.Distinct (Syntax.pieces f.stmts)

theorem Distinct.of_find? (h : fs.Distinct) (hr : fs.find? r = some (.file text))
    (hf : SourceFile.parse text = .ok f) : Syntax.Distinct (pieces f.stmts) := by
  obtain ⟨k, -, hk⟩ := Option.bind_eq_some_iff.1 hr
  unfold node? at hk
  split at hk
  · next htext =>
      cases hk
      exact h k text f htext hf
  · split at hk <;> cases hk

namespace Like

variable {P : String → String → Prop}

variable (h : fs.Like P fs')

include h

theorem mem_keys (k : List String) : k ∈ fs.texts.keys ↔ k ∈ fs'.texts.keys := by
  rw [← get?_isSome_iff, ← get?_isSome_iff, h.texts.isSome]

theorem isDirectory (parts : List String) : fs.isDirectory parts = fs'.isDirectory parts := by
  have hany : ∀ fs : Files, (fs.texts.entries.any fun e =>
      parts.isPrefixOf e.1 && parts.length < e.1.length) =
        fs.texts.keys.any fun k => parts.isPrefixOf k && parts.length < k.length := by
    intro fs
    simp only [Table.keys, any_map, Function.comp_def]
  have hkeys : ∀ p : List String → Bool, fs.texts.keys.any p = fs'.texts.keys.any p := by
    intro p
    rw [Bool.eq_iff_iff, any_eq_true, any_eq_true]
    simp only [h.mem_keys]
  rw [Files.isDirectory, Files.isDirectory, h.dirs, hany, hany, hkeys]

theorem walk (at_ ps : List String) : fs.walk at_ ps = fs'.walk at_ ps := by
  induction ps generalizing at_ with
  | nil => rfl
  | cons p ps ih => rw [Files.walk, Files.walk, h.isDirectory, ih, ih]

theorem find? (r : Route) :
    fs.find? r = fs'.find? r ∨ ∃ text text', fs.find? r = some (.file text) ∧
      fs'.find? r = some (.file text') ∧ P text text' := by
  rw [Files.find?, Files.find?, h.cwd, h.walk]
  cases fs'.walk (if r.rooted then [] else fs'.cwd) r.parts with
  | none => exact .inl rfl
  | some k =>
    simp only [Option.bind_some, node?, h.isDirectory]
    cases htext : fs.texts.get? k with
    | some text =>
      obtain ⟨text', htext', hsame⟩ := h.texts.exists_get? htext
      rw [htext']
      exact .inr ⟨text, text', rfl, rfl, hsame⟩
    | none =>
      have hnone : fs'.texts.get? k = none := by
        rw [get?_eq_none_iff, ← h.mem_keys, ← get?_eq_none_iff, htext]
      rw [hnone]
      exact .inl rfl

theorem exists_file (hP : ∀ text, P text text)
    (hr : fs.find? r = some (.file text)) :
    ∃ text', fs'.find? r = some (.file text') ∧ P text text' := by
  rcases h.find? r with hsame | ⟨_, text', hr', hsame⟩
  · exact ⟨text, hsame ▸ hr, hP text⟩
  · cases hr.symm.trans hr'
    exact ⟨text', hsame⟩

theorem exists? : fs.exists? = fs'.exists? := by
  funext r
  unfold Files.exists?
  rcases h.find? r with hr | ⟨_, _, hr, hr', -⟩
  · rw [hr]
  · rw [hr, hr']
    rfl

theorem isFile (r : Route) : fs.isFile r = fs'.isFile r := by
  unfold Files.isFile
  rcases h.find? r with hr | ⟨_, _, hr, hr', -⟩
  · rw [hr]
  · rw [hr, hr']

theorem imported (searched : List Route) (route : Route) :
    Source.imported ⟨fs, searched, route⟩ = Source.imported ⟨fs', searched, route⟩ := by
  refine imported_eq ?_ rfl
  funext file
  simp only [Source.locate?, h.isFile, h.exists?, resolve, h.cwd]

end Like

theorem Rearranged.like (h : fs.Rearranged fs') : fs.Like RearrangedText fs' :=
  ⟨h.dirs, h.cwd, h.texts⟩

end Files

namespace Library

variable {files files' : Files} {searched : List Route} {a : Address} {d : Definition}

theorem exists_defined (hfiles : files.Rearranged files') (hdistinct : files.Distinct)
    (h : defined files searched a = some d) :
    ∃ d', defined files' searched a = some d' ∧ d.Alike d' := by
  obtain ⟨ds, hds, hmem, haddress⟩ := exists_read_of_defined h
  obtain ⟨text, f, htext, hf, hds⟩ := read_eq_ok_iff.1 hds
  have himported := hfiles.like.imported searched (Route.ofText a.file)
  obtain ⟨text', htext', hsame⟩ := hfiles.like.exists_file (fun _ => .inl rfl) htext
  obtain ⟨f', hf', hff'⟩ := hsame.exists_parse hf
  have hd := hdistinct.of_find? htext hf
  have hds' := exists_definitions himported hff' hd hds
  obtain ⟨-, -, rfl⟩ := definitions_eq_ok_iff.1 hds
  obtain ⟨path, hpath⟩ := mem_definitionsIn_iff.1 hmem
  obtain ⟨d', hpath', halike⟩ := exists_follow himported
    (alike_fileDefinition himported hff' hd ⟨a.file⟩) hd hpath
  have hnames : Stmt.AllSpelled .names f.stmts := SourceFile.spelled_of_parse IsWord.isName hf
  have hinside : a = Address.inside ⟨a.file⟩ path :=
    haddress.symm.trans (address_of_follow hpath)
  have hdefined := defined_inside (Address.isFile_file a) htext' hf' hds'
    (areNames_of_follow hpath hnames)
  exact ⟨d', (congrArg _ hinside).trans (hdefined.trans hpath'), halike⟩

end Library

end Boardwright
