import Boardwright.Proofs.Design.Declarations
import Boardwright.Proofs.Design.Missing
import Boardwright.Proofs.Design.Requires

/-!
# Where names are visible

A `new` statement looks its name up in the definitions around the one whose body it is written in,
from the innermost one out, and then among the built-in blocks: `Source.Means`, which is read off
the statements of these definitions. What the definition itself declares is not looked at. So a
block or an import is visible in the blocks next to it and in those within them, where it hides
what is declared further out, but not in the body that it is written in.

The body may be that of the block that an instance is made of or of one that this block extends:
it is the place of the statement that counts.
-/

namespace Boardwright

open Syntax List

def Definition.Declares (d : Definition) (n : String) : Prop :=
  ∃ h b, .block h b ∈ d.body ∧ h.name.text = n

namespace Source

variable {src : Source} {file d e : Definition} {around : List Definition} {n : String}
  {more : List String}

/-- The definitions around a definition of a file, from the innermost one out. -/
inductive Surrounds (src : Source) (file : Definition) : List Definition → Definition → Prop
  | file : Surrounds src file [] file
  | block {around : List Definition} {d : Definition} {h : Header} {b : Block}
    (hd : Surrounds src file around d) (hb : .block h b ∈ d.body) :
    Surrounds src file (d :: around)
      (src.blockDefinition (d.address.entryAt h.name.text) (d.toScope :: d.closure) h b)

/-- What the body of a definition imports, one after the other, and where it is. -/
def brought (src : Source) (d : Definition) : List (Reference × Address) :=
  (pieces d.body).filterMap src.brings

/-- Where the imports of a reference lead, one after the other. -/
def leads (src : Source) (d : Definition) (k : Reference) : List Address :=
  (src.brought d).filterMap fun i => if i.1 = k then some i.2 else none

/-- What a reference means in a list of definitions, of which the first counts most. A block and
an import of one name exclude each other, and the parts of a block cannot be referred to. -/
inductive Means (src : Source) (n : String) (more : List String) :
    List Definition → Except Failure Address → Prop
  | block {e : Definition} {around : List Definition} (hn : e.Declares n)
    (hi : ∀ i ∈ src.brought e, i.1.head? ≠ some n) (hmore : more = []) :
    Means src n more (e :: around) (.ok (e.address.entryAt n))
  | part {e : Definition} {around : List Definition} (hn : e.Declares n)
    (hi : ∀ i ∈ src.brought e, i.1.head? ≠ some n) (hmore : more ≠ []) :
    Means src n more (e :: around) (.error (.fault (.unsupported "")))
  | ambiguous {e : Definition} {around : List Definition} {i : Reference × Address}
    (hn : e.Declares n) (hi : i ∈ src.brought e) (hhead : i.1.head? = some n) :
    Means src n more (e :: around) (.error (.report (.located .ambiguousName e.path e.pos
      ("Name '" ++ n ++ "' is ambiguous in '<ObjectDef " ++ e.address.text ++ ">'."))))
  | imported {e : Definition} {around : List Definition} {a : Address} (hn : ¬e.Declares n)
    (hi : (src.leads e (n :: more)).getLast? = some a) : Means src n more (e :: around) (.ok a)
  | outward {e : Definition} {around : List Definition} {r : Except Failure Address}
    (hn : ¬e.Declares n) (hi : src.leads e (n :: more) = []) (hr : Means src n more around r) :
    Means src n more (e :: around) r
  | builtin {b : Builtin} (hb : [b.word] = n :: more) : Means src n more [] (.ok b.address)
  | unknown (hb : ∀ b : Builtin, [b.word] ≠ n :: more) :
    Means src n more [] (.error (.fault .missingKey))

/-! ### What the scopes around a definition say -/

def Scoped (src : Source) (d : Definition) : Prop :=
  ∃ pos, d.toScope = src.scope d.address pos d.body

theorem exists_surrounds (hd : d ∈ src.definitionsIn file) :
    ∃ around, src.Surrounds file around d := by
  refine forall_definitionsIn (P := fun d => ∃ around, src.Surrounds file around d) ?_
    ⟨[], .file⟩ d hd
  exact fun _ _ _ ⟨_, hd⟩ hb => ⟨_, hd.block (mem_pieces_iff.1 hb)⟩

theorem Surrounds.closure {a : Address} {f : SourceFile}
    (h : src.Surrounds (src.fileDefinition a f) around d) :
    src.Scoped d ∧ d.closure = around.map (·.toScope) ∧ ∀ e ∈ around, src.Scoped e := by
  induction h with
  | file => exact ⟨⟨_, rfl⟩, rfl, forall_mem_nil _⟩
  | block _ _ ih =>
    exact ⟨⟨_, rfl⟩, congrArg (_ :: ·) ih.2.1, forall_mem_cons.2 ⟨ih.1, ih.2.2⟩⟩

namespace Scoped

variable (h : src.Scoped e)

include h

theorem contains_iff : e.blocks.contains n = true ↔ e.Declares n := by
  obtain ⟨pos, h⟩ := h
  rw [h, scope, contains_iff_mem, blockNames, mem_eraseDups, mem_filterMap]
  constructor
  · rintro ⟨_ | ⟨h, b⟩, hs, hn⟩ <;> cases hn
    exact ⟨h, b, hs, rfl⟩
  · rintro ⟨h, b, hs, rfl⟩
    exact ⟨_, hs, rfl⟩

theorem get?_imports (k : Reference) :
    (e.imports.get? k).map Import.address = (src.leads e k).getLast? := by
  obtain ⟨pos, h⟩ := h
  rw [h, get?_imports_scope, Table.get?_ofList]
  rfl

theorem any_imports_iff :
    (e.imports.keys.any fun k => k.head? == some n) = true ↔
      ∃ i ∈ src.brought e, i.1.head? = some n := by
  have hkey : ∀ k, k ∈ e.imports.keys ↔ ∃ i ∈ src.brought e, i.1 = k := by
    intro k
    rw [← Table.get?_isSome_iff, ← Option.isSome_map, h.get?_imports, leads]
    simp
  simp [hkey]

end Scoped

/-- Scopes say what their definitions mean. -/
theorem means_lookupIn (haround : ∀ e ∈ around, src.Scoped e) :
    src.Means n more around (lookupIn (n :: more) (around.map (·.toScope))) := by
  induction around with
  | nil =>
    rw [map_nil, lookupIn]
    cases hb : Builtin.ofReference? (n :: more) with
    | none => exact .unknown fun b h => by cases b <;> rw [← h] at hb <;> cases hb
    | some b => exact .builtin (eq_of_beq (find?_some hb :)).symm
  | cons e around ih =>
    rw [forall_mem_cons] at haround
    obtain ⟨he, haround⟩ := haround
    rw [map_cons, lookupIn, Scope.find]
    by_cases hn : e.Declares n
    · rw [if_pos (he.contains_iff.2 hn)]
      by_cases hi : ∃ i ∈ src.brought e, i.1.head? = some n
      · rw [if_pos (he.any_imports_iff.2 hi)]
        obtain ⟨i, hi, hhead⟩ := hi
        exact .ambiguous hn hi hhead
      · rw [if_neg (mt he.any_imports_iff.1 hi)]
        have hclear : ∀ i ∈ src.brought e, i.1.head? ≠ some n :=
          fun i hi' hhead => hi ⟨i, hi', hhead⟩
        cases more with
        | nil => exact .block hn hclear rfl
        | cons => exact .part hn hclear (cons_ne_nil _ _)
    · rw [if_neg (mt he.contains_iff.1 hn), he.get?_imports]
      cases hi : (src.leads e (n :: more)).getLast? with
      | some a => exact .imported hn hi
      | none => exact .outward hn (getLast?_eq_none_iff.1 hi) (ih haround)

end Source

/-! ### What `new` statements make -/

namespace Library

variable {files : Files} {searched : List Route} {x here : Address} {d : Definition}
  {levels : Layer} {v : Level} {lib : Library} {target block : Path} {m : String}

/-- What a `new` statement raises if its reference means no block. -/
def unmeant (d : Definition) (k : Reference) : Failure → Failure
  | .fault .missingKey => .report (.located .unknownName d.path d.pos
      ("Couldn't find ref " ++ k.text))
  | e => e

theorem outcome_new (hm : target.names = [m])
    (hfree : lib.replaced.get? (here.addInstance m) = none) (extension : Nat)
    (create : Address → Layer → Work Library Unit) (mark word : Token) :
    (statement extension create here d (.assign target mark (.new word block))).outcome lib =
      match d.lookup block.names with
      | .ok b => (atStatement d target.head.pos (layerWithin extension b) >>=
          create (here.addInstance m)).outcome lib
      | .error e => (.error (unmeant d block.names e), lib) := by
  rw [statement_new hm, chosen_eq, Work.outcome_bind, Work.outcome_get_bind, hfree]
  rcases d.lookup block.names with (r | f | ⟨text, fs⟩ | c) | b
  · rfl
  · cases f <;> rfl
  · rfl
  · rfl
  · exact (Work.outcome_bind _ _ lib).symm

/-- A `new` statement in the body of a level of an instance means what the definitions around this
body declare, from the innermost one out, whatever the body itself declares. Unless another block
takes the place of its target, it makes an instance of the block that is meant; if none is meant,
nothing is made. -/
theorem new_means (hl : IsLayer files searched x levels) (hv : v ∈ levels)
    (hd : v.definition = some d) (hm : target.names = [m])
    (hfree : lib.replaced.get? (here.addInstance m) = none) (block : Path) (extension : Nat)
    (create : Address → Layer → Work Library Unit) (mark word : Token) :
    ∃ text f around, files.find? (Route.ofText d.address.file) = some (.file text) ∧
      SourceFile.parse text = .ok f ∧
      (sourceAt files searched d.address).Surrounds
        ((sourceAt files searched d.address).fileDefinition ⟨d.address.file⟩ f) around d ∧
      (sourceAt files searched d.address).Means block.head.text (block.tail.map (·.2.text)) around
        (d.lookup block.names) ∧
      (statement extension create here d (.assign target mark (.new word block))).outcome lib =
        match d.lookup block.names with
        | .ok b => (atStatement d target.head.pos (layerWithin extension b) >>=
            create (here.addInstance m)).outcome lib
        | .error e => (.error (unmeant d block.names e), lib) := by
  obtain ⟨y, -, -, hdef⟩ := hl.exists_required hv hd
  obtain ⟨ds, hds, hmem, rfl⟩ := exists_read_of_defined hdef
  obtain ⟨text, f, htext, hf, hds⟩ := read_eq_ok_iff.1 hds
  obtain ⟨-, -, rfl⟩ := Source.definitions_eq_ok_iff.1 hds
  obtain ⟨around, haround⟩ := Source.exists_surrounds hmem
  obtain ⟨-, hclosure, hscoped⟩ := haround.closure
  refine ⟨text, f, around, htext, hf, haround, ?_, outcome_new hm hfree ..⟩
  rw [Definition.lookup, hclosure]
  exact Source.means_lookupIn hscoped

/-- A module with a block of the name of another one, and a child whose block has this name. -/
def shadowing : Files where
  texts := ⟨[(["f"], "module X:\n  signal s\nmodule B:\n  module X:\n    signal t\n" ++
    "  x = new X\n")]⟩

theorem new_means_shadowing :
    ∃ levels d target block mark word, IsLayer shadowing [] ⟨"f:B"⟩ levels ∧
      (∃ v ∈ levels, v.definition = some d) ∧
      .assign target mark (.new word block) ∈ simplesOf d.body ∧
      (statement 2 (createWithin 2 1 (some ⟨"f:B"⟩)) ⟨"f:B"⟩ d
        (.assign target mark (.new word block))).outcome { files := shadowing } =
        (atStatement d target.head.pos (layerWithin 2 ⟨"f:X"⟩) >>=
          createWithin 2 1 (some ⟨"f:B"⟩) ⟨"f:B::x"⟩).outcome { files := shadowing } := by
  obtain ⟨v, hv, d, hd, target, mark, word, block, hs, hn, hx⟩ := exists_of_makesNew
    (show makesNew [] (foundLayer shadowing ⟨"f:B"⟩) "x" ⟨"f:X"⟩ = true by decide +kernel)
  have hfree : retyped [(foundLayer shadowing ⟨"f:B"⟩, "x")] [] = none :=
    Option.isNone_iff_eq_none.1 (by decide +kernel)
  have hlookup : d.lookup block.names = .ok ⟨"f:X"⟩ := by
    rw [List.nil_append, retypedBlock, hfree] at hx
    exact eq_ok_of_toOption hx
  have hl := (Settled.keeps_layerWithin shadowing [] 2 ⟨"f:B"⟩).result
    Reached.fresh.sound.settled (outcome_foundLayer hv)
  have hplace : ({ files := shadowing } : Library).replaced.get?
    (Address.addInstance ⟨"f:B"⟩ "x") = none := rfl
  obtain ⟨-, -, -, -, -, -, -, hmade⟩ :=
    new_means hl hv hd hn hplace block 2 (createWithin 2 1 (some ⟨"f:B"⟩)) mark word
  rw [hlookup] at hmade
  exact ⟨_, d, target, block, mark, word, hl, ⟨v, hv, hd⟩, hs, hmade⟩

/-- The child is made of the outer block, and not of the one that is declared next to it. -/
theorem new_shadowing_outer :
    (defined shadowing [] ⟨"f:B.X"⟩).isSome ∧
    (((treeWithin 2 3 ⟨"f:B"⟩).outcome { files := shadowing }).2.instances.get? ⟨"f:B::x"⟩).map
      (fun i => i.levels.map Level.address) = some [⟨"f:X"⟩, ⟨"<Built-in>:Module"⟩] := by
  decide +kernel

end Library

end Boardwright
