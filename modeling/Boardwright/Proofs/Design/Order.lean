import Boardwright.Proofs.Design.Comparison
import Boardwright.Proofs.Design.Independence
import Boardwright.Proofs.Design.Rearranged

/-!
# The order of declarations does not matter

A block, an import and a replacement of a type count for the whole file or block that they stand
in, also for the statements above them. Libraries of some files and of the rearranged files stay
`Rearranged` while the same is asked of both: layers are made of definitions that are alike, and
instances are the same but for what they are made of and the positions of links.

The replacements of an instance may be asked for in another order, but each block has at most one
for a path, so the same ones become known. Declarations do nothing for an instance themselves, and
the other statements are worked on in the same order. Hence each tree comes out in both:
`treeWithin_rearranged`.
-/

namespace Boardwright

open Syntax

/-- Levels of definitions that are alike, with the same attributes. -/
structure Level.Alike (v v' : Level) : Prop where
  address : v.address = v'.address
  data : v.data = v'.data
  definition : Option.Rel Definition.Alike v.definition v'.definition

def Layer.Alike (l l' : Layer) : Prop := List.Forall₂ Level.Alike l l'

theorem Layer.like_iff {l l' : Layer} : l.Like Definition.Alike l' ↔ l.Alike l' :=
  ⟨fun h => h.imp fun _ _ hv => ⟨hv.address, hv.data, hv.definition⟩,
    fun h => h.imp fun _ _ hv => ⟨hv.address, hv.data, hv.definition⟩⟩

/-- Instances that are the same but for positions and the order of declarations in the blocks
that they are made of. -/
structure Instance.Rearranged (i j : Instance) : Prop where
  levels : Layer.Alike i.levels j.levels
  override : i.override = j.override
  children : i.children = j.children
  links : i.links.map Link.ends = j.links.map Link.ends

namespace Library

variable {files files' : Files} {searched : List Route} {r : Address} {lib : Library}

/-- Libraries of rearranged files that hold the same. -/
structure Rearranged (files files' : Files) (searched : List Route) (s t : Library) : Prop where
  settled : Settled files searched s
  settled' : Settled files' searched t
  layers : s.layers.Matches (fun _ => Layer.Alike) t.layers
  instances : s.instances.Matches (fun _ => Instance.Rearranged) t.instances
  replaced : ∀ k, s.replaced.get? k = t.replaced.get? k

theorem Rearranged.fresh (files files' : Files) (searched : List Route) :
    Rearranged files files' searched { files, searched } { files := files', searched } :=
  ⟨settled_fresh, settled_fresh, fun _ => .none, fun _ => .none, fun _ => rfl⟩

def Rearranged.comparison (hfiles : files.Rearranged files') (hdistinct : files.Distinct)
    (searched : List Route) : Comparison where
  files
  files'
  searched
  definitions := Definition.Alike
  instances := Instance.Rearranged
  exists_defined := exists_defined hfiles hdistinct
  address h := h.scope.address
  base h := h.base
  lookup h := h.lookup
  values h := h.values
  replacements h := h.replacements
  placed _ _ h := ⟨Layer.like_iff.1 h, rfl, rfl, rfl⟩
  child n h := ⟨h.levels, h.override, by rw [h.children], h.links⟩
  override name value h := ⟨h.levels, by rw [h.override], h.children, h.links⟩
  link x y pos pos' h := ⟨h.levels, h.override, h.children, by simp [h.links, Link.ends]⟩

/-- Statements that declare something do nothing for an instance. -/
theorem forM_simplesOf (extension : Nat) (create : Address → Layer → Work Library Unit)
    (here : Address) (d : Definition) (ss : List Stmt) :
    (simplesOf ss).forM (statement extension create here d) =
      (acting ss).forM (statement extension create here d) := by
  rw [simplesOf_eq_pieces, acting]
  induction pieces ss with
  | nil => rfl
  | cons p ps ih =>
    cases p with
    | block header b => exact ih
    | simple v =>
      cases v with
      -- `statement` returns at once for these two
      | importing word what source file => exact ih
      | retype target mark block => exact ih
      | _ => exact congrArg (_ >>= fun _ => ·) ih

namespace Rearranged

variable (hfiles : files.Rearranged files') (hdistinct : files.Distinct)

/-- Declarations do nothing for an instance, and the other statements are in the same order. -/
theorem states (searched : List Route) : (comparison hfiles hdistinct searched).States := by
  intro extension create here d d' hcreate hd
  rw [forM_simplesOf, forM_simplesOf]
  refine Work.Along.forM₂ (hd.body.acting.imp fun v v' hv => ?_)
  exact Comparison.inStep_statement hcreate here hd hv

theorem like_eq (searched : List Route) :
    (comparison hfiles hdistinct searched).Like = Rearranged files files' searched := by
  have hlayer : Layer.Like Definition.Alike = Layer.Alike := by
    funext l l'
    exact propext Layer.like_iff
  funext s t
  exact propext ⟨fun h => ⟨h.settled, h.settled', hlayer ▸ h.layers, h.instances, h.replaced⟩,
    fun h => ⟨h.settled, h.settled', hlayer ▸ h.layers, h.instances, h.replaced⟩⟩

include hfiles hdistinct in
theorem inStep_treeWithin (extension nesting : Nat) (x : Address) :
    Work.InStep (fun _ => True) (Rearranged files files' searched) (fun _ _ => True)
      (treeWithin extension nesting x) (treeWithin extension nesting x) := by
  rw [← like_eq hfiles hdistinct searched]
  exact Comparison.inStep_treeWithin (states hfiles hdistinct searched) extension nesting x

end Rearranged

/-! ### Trees -/

/-- What a library was asked for other roots is no obstacle to go on beside a fresh one. -/
theorem ReachedApart.beside_fresh
    (h : ReachedApart files searched r lib) (hr : r.entrySection.any (· ≠ "") = true)
    (hinst : r.isInstance = false) :
    ∃ more, Alongside files searched (Concerns r) more lib { files, searched } := by
  obtain ⟨more, hmore⟩ := exists_length_le lib
  exact ⟨more, h.reached.sound.settled, settled_fresh, fun x l hl => .inr (hmore x l hl),
    fun _ hx => (h.absent hr hinst hx).1, fun _ hx => (h.absent hr hinst hx).2⟩

theorem ReachedApart.fresh_beside
    (h : ReachedApart files searched r lib) (hr : r.entrySection.any (· ≠ "") = true)
    (hinst : r.isInstance = false) :
    Alongside files searched (Concerns r) 0 { files, searched } lib :=
  ⟨settled_fresh, h.reached.sound.settled, nofun, fun _ hx => (h.absent hr hinst hx).1.symm,
    fun _ hx => (h.absent hr hinst hx).2.symm⟩

/-- The order of declarations does not matter. If no file and no block declares the same thing
twice, moving blocks, imports and replacements of types among the statements around them leaves
the trees that come out as they are: one tree after the other in a fresh library, and the tree of
a block in libraries that were asked anything else before. Only how many blocks may extend one
another can count for more then, by no more than `more`. -/
theorem treeWithin_rearranged (hfiles : files.Rearranged files') (hdistinct : files.Distinct)
    (searched : List Route) :
    (∀ extension nesting (roots : List Address) made,
      (roots.forM (treeWithin extension nesting)).outcome { files, searched } = (.ok (), made) →
      ∃ made', (roots.forM (treeWithin extension nesting)).outcome { files := files', searched } =
          (.ok (), made') ∧
        made.instances.Matches (fun _ => Instance.Rearranged) made'.instances) ∧
    ∀ r lib lib', r.entrySection.any (· ≠ "") = true → ReachedApart files searched r lib →
      ReachedApart files' searched r lib' →
      ∃ more, ∀ extension nesting made,
        (treeWithin extension nesting r).outcome lib = (.ok (), made) →
        ∃ made', (treeWithin (extension + more) nesting r).outcome lib' = (.ok (), made') ∧
          ∀ k, r.Below k →
            Option.Rel Instance.Rearranged (made.instances.get? k) (made'.instances.get? k) := by
  constructor
  · intro extension nesting roots made hmade
    obtain ⟨_, made', hmade', hsame, -⟩ := (Work.Along.forM fun r _ =>
      Rearranged.inStep_treeWithin hfiles hdistinct extension nesting r).exists_ok
        (.fresh files files' searched) hmade
    exact ⟨made', hmade', hsame.instances⟩
  · intro r lib lib' hr h h'
    cases hinst : r.isInstance with
    | true =>
      refine ⟨0, fun extension nesting made hmade => ?_⟩
      rw [outcome_treeWithin_of_isInstance hinst] at hmade
      cases hmade
    | false =>
      obtain ⟨more, hside⟩ := h.beside_fresh hr hinst
      refine ⟨more, fun extension nesting made hmade => ?_⟩
      -- through fresh libraries of the files and of the rearranged files
      obtain ⟨s, hs, hsame⟩ := hside.treeWithin_same (h.absent hr hinst (.inl rfl)).1 hmade nofun
      obtain ⟨_, t, ht, hst, -⟩ := (Rearranged.inStep_treeWithin hfiles hdistinct
        (extension + more) nesting r).exists_ok (.fresh files files' searched) hs
      obtain ⟨made', hmade', hsame'⟩ := (h'.fresh_beside hr hinst).treeWithin_same rfl ht nofun
      refine ⟨made', hmade', fun k hk => ?_⟩
      rw [hsame rfl k hk, ← hsame' rfl k hk]
      exact hst.instances k

/-- A module that uses a block and an import from below it, and replaces a type after the
instance. -/
def forward : Files where
  texts := (Table.set ∅ ["g"] "module C:pin 1\n").set ["f"]
    ("module M:\n  x = new C\n  x -> B\nmodule B from C:pin 2\nimport C from \"g\"\n")

/-- The same module, with each declaration above what it is used by. -/
def upward : Files where
  texts := (Table.set ∅ ["g"] "module C:pin 1\n").set ["f"]
    ("import C from \"g\"\nmodule B from C:pin 2\nmodule M:\n  x -> B\n  x = new C\n")

theorem forward_rearranged : forward.Rearranged upward where
  dirs := rfl
  cwd := rfl
  texts := by
    have hother : ∀ t : Table (List String) String, t.Matches (fun _ => RearrangedText) t :=
      .refl fun _ _ => .inl rfl
    exact (hother _).set (.of_within (n := 4) (by decide +kernel))

theorem forward_distinct : forward.Distinct := by
  intro k text f htext hf
  rw [forward, Table.get?_set, Table.get?_set] at htext
  split at htext
  · cases htext
    exact distinct_of_parse (n := 3) (by decide +kernel) hf
  · split at htext
    · cases htext
      exact distinct_of_parse (n := 3) (by decide +kernel) hf
    · cases htext

/-- The replaced type takes effect wherever it stands, also after a tree that was asked for in one
of the libraries only. -/
theorem treeWithin_rearranged_forward :
    forward.Rearranged upward ∧ forward.Distinct ∧
    (∃ made made',
      ([⟨"f:B"⟩, ⟨"f:M"⟩].forM (treeWithin 3 3)).outcome { files := forward } = (.ok (), made) ∧
      ([⟨"f:B"⟩, ⟨"f:M"⟩].forM (treeWithin 3 3)).outcome { files := upward } = (.ok (), made') ∧
      made.instances.Matches (fun _ => Instance.Rearranged) made'.instances ∧
      made.instances.contains ⟨"f:M::x.2"⟩) ∧
    ∃ lib more made made', ReachedApart forward [] ⟨"f:M"⟩ lib ∧ lib.instances.contains ⟨"f:B"⟩ ∧
      (treeWithin 3 3 ⟨"f:M"⟩).outcome lib = (.ok (), made) ∧
      (treeWithin (3 + more) 3 ⟨"f:M"⟩).outcome { files := upward } = (.ok (), made') ∧
      ∀ k, Address.Below ⟨"f:M"⟩ k →
        Option.Rel Instance.Rearranged (made.instances.get? k) (made'.instances.get? k) := by
  obtain ⟨hfresh, hlater⟩ := treeWithin_rearranged forward_rearranged forward_distinct []
  have hlib : ReachedApart forward [] ⟨"f:M"⟩ _ := .tree .fresh 3 3 ⟨"f:B"⟩ (by decide)
  obtain ⟨hruns, hx, hb, hrun⟩ : (([⟨"f:B"⟩, ⟨"f:M"⟩].forM (treeWithin 3 3)).outcome
        { files := forward }).1.toOption = some () ∧
      (([⟨"f:B"⟩, ⟨"f:M"⟩].forM (treeWithin 3 3)).outcome
        { files := forward }).2.instances.contains ⟨"f:M::x.2"⟩ ∧
      ((treeWithin 3 3 ⟨"f:B"⟩).outcome { files := forward }).2.instances.contains ⟨"f:B"⟩ ∧
      ((treeWithin 3 3 ⟨"f:M"⟩).outcome
        ((treeWithin 3 3 ⟨"f:B"⟩).outcome { files := forward }).2).1.toOption = some () := by
    decide +kernel
  refine ⟨forward_rearranged, forward_distinct, ?_, ?_⟩
  · have hmade := Work.outcome_eq_ok_of_toOption hruns
    obtain ⟨made', hmade', hsame⟩ := hfresh 3 3 _ _ hmade
    exact ⟨_, made', hmade, hmade', hsame, hx⟩
  · obtain ⟨more, hmore⟩ := hlater ⟨"f:M"⟩ _ _ (by decide +kernel) hlib .fresh
    have hmade := Work.outcome_eq_ok_of_toOption hrun
    obtain ⟨made', hmade', hsame⟩ := hmore 3 3 _ hmade
    exact ⟨_, more, _, made', hlib, hb, hmade, hmade', hsame⟩

end Library

end Boardwright
