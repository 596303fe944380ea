import Boardwright.Design.Library
import Boardwright.Proofs.Design.Definition

/-!
# What a library has found out

What is known of definitions and layers depends only on the files that are read and on
where imports are looked for. `defined` is the definition that the files make under an
address, and `IsLayer` says what the layer of an address is. A library is `Settled` if
each definition and each layer that it knows is the one of the files, and if with a layer
it knows the layer that this one is built on.

Looking for a definition or a layer keeps a library settled and finds what the files say:
`Settled.definition`, `Settled.layerWithin`.
-/

open Option

namespace Boardwright

variable {files : Files} {searched : List Route} {N : Spelling} {d : Definition}
  {ds : List Definition} {r : Except Failure Definition}

namespace Library

def defined (files : Files) (searched : List Route) (a : Address) : Option Definition :=
  match read { files, searched } a.file with
  | .ok ds => (register {} ds).definitions.get? a
  | .error _ => none

/-- The blocks that the block of an address is made of. -/
inductive IsLayer (files : Files) (searched : List Route) : Address → Layer → Prop
  | builtin {a : Address} {b : Builtin} (h : Builtin.ofAddress? a = some b) :
    IsLayer files searched a b.layer
  | block {a base : Address} {d : Definition} {data : Table String Value} {rest : Layer}
    (ha : Builtin.ofAddress? a = none) (hd : defined files searched a = some d)
    (hbase : d.lookup d.base = .ok base) (hdata : d.values = .ok data)
    (hrest : IsLayer files searched base rest) :
    IsLayer files searched a (⟨d.address, some d, data⟩ :: rest)

theorem IsLayer.unique {a : Address} {l l' : Layer} (h : IsLayer files searched a l)
    (h' : IsLayer files searched a l') : l = l' := by
  induction h generalizing l' with
  | builtin hb =>
    cases h' with
    | builtin hb' => rw [Option.some.inj (hb.symm.trans hb')]
    | block ha _ _ _ _ => rw [hb] at ha; cases ha
  | block ha hd hbase hdata hrest ih =>
    cases h' with
    | builtin hb' => rw [ha] at hb'; cases hb'
    | block _ hd' hbase' hdata' hrest' =>
      obtain rfl := Option.some.inj (hd.symm.trans hd')
      obtain rfl := Except.ok.inj (hbase.symm.trans hbase')
      obtain rfl := Except.ok.inj (hdata.symm.trans hdata')
      rw [ih hrest']

/-! ### Soundness of what the files say -/

theorem read_eq (lib : Library) (file : String) :
    lib.read file = read { files := lib.files, searched := lib.searched } file := rfl

theorem read_eq_ok_iff {file : String} :
    read { files, searched } file = .ok ds ↔ ∃ text f,
      files.find? (Route.ofText file) = some (.file text) ∧
        Syntax.SourceFile.parse text = .ok f ∧
          Source.definitions ⟨files, searched, Route.ofText file⟩ ⟨file⟩ f = .ok ds := by
  unfold read
  constructor
  · intro h
    dsimp only at h
    split at h
    · cases h
    · cases h
    · next text htext =>
        split at h
        · cases h
        · next f hf => exact ⟨text, f, htext, hf, h⟩
  · rintro ⟨text, f, htext, hf, h⟩
    simp only [htext, hf, h]

theorem spelled_of_mem_read (hN : ∀ {n}, IsWord n → N.Holds n) {lib : Library} {a : Address}
    (h : lib.read a.file = .ok ds) (hd : d ∈ ds) : d.Spelled N ∧ d.address.file = a.file := by
  obtain ⟨text, f, -, hf, h⟩ := read_eq_ok_iff.1 h
  have hfile := Address.isFile_file a
  obtain ⟨hspelled, he⟩ := Source.spelled_of_mem_definitions hfile
    (Syntax.SourceFile.spelled_of_parse hN hf) h hd
  exact ⟨hspelled, he.trans (Address.file_of_isFile hfile)⟩

theorem sound_of_mem_read {lib : Library} {a : Address} {ds : List Definition} {d : Definition}
    (h : lib.read a.file = .ok ds) (hd : d ∈ ds) : d.Sound ∧ d.address.file = a.file :=
  spelled_of_mem_read IsWord.isName h hd

theorem definitions_register (ds : List Definition) :
    (register {} ds).definitions = Table.ofList (ds.map fun d => (d.address, d)) := by
  rw [Table.ofList, List.foldl_map]
  rfl

theorem mem_of_get?_register {k : Address} (h : (register {} ds).definitions.get? k = some d) :
    d ∈ ds ∧ d.address = k := by
  rw [definitions_register] at h
  obtain ⟨e, he, heq⟩ := List.mem_map.1 (Table.mem_of_mem_ofList (Table.mem_entries_of_get? h))
  cases heq
  exact ⟨he, rfl⟩

theorem exists_read_of_defined {a : Address} (h : defined files searched a = some d) :
    ∃ ds, read { files, searched } a.file = .ok ds ∧ d ∈ ds ∧ d.address = a := by
  unfold defined at h
  split at h
  · next ds hds => exact ⟨ds, hds, mem_of_get?_register h⟩
  · cases h

theorem spelled_of_defined (hN : ∀ {n}, IsWord n → N.Holds n) {a : Address}
    (h : defined files searched a = some d) : d.Spelled N ∧ d.address = a := by
  obtain ⟨ds, hds, hmem, hk⟩ := exists_read_of_defined h
  exact ⟨(spelled_of_mem_read hN hds hmem).1, hk⟩

theorem sound_of_defined {a : Address} (h : defined files searched a = some d) :
    d.Sound ∧ d.address = a := spelled_of_defined IsWord.isName h

end Library

/-- Levels whose definitions have names of a sort. -/
def Layer.Spelled (N : Spelling) (l : Layer) : Prop :=
  ∀ v ∈ l, ∀ d, v.definition = some d → d.Spelled N

abbrev Layer.Sound (l : Layer) : Prop := Layer.Spelled .names l

theorem Builtin.definition_of_mem_layer {b : Builtin} {v : Level} (hv : v ∈ b.layer) :
    v.definition = none := by
  rw [Builtin.layer, List.mem_cons] at hv
  rcases hv with rfl | hv
  · rfl
  · rw [mem_toList, map_eq_some_iff] at hv
    obtain ⟨c, -, rfl⟩ := hv
    rfl

theorem Library.IsLayer.spelled (hN : ∀ {n}, IsWord n → N.Holds n) {a : Address} {l : Layer}
    (h : Library.IsLayer files searched a l) : Layer.Spelled N l := by
  induction h with
  | builtin hb =>
    intro v hv d hd
    rw [Builtin.definition_of_mem_layer hv] at hd
    cases hd
  | block ha hd hbase hdata hrest ih =>
    intro v hv d' hd'
    rcases List.mem_cons.1 hv with rfl | hv
    · cases hd'
      exact (Library.spelled_of_defined hN hd).1
    · exact ih v hv d' hd'

theorem Library.IsLayer.sound {a : Address} {l : Layer}
    (h : Library.IsLayer files searched a l) : Layer.Sound l := h.spelled IsWord.isName

namespace Library

/-! ### Work on definitions and layers -/

/-- Looking for a definition changes nothing but what is known of definitions. -/
theorem keeps_definition {I : Library → Prop}
    (hI : ∀ lib definitions, I lib → I { lib with definitions }) (a : Address) :
    Work.Guards I (definition a) := by
  refine Work.Keeps.get.bind fun lib _ => ?_
  split
  · exact .pure trivial
  · refine Work.Keeps.get.bind fun lib _ => .ofExcept_bind fun ds => ?_
    refine (Work.Keeps.modify fun lib h => hI lib _ h).bind fun _ _ =>
      Work.Keeps.get.bind fun lib _ => ?_
    split
    · exact .pure trivial
    · exact .throw _

theorem frame_definition {a : Address} {lib lib' : Library}
    (h : (definition a).outcome lib = (r, lib')) :
    lib'.instances = lib.instances ∧ lib'.replaced = lib.replaced :=
  (keeps_definition (I := fun m => m.instances = lib.instances ∧ m.replaced = lib.replaced)
    (fun _ _ h => h) a).state ⟨rfl, rfl⟩ h

/-- Looking for a layer changes nothing but what is known of definitions and layers. -/
theorem keeps_layerWithin {I : Library → Prop}
    (hI : ∀ lib definitions layers, I lib → I { lib with definitions, layers }) (depth : Nat)
    (a : Address) : Work.Guards I (layerWithin depth a) := by
  induction depth generalizing a with
  | zero => exact .throw _
  | succ depth ih =>
    unfold layerWithin
    split
    · exact .pure trivial
    · refine Work.Keeps.get.bind fun lib _ => ?_
      split
      · exact .pure trivial
      · refine (keeps_definition (fun lib ds h => hI lib ds lib.layers h) a).bind fun d _ =>
          .ofExcept_bind fun base => (ih base).bind fun rest _ => .ofExcept_bind fun data => ?_
        exact (Work.Keeps.modify fun lib h => hI lib lib.definitions _ h).bind fun _ _ =>
          .pure trivial

theorem frame_layerWithin {depth : Nat} {a : Address} {lib lib' : Library}
    {r : Except Failure Layer} (h : (layerWithin depth a).outcome lib = (r, lib')) :
    lib'.instances = lib.instances ∧ lib'.replaced = lib.replaced :=
  (keeps_layerWithin (I := fun m => m.instances = lib.instances ∧ m.replaced = lib.replaced)
    (fun _ _ _ h => h) depth a).state ⟨rfl, rfl⟩ h

def HasLayer (lib : Library) (a : Address) (l : Layer) : Prop :=
  match Builtin.ofAddress? a with
  | some b => l = b.layer
  | none => lib.layers.get? a = some l

/-- A library that knows what the files say. With a layer it knows the one that this layer
is built on. -/
structure Settled (files : Files) (searched : List Route) (lib : Library) : Prop where
  files_eq : lib.files = files
  searched_eq : lib.searched = searched
  definitions : ∀ a d, lib.definitions.get? a = some d → defined files searched a = some d
  layers : ∀ a l, lib.layers.get? a = some l → ∃ d base data rest,
    Builtin.ofAddress? a = none ∧ defined files searched a = some d ∧
      d.lookup d.base = .ok base ∧ d.values = .ok data ∧
      l = ⟨d.address, some d, data⟩ :: rest ∧ lib.HasLayer base rest

variable {lib lib' : Library} {a : Address} {l : Layer} {depth : Nat}

theorem settled_fresh : Settled files searched { files, searched } :=
  ⟨rfl, rfl, nofun, nofun⟩

theorem Settled.congr (h : Settled files searched lib) (instances : Table Address Instance)
    (replaced : Table Address Address) :
    Settled files searched { lib with instances, replaced } :=
  ⟨h.files_eq, h.searched_eq, h.definitions, h.layers⟩

theorem Settled.isLayer (hs : Settled files searched lib) (h : lib.HasLayer a l) :
    IsLayer files searched a l := by
  -- each layer is one level longer than the one it is built on
  induction hn : l.length generalizing a l with
  | zero =>
    unfold HasLayer at h
    split at h
    · next hb => exact h ▸ .builtin hb
    · obtain ⟨d, base, data, rest, -, -, -, -, rfl, -⟩ := hs.layers a l h
      cases hn
  | succ n ih =>
    unfold HasLayer at h
    split at h
    · next hb => exact h ▸ .builtin hb
    · obtain ⟨d, base, data, rest, ha, hd, hbase, hdata, rfl, hrest⟩ := hs.layers a l h
      exact .block ha hd hbase hdata (ih hrest (by simpa using hn))

theorem get?_register (lib : Library) (ds : List Definition) (k : Address) :
    (lib.register ds).definitions.get? k =
      ((register {} ds).definitions.get? k).or (lib.definitions.get? k) :=
  Table.get?_foldl_set (fun d : Definition => d.address) id ds lib.definitions k

theorem defined_of_read_eq_ok (h : read { files, searched } a.file = .ok ds) :
    defined files searched a = (register {} ds).definitions.get? a := by
  rw [defined, h]

theorem exists_get?_register (hd : d ∈ ds) :
    ∃ e, (register {} ds).definitions.get? d.address = some e := by
  rw [definitions_register, Table.get?_ofList]
  refine ne_none_iff_exists'.1 fun hnone => ?_
  have hmem : d ∈ (ds.map fun d => (d.address, d)).filterMap fun e =>
      if e.1 = d.address then some e.2 else none := by simpa using hd
  exact List.not_mem_nil (List.getLast?_eq_none_iff.1 hnone ▸ hmem)

/-- Under the address of a block, the definition that its names lead to is known. -/
theorem get?_register_inside {src : Source} {path : List String}
    (hnames : Syntax.Stmt.AllSpelled .names d.body) (hpath : AreNames path) :
    (register {} (src.definitionsIn d)).definitions.get? (d.address.inside path) =
      src.follow d path := by
  have hfollow : ∀ e, (register {} (src.definitionsIn d)).definitions.get?
      (d.address.inside path) = some e → src.follow d path = some e := by
    intro e he
    obtain ⟨hmem, haddress⟩ := mem_of_get?_register he
    obtain ⟨path', hpath'⟩ := Source.mem_definitionsIn_iff.1 hmem
    rw [Source.address_of_follow hpath'] at haddress
    obtain rfl := Address.inside_injective (Source.areNames_of_follow hpath' hnames) hpath haddress
    exact hpath'
  refine Option.ext fun e => ⟨hfollow e, fun he => ?_⟩
  obtain ⟨e', he'⟩ := exists_get?_register (Source.mem_definitionsIn_iff.2 ⟨path, he⟩)
  rw [Source.address_of_follow he] at he'
  exact he'.trans ((hfollow e' he').symm.trans he)

theorem defined_inside {file text : String} {f : Syntax.SourceFile} {path : List String}
    (hfile : (Address.mk file).IsFile) (htext : files.find? (Route.ofText file) = some (.file text))
    (hf : Syntax.SourceFile.parse text = .ok f)
    (hds : Source.definitions ⟨files, searched, Route.ofText file⟩ ⟨file⟩ f = .ok ds)
    (hpath : AreNames path) : defined files searched (Address.inside ⟨file⟩ path) =
      Source.follow ⟨files, searched, Route.ofText file⟩
        (Source.fileDefinition ⟨files, searched, Route.ofText file⟩ ⟨file⟩ f) path := by
  have hsame : (Address.inside ⟨file⟩ path).file = file :=
    (Address.file_inside _ path).trans (Address.file_of_isFile hfile)
  have hread := read_eq_ok_iff.2 ⟨text, f, htext, hf, hds⟩
  obtain ⟨-, -, rfl⟩ := Source.definitions_eq_ok_iff.1 hds
  rw [defined_of_read_eq_ok ((congrArg _ hsame).trans hread)]
  exact get?_register_inside (d := Source.fileDefinition _ ⟨file⟩ f)
    (Syntax.SourceFile.spelled_of_parse IsWord.isName hf) hpath

theorem Settled.register (hs : Settled files searched lib)
    (hds : read { files, searched } a.file = .ok ds) :
    Settled files searched (lib.register ds) := by
  refine ⟨hs.files_eq, hs.searched_eq, fun k d hk => ?_, hs.layers⟩
  rw [get?_register, or_eq_some_iff] at hk
  rcases hk with hk | ⟨-, hk⟩
  · obtain ⟨hmem, hkey⟩ := mem_of_get?_register hk
    have hfile := (sound_of_mem_read hds hmem).2
    rw [hkey] at hfile
    rw [← hk]
    exact defined_of_read_eq_ok (hfile ▸ hds)
  · exact hs.definitions k d hk

theorem Settled.definition (hs : Settled files searched lib) {r : Except Failure Definition}
    (h : (definition a).outcome lib = (r, lib')) :
    Settled files searched lib' ∧ lib'.layers = lib.layers ∧
      ∀ d, r = .ok d ↔ defined files searched a = some d := by
  unfold Library.definition at h
  rw [Work.outcome_get_bind] at h
  cases hget : lib.definitions.get? a with
  | some d =>
    rw [hget] at h
    cases h
    refine ⟨hs, rfl, fun d' => ?_⟩
    rw [hs.definitions a d hget, Except.ok.injEq, Option.some.injEq]
  | none =>
    have hread : lib.read a.file = read { files, searched } a.file := by
      rw [read_eq, hs.files_eq, hs.searched_eq]
    rw [hget] at h
    dsimp only at h
    rw [Work.outcome_get_bind, hread] at h
    cases hds : read { files, searched } a.file with
    | error e =>
      rw [hds, Work.outcome_ofExcept_error_bind] at h
      cases h
      refine ⟨hs, rfl, fun d => ?_⟩
      rw [defined, hds]
      simp
    | ok ds =>
      rw [hds, Work.outcome_ofExcept_ok_bind, Work.outcome_modify_bind, Work.outcome_get_bind,
        get?_register, hget, or_none, ← defined_of_read_eq_ok hds] at h
      cases hdefined : defined files searched a <;> rw [hdefined] at h <;> cases h
      · exact ⟨hs.register hds, rfl, fun d => by simp⟩
      · exact ⟨hs.register hds, rfl, fun d => by simp⟩

def KnowsLayers (lib lib' : Library) : Prop :=
  ∀ a l, lib.layers.get? a = some l → lib'.layers.get? a = some l

theorem KnowsLayers.refl (lib : Library) : lib.KnowsLayers lib := fun _ _ h => h

theorem KnowsLayers.trans {lib'' : Library} (h : lib.KnowsLayers lib')
    (h' : lib'.KnowsLayers lib'') : lib.KnowsLayers lib'' := fun a l hl => h' a l (h a l hl)

theorem HasLayer.mono (hk : lib.KnowsLayers lib') (h : lib.HasLayer a l) : lib'.HasLayer a l := by
  unfold HasLayer at h ⊢
  split
  · next hb => simpa only [hb] using h
  · next hb => exact hk a l (by simpa only [hb] using h)

theorem not_hasLayer (h : ¬∃ l, lib.HasLayer a l) :
    Builtin.ofAddress? a = none ∧ lib.layers.get? a = none := by
  have hb : Builtin.ofAddress? a = none := by
    rw [eq_none_iff_forall_not_mem]
    exact fun b hb => h ⟨b.layer, by simp [HasLayer, mem_def.1 hb]⟩
  refine ⟨hb, ?_⟩
  rw [eq_none_iff_forall_not_mem]
  exact fun l hl => h ⟨l, by simpa [HasLayer, hb] using hl⟩

theorem layerWithin_of_hasLayer (h : lib.HasLayer a l) :
    (layerWithin (depth + 1) a).outcome lib = (.ok l, lib) := by
  unfold HasLayer at h
  cases hb : Builtin.ofAddress? a <;> rw [hb] at h
  · simp only [layerWithin, hb, Work.outcome_get_bind, show lib.layers.get? a = some l from h]
    rfl
  · simp only [layerWithin, hb, show l = _ from h]
    rfl

theorem outcome_layerWithin (hb : Builtin.ofAddress? a = none) (hget : lib.layers.get? a = none) :
    (layerWithin (depth + 1) a).outcome lib = (do
      let d ← definition a
      let rest ← layerWithin depth (← Work.ofExcept (d.lookup d.base))
      let data ← Work.ofExcept d.values
      modify fun lib => { lib with layers := lib.layers.set a (⟨d.address, some d, data⟩ :: rest) }
      return ⟨d.address, some d, data⟩ :: rest : Work Library Layer).outcome lib := by
  simp only [layerWithin, hb, Work.outcome_get_bind, hget]

theorem Settled.setLayer (hs : Settled files searched lib) {base : Address}
    {data : Table String Value} {rest : Layer} (ha : Builtin.ofAddress? a = none)
    (hd : defined files searched a = some d) (hbase : d.lookup d.base = .ok base)
    (hdata : d.values = .ok data) (hrest : lib.HasLayer base rest) :
    let lib' := { lib with layers := lib.layers.set a (⟨d.address, some d, data⟩ :: rest) }
    Settled files searched lib' ∧ lib.KnowsLayers lib' ∧
      lib'.HasLayer a (⟨d.address, some d, data⟩ :: rest) := by
  intro lib'
  have hknows : lib.KnowsLayers lib' := by
    intro k l hk
    by_cases hka : k = a
    · subst hka
      have hl : IsLayer files searched k l := hs.isLayer (by simpa [HasLayer, ha] using hk)
      rw [hl.unique (.block ha hd hbase hdata (hs.isLayer hrest))]
      exact Table.get?_set_self ..
    · exact (Table.get?_set_of_ne _ _ hka).trans hk
  refine ⟨⟨hs.files_eq, hs.searched_eq, hs.definitions, fun k l hk => ?_⟩, hknows, ?_⟩
  · by_cases hka : k = a
    · subst hka
      obtain rfl := Option.some.inj ((Table.get?_set_self ..).symm.trans hk)
      exact ⟨d, base, data, rest, ha, hd, hbase, hdata, rfl, hrest.mono hknows⟩
    · obtain ⟨d', base', data', rest', h₁, h₂, h₃, h₄, h₅, h₆⟩ :=
        hs.layers k l ((Table.get?_set_of_ne _ _ hka).symm.trans hk)
      exact ⟨d', base', data', rest', h₁, h₂, h₃, h₄, h₅, h₆.mono hknows⟩
  · simp [HasLayer, ha, lib']

/-- The layer that is found under an address is the one of the files, and it is known
afterwards. -/
theorem Settled.layerWithin (hs : Settled files searched lib) {r : Except Failure Layer}
    (h : (layerWithin depth a).outcome lib = (r, lib')) :
    Settled files searched lib' ∧ lib.KnowsLayers lib' ∧ ∀ l, r = .ok l → lib'.HasLayer a l := by
  induction depth generalizing a lib lib' r with
  | zero =>
    cases h
    exact ⟨hs, .refl lib, nofun⟩
  | succ depth ih =>
    by_cases hknown : ∃ l, lib.HasLayer a l
    · obtain ⟨l, hl⟩ := hknown
      rw [layerWithin_of_hasLayer hl] at h
      cases h
      exact ⟨hs, .refl lib, fun _ he => Except.ok.inj he ▸ hl⟩
    · obtain ⟨hb, hget⟩ := not_hasLayer hknown
      rw [outcome_layerWithin hb hget] at h
      rcases hd : (Library.definition a).outcome lib with ⟨rd, lib₁⟩
      obtain ⟨hs₁, hlayers, hdef⟩ := hs.definition hd
      have hknows : lib.KnowsLayers lib₁ := fun k v hk => hlayers ▸ hk
      rcases rd with e | d
      · rw [Work.outcome_bind_error _ hd] at h
        cases h
        exact ⟨hs₁, hknows, nofun⟩
      rw [Work.outcome_bind_ok _ hd] at h
      cases hbase : d.lookup d.base with
      | error e =>
        rw [hbase, Work.outcome_bind_error _ (Work.outcome_ofExcept _ _)] at h
        cases h
        exact ⟨hs₁, hknows, nofun⟩
      | ok base =>
        rw [hbase, Work.outcome_bind_ok _ (Work.outcome_ofExcept _ _)] at h
        rcases hr : (Library.layerWithin depth base).outcome lib₁ with ⟨rr, lib₂⟩
        obtain ⟨hs₂, hknows₂, hrest⟩ := ih hs₁ hr
        rcases rr with e | rest
        · rw [Work.outcome_bind_error _ hr] at h
          cases h
          exact ⟨hs₂, hknows.trans hknows₂, nofun⟩
        rw [Work.outcome_bind_ok _ hr] at h
        cases hdata : d.values with
        | error e =>
          rw [hdata, Work.outcome_bind_error _ (Work.outcome_ofExcept _ _)] at h
          cases h
          exact ⟨hs₂, hknows.trans hknows₂, nofun⟩
        | ok data =>
          rw [hdata, Work.outcome_bind_ok _ (Work.outcome_ofExcept _ _)] at h
          cases h
          obtain ⟨hs₃, hknows₃, hlayer⟩ :=
            hs₂.setLayer hb ((hdef d).1 rfl) hbase hdata (hrest rest rfl)
          refine ⟨hs₃, (hknows.trans hknows₂).trans hknows₃, fun l he => ?_⟩
          exact Except.ok.inj he ▸ hlayer

theorem Settled.keeps_layerWithin (files : Files) (searched : List Route) (depth : Nat)
    (a : Address) :
    Work.Keeps (Settled files searched) (IsLayer files searched a)
      (Library.layerWithin depth a) := by
  intro lib hs
  obtain ⟨hs', -, hlayer⟩ := hs.layerWithin rfl
  exact ⟨hs', fun l hl => hs'.isLayer (hlayer l hl)⟩

/-- A property of settled libraries that does not depend on the blocks they know is kept where a
layer is found. -/
theorem Settled.keeps_layerWithin_of {I : Library → Prop}
    (hsettled : ∀ {lib}, I lib → Settled files searched lib)
    (hI : ∀ {lib lib'}, I lib → Settled files searched lib' → lib'.instances = lib.instances →
      lib'.replaced = lib.replaced → I lib') (depth : Nat) (a : Address) :
    Work.Keeps I (IsLayer files searched a) (Library.layerWithin depth a) := by
  intro lib h
  obtain ⟨hs, hl⟩ := Settled.keeps_layerWithin files searched depth a lib (hsettled h)
  rcases hout : (Library.layerWithin depth a).outcome lib with ⟨r, lib'⟩
  rw [hout] at hs hl
  exact ⟨hI h hs (frame_layerWithin hout).1 (frame_layerWithin hout).2, hl⟩

end Library

end Boardwright
