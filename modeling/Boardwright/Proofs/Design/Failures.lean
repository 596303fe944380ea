import Boardwright.Proofs.Design.Instance

/-!
# The failures of making instances

Work on the statements of a body goes on after a statement that has failed, and the failures
are put together at the end. So a statement could fail and the work still succeed, if the
failure were a group with nothing in it. This does not happen: each failure that is met while
literals are read, names are looked up, files are read and instances are made is solid. Where
no limit can be met, it is `Ordinary`: no endless recursion either.

Hence an instance is made exactly if each statement succeeds in turn: `visit_eq_ok`.
-/

namespace Boardwright

open Syntax Failure Work

variable {α β : Type} {r : Except Failure α}

def Failure.OnlyOrdinary (r : Except Failure α) : Prop := ∀ f, r = .error f → f.Ordinary

namespace Failure

theorem only_ok (x : α) : OnlyOrdinary (.ok x) := nofun

theorem only_error {f : Failure} (hf : f.Ordinary) :
    OnlyOrdinary (.error f : Except Failure α) := by
  intro g h
  cases h
  exact hf

theorem OnlyOrdinary.bind (hr : OnlyOrdinary r) {k : α → Except Failure β}
    (hk : ∀ x, OnlyOrdinary (k x)) : OnlyOrdinary (r >>= k) := by
  cases r with
  | ok x => exact hk x
  | error f => exact only_error (hr f rfl)

theorem OnlyOrdinary.map (hr : OnlyOrdinary r) (k : α → β) : OnlyOrdinary (r.map k) := by
  cases r with
  | ok x => exact only_ok _
  | error f => exact only_error (hr f rfl)

end Failure

/-! ### Literals -/

namespace Syntax

theorem Token.only_number (ar : Arithmetic α) (t : Token) : OnlyOrdinary (t.number ar) := by
  unfold Token.number
  split
  · exact only_ok _
  · exact only_error (ordinary_fault nofun)

theorem Token.only_unit (path : String) (t : Token) : OnlyOrdinary (t.unit path) := by
  unfold Token.unit
  split
  · exact only_ok _
  · exact only_error (ordinary_report _)

theorem Token.only_integer (path : String) (t : Token) : OnlyOrdinary (t.integer path) := by
  unfold Token.integer
  split
  · exact only_ok _
  · exact only_error (ordinary_report _)

theorem PinLabel.only_read (path : String) (l : PinLabel) : OnlyOrdinary (l.read path) := by
  cases l with
  | name t => exact only_ok _
  | number t => exact t.only_integer path

theorem Measure.only_read (ar : Arithmetic α) (path : String) (m : Measure) :
    OnlyOrdinary (m.read ar path) := by
  refine (m.number.only_number ar).bind fun value => ?_
  cases m.unit with
  | none => exact only_ok _
  | some t => exact ((t.only_unit path).map some).bind fun _ => only_ok _

theorem only_converted (ar : Arithmetic α) (path : String) (t : Token) (u v : MeasureUnit)
    (x : α) : OnlyOrdinary (converted ar path t u v x) := by
  unfold converted
  split
  · exact only_ok _
  · exact only_error (ordinary_fault nofun)
  · exact only_error (ordinary_report _)

theorem Physical.only_spread [OfNat α 1] [OfNat α 100] [OfNat α 1000000] (ar : Arithmetic α)
    (path : String) (p : Physical) : OnlyOrdinary (p.spread ar path) := by
  cases p with
  | implicit m => exact (m.only_read ar path).bind fun _ => only_ok _
  | bilateral m mark tolerance =>
    refine (m.only_read ar path).bind fun _ =>
      (tolerance.number.only_number ar).bind fun size => ?_
    split
    · exact only_ok _
    · next t _ =>
        split
        · exact only_ok _
        · split
          · exact only_ok _
          · exact (t.only_unit path).bind fun _ =>
              (only_converted ar path t _ _ size).bind fun _ => only_ok _
  | bound m mark n =>
    refine (m.only_read ar path).bind fun low =>
      (n.only_read ar path).bind fun high => ?_
    rcases low with ⟨low, _ | u⟩ <;> rcases high with ⟨high, _ | v⟩
    · exact only_ok _
    · exact only_ok _
    · exact only_ok _
    · exact (only_converted ar path m.number v u high).bind fun _ => only_ok _

theorem Assignable.only_read (path : String) (v : Assignable) : OnlyOrdinary (v.read path) := by
  cases v with
  | string t => exact only_ok _
  | physical p => exact ((p.only_spread _ path).bind fun _ => only_ok _).map _
  | new word block => exact only_error (ordinary_fault nofun)

end Syntax

/-! ### Definitions and layers -/

namespace Source

variable {src : Source} {r : Except Failure (Reference × Import)}

theorem only_of_mem_bodyImports {stmts : List Stmt} (h : r ∈ src.bodyImports stmts) :
    OnlyOrdinary r := by
  obtain ⟨s, -, hs⟩ := List.mem_filterMap.1 h
  obtain ⟨word, what, source, file, -, rfl⟩ := exists_of_import? hs
  unfold imported
  split
  · exact only_error (ordinary_report _)
  · split
    · exact only_ok _
    · exact only_error (ordinary_fault nofun)

theorem only_definitions (src : Source) (a : Address) (f : SourceFile) :
    OnlyOrdinary (src.definitions a f) := by
  have hgather : OnlyOrdinary (gather (src.bodyImports f.stmts)) := fun _ =>
    ordinary_of_gather fun g hg => only_of_mem_bodyImports hg g rfl
  rw [definitions_eq]
  refine hgather.bind fun _ => ?_
  unfold declared misplaced
  split
  · next e he =>
      split at he
      · cases he
      · cases he
        exact only_error (ordinary_report _)
  · exact only_ok _

end Source

theorem Definition.only_lookup (d : Definition) (r : Reference) : OnlyOrdinary (d.lookup r) := by
  unfold Definition.lookup
  induction d.closure with
  | nil =>
    unfold lookupIn
    split
    · exact only_ok _
    · exact only_error (ordinary_fault nofun)
  | cons s ss ih =>
    have hfind : OnlyOrdinary (s.find r) := by
      unfold Scope.find
      split
      · split
        · exact only_ok _
        · exact only_error (ordinary_fault nofun)
      · split
        · split
          · exact only_error (ordinary_report _)
          · split
            · exact only_ok _
            · exact only_error (ordinary_fault nofun)
        · exact only_ok _
    refine hfind.bind fun found => ?_
    split
    · exact only_ok _
    · exact ih

theorem Definition.only_values (d : Definition) : OnlyOrdinary d.values := by
  unfold Definition.values
  split
  · exact only_error (ordinary_fault nofun)
  · refine OnlyOrdinary.bind (fun _ => ordinary_of_gather fun g hg => ?_) fun _ => only_ok _
    obtain ⟨s, -, hs⟩ := List.mem_filterMap.1 hg
    split at hs
    · cases hs
    · next value _ =>
        exact ((value.only_read d.path).map _) g (Option.some.inj hs)
    · cases hs

namespace Library

theorem only_read (lib : Library) (file : String) : OnlyOrdinary (lib.read file) := by
  unfold Library.read
  dsimp only
  split
  · exact only_error (ordinary_report _)
  · exact only_error (ordinary_fault nofun)
  · split
    · refine only_error (ordinary_group _ (List.cons_ne_nil _ _) fun f hf => ?_)
      exact List.mem_singleton.1 hf ▸ ordinary_report _
    · exact Source.only_definitions _ _ _

theorem raises_definition (a : Address) : Raises Ordinary (definition a) := by
  refine Raises.get.bind fun lib => ?_
  split
  · exact .pure _
  · refine Raises.get.bind fun lib' => (Raises.ofExcept ?_).bind fun ds => ?_
    · exact lib'.only_read a.file
    · refine (Raises.modify _).bind fun _ => Raises.get.bind fun lib'' => ?_
      split
      · exact .pure _
      · exact .throw (ordinary_report _)

theorem raises_layerWithin (depth : Nat) (a : Address) :
    Raises Solid (layerWithin depth a) := by
  induction depth generalizing a with
  | zero => exact .throw (solid_fault _)
  | succ depth ih =>
    unfold layerWithin
    split
    · exact .pure _
    · refine Raises.get.bind fun lib => ?_
      split
      · exact .pure _
      · refine (raises_definition a).solid.bind fun d => ?_
        refine (Raises.ofExcept (d.only_lookup d.base)).solid.bind fun base => ?_
        refine (ih base).bind fun rest =>
          (Raises.ofExcept d.only_values).solid.bind fun _ => ?_
        exact (Raises.modify _).bind fun _ => .pure _

end Library

/-! ### Instances -/

namespace Library

variable {extension depth : Nat} {create : Address → Layer → Work Library Unit}
  {here a : Address} {d : Definition} {lib lib' : Library}

theorem only_named (d : Definition) (block : Reference) :
    OnlyOrdinary (match d.lookup block with
      | .error (.fault .missingKey) => .error (.report (.located .unknownName d.path d.pos
          ("Couldn't find ref " ++ block.text)))
      | r => r) := by
  split
  · exact only_error (ordinary_report _)
  · exact d.only_lookup block

theorem raises_chosen (extension : Nat) (d : Definition) (pos : Pos) (a : Address)
    (block : Reference) : Raises Solid (chosen extension d pos a block) := by
  rw [chosen_eq]
  refine Raises.get.bind fun lib => ?_
  split
  · exact raises_layerWithin extension _
  · exact (Raises.ofExcept (only_named d block)).solid.bind fun found =>
      raises_atStatement solid_report (raises_layerWithin extension found) d pos

theorem raises_placeLeaf (here : Address) (b : Builtin) (n : String) :
    Raises Ordinary (placeLeaf here b n) := (Raises.modify _).bind fun _ => .pure _

theorem raises_side (path : String) (here : Address) (c : Connectable) :
    Raises Ordinary (side path here c) := by
  cases c with
  | path p => exact .pure _
  | numbered p dot number =>
    exact (Raises.ofExcept (number.only_integer path)).bind fun _ => .pure _
  | signal s => exact raises_placeLeaf _ _ _
  | pin p =>
    exact (Raises.ofExcept (p.label.only_read path)).bind fun _ =>
      raises_placeLeaf _ _ _

theorem raises_present (path : String) (pos : Pos) (a : Address) :
    Raises Ordinary (present path pos a) := by
  refine Raises.get.bind fun lib => ?_
  split
  · exact .pure _
  · exact .throw (ordinary_report _)

theorem raises_setAttribute {v : Except Failure Value} (hv : OnlyOrdinary v) (here : Address)
    (d : Definition) (target : Path) : Raises Ordinary (setAttribute here d target v) := by
  unfold setAttribute
  split
  · exact .pure _
  · exact (Raises.ofExcept hv).bind fun _ => (raises_present _ _ _).bind fun _ => .modify _

theorem raises_plain {s : Simple} (hs : ¬Creates s) :
    Raises Ordinary (statement extension create here d s) := by
  cases s with
  | assign target mark value =>
    cases value with
    | new word block =>
      unfold statement
      dsimp only
      split
      · next n hn => exact absurd ⟨_, _, _, _, n, rfl, hn⟩ hs
      · exact .throw (ordinary_report _)
    | _ => exact raises_setAttribute (Assignable.only_read _ _) here d target
  | connect left mark right =>
    exact (raises_side _ _ _).bind fun _ => (raises_side _ _ _).bind fun _ =>
      (raises_present _ _ _).bind fun _ => (raises_present _ _ _).bind fun _ => .modify _
  | pin p =>
    exact (Raises.ofExcept (p.label.only_read d.path)).bind fun _ =>
      (raises_placeLeaf _ _ _).discard
  | signal t => exact (raises_placeLeaf _ _ _).discard
  | _ => exact .pure _

theorem raises_statement (hcreate : ∀ a l, Raises Solid (create a l)) (here : Address)
    (d : Definition) (s : Simple) : Raises Solid (statement extension create here d s) := by
  by_cases hs : Creates s
  · obtain ⟨target, mark, word, block, n, rfl, hn⟩ := hs
    rw [statement_new hn]
    exact (raises_chosen _ _ _ _ _).bind fun l => hcreate _ l
  · exact (raises_plain hs).solid

theorem raises_askReplacements (here : Address)
    (rs : List (Definition × Reference × Replacement)) :
    Raises Ordinary (askReplacements here rs) := by
  induction rs with
  | nil => exact .pure _
  | cons r rs ih =>
    refine Raises.get.bind fun lib => ?_
    split
    · exact ih
    · exact (Raises.ofExcept (r.1.only_lookup r.2.2.block)).bind fun _ =>
        (Raises.modify _).bind fun _ => ih.bind fun _ => .pure _

theorem raises_createWithin (extension depth : Nat) (parent : Option Address) (a : Address)
    (levels : Layer) : Raises Solid (createWithin extension depth parent a levels) := by
  induction depth generalizing parent a levels with
  | zero => exact .throw (solid_fault _)
  | succ depth ih =>
    rw [createWithin_succ]
    refine (Raises.modify _).bind fun _ => Raises.onFailure ?_
    refine (raises_askReplacements a _).solid.bind fun asked => Raises.finally_ ?_
    refine .forM fun l _ => ?_
    unfold visit
    split
    · exact .pure _
    · exact (Raises.each fun s _ => raises_statement (ih (some a)) a _ s).discard

/-- The statements of a level succeed exactly if each of them succeeds in turn. -/
theorem visit_eq_ok (parent : Option Address) {l : Level} (hl : l.definition = some d) :
    (visit extension (createWithin extension depth parent) here l).outcome lib = (.ok (), lib') ↔
      ((simplesOf d.body).forM
        (statement extension (createWithin extension depth parent) here d)).outcome lib =
          (.ok (), lib') := by
  have hsolid : ∀ s ∈ simplesOf d.body, Raises Solid
      (statement extension (createWithin extension depth parent) here d s) :=
    fun s _ => raises_statement (raises_createWithin extension depth parent) here d s
  unfold visit
  rw [hl]
  exact each_ok_iff hsolid

end Library

end Boardwright
