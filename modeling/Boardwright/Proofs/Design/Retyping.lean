import Boardwright.Proofs.Design.Progress

/-!
# Which replacement counts

A block can say that in its instances another block takes the place of the one that a `new`
statement names. The instances around a child, from the outermost one in, are asked for such a
replacement of the child, and of each the levels, the block itself first: `retyped` is the
first replacement that is found in this way.

What is known of replacements while a tree is made is exactly this. The replacements of an
instance are made known when it is made, unless an outer one is known already, and forgotten
when it has been made. So a `new` statement makes an instance of the block that the first
replacement names, where it is said, or else of the block that the statement itself names:
`new_of_retypedBlock`.
-/

namespace Boardwright

open Syntax List Table Work Option

variable {asked : List Address} {known : Option (Definition × Replacement)}
  {rs : List (Definition × Reference × Replacement)}

namespace Library

/-- What the levels of an instance say takes the place of what stands at a path below it. -/
def replacement? (levels : Layer) (path : Reference) : Option (Definition × Replacement) :=
  levels.findSome? fun l => l.definition.bind fun d => (d.replacements.get? path).map (d, ·)

/-- The replacement that counts for the end of a path: the first one that is found in
instances that stand one in the other, the outermost one first. Each has the name of the next
one in it, and the last name is followed by the rest of the path. -/
def retyped : List (Layer × String) → Reference → Option (Definition × Replacement)
  | [], _ => none
  | (levels, n) :: rest, path =>
    (replacement? levels (n :: rest.map Prod.snd ++ path)).or (retyped rest path)

/-- The block of a child that a statement of the definition `d` makes: the one that the
replacement names that counts, looked up where that replacement is said, or else the one that
the statement names, looked up in `d`. -/
def retypedBlock (around : List (Layer × String)) (d : Definition) (block : Reference) :
    Except Failure Address :=
  match retyped around [] with
  | some (d', r) => d'.lookup r.block
  | none => d.lookup block

/-- A replacement and the block that it names, looked up where it is said. -/
def Replaces (r : Definition × Replacement) (b : Address) : Prop := r.1.lookup r.2.block = .ok b

variable {files : Files} {searched : List Route} {lib lib' made : Library} {a p root : Address}
  {parent : Option Address} {levels : Layer} {extension nesting depth : Nat} {n : String}
  {around : List (Layer × String)} {q : List String} {d : Definition}

theorem retyped_concat (around : List (Layer × String)) (levels : Layer) (n : String)
    (path : Reference) :
    retyped (around ++ [(levels, n)]) path =
      (retyped around (n :: path)).or (replacement? levels (n :: path)) := by
  induction around with
  | nil => simp [retyped]
  | cons l around ih =>
    obtain ⟨l, m⟩ := l
    simp [retyped, ih, Option.or_assoc]

/-! ### The replacements of an instance -/

def firstFor (path : Reference) (rs : List (Definition × Reference × Replacement)) :
    Option (Definition × Replacement) :=
  rs.findSome? fun r => if r.2.1 = path then some (r.1, r.2.2) else none

theorem firstFor_cons (path target : Reference) (d : Definition) (r : Replacement)
    (rs : List (Definition × Reference × Replacement)) :
    firstFor path ((d, target, r) :: rs) =
      (if target = path then some (d, r) else none).or (firstFor path rs) := by
  rw [firstFor, findSome?_cons]
  split <;> next h => simp [h, firstFor]

theorem mem_of_firstFor {path : Reference} {r : Replacement}
    (h : firstFor path rs = some (d, r)) : (d, path, r) ∈ rs := by
  obtain ⟨x, hx, hsome⟩ := exists_of_findSome?_eq_some h
  split at hsome
  · next hpath =>
      cases hsome
      rwa [← hpath]
  · cases hsome

theorem firstFor_entries (d : Definition) (es : List (Reference × Replacement)) (path : Reference) :
    firstFor path (es.map fun e => (d, e.1, e.2)) = (es.lookup path).map (d, ·) := by
  induction es with
  | nil => rfl
  | cons e es ih =>
    obtain ⟨target, r⟩ := e
    rw [firstFor, map_cons, findSome?_cons, Table.lookup_cons]
    by_cases h : target = path
    · simp [h]
    · rw [if_neg h, if_neg (by simpa using Ne.symm h)]
      exact ih

theorem firstFor_replacementsIn (levels : Layer) (path : Reference) :
    firstFor path (replacementsIn levels) = replacement? levels path := by
  induction levels with
  | nil => rfl
  | cons l levels ih =>
    rw [replacement?, findSome?_cons, ← replacement?, ← ih, replacementsIn,
      flatMap_cons, ← replacementsIn, firstFor, findSome?_append, ← firstFor,
      ← firstFor]
    cases hd : l.definition with
    | none => rfl
    | some d =>
      rw [firstFor_entries]
      rw [bind_some, Table.get?]
      cases List.lookup path d.replacements.entries <;> rfl

/-- What was made known is forgotten again. -/
theorem dropReplacements_of_asked (h : (askReplacements a rs).outcome lib = (.ok asked, lib')) :
    asked.foldl Table.erase lib'.replaced = lib.replaced := by
  induction rs generalizing lib asked with
  | nil =>
    cases h
    rfl
  | cons r rs ih =>
    rw [askReplacements, outcome_get_bind] at h
    split at h
    · exact ih h
    · next hc =>
        obtain ⟨b, -, hrest⟩ := ofExcept_bind_eq_ok.1 h
        rw [outcome_modify_bind] at hrest
        obtain ⟨more, _, hmore, hend⟩ := bind_eq_ok.1 hrest
        cases hend
        rw [foldl_cons, foldl_erase_erase, ih hmore]
        refine erase_set_of_not_mem b fun hmem => hc ?_
        exact contains_iff_mem_keys.2 hmem

/-- A replacement that was known stays, and otherwise the first one that is asked for
counts. -/
theorem replaced_of_asked (hrs : ∀ r ∈ rs, AreNames r.2.1) (hq : AreNames q)
    (h : (askReplacements a rs).outcome lib = (.ok asked, lib'))
    (hknown : Option.Rel Replaces known (lib.replaced.get? (a.addInstances q))) :
    Option.Rel Replaces (known.or (firstFor q rs)) (lib'.replaced.get? (a.addInstances q)) := by
  induction rs generalizing lib asked known with
  | nil =>
    cases h
    rwa [firstFor, findSome?_nil, or_none]
  | cons r rs ih =>
    obtain ⟨d, target, r⟩ := r
    rw [forall_mem_cons] at hrs
    rw [firstFor_cons]
    rw [askReplacements, outcome_get_bind] at h
    split at h
    · next hc =>
        by_cases ht : target = q
        · subst ht
          rw [contains_eq_isSome, isSome_iff_exists] at hc
          obtain ⟨b, hb⟩ := hc
          have hkept := ih hrs.2 h hknown
          rw [hb] at hknown
          cases hknown with
          | some hr => exact hkept
        · rw [if_neg ht, none_or]
          exact ih hrs.2 h hknown
    · next hc =>
        obtain ⟨b, hb, hrest⟩ := ofExcept_bind_eq_ok.1 h
        rw [outcome_modify_bind] at hrest
        obtain ⟨more, _, hmore, hend⟩ := bind_eq_ok.1 hrest
        cases hend
        by_cases ht : target = q
        · subst ht
          have hnone : lib.replaced.get? (a.addInstances target) = none := by
            rwa [contains_eq_isSome, Bool.not_eq_true, isSome_eq_false_iff,
              isNone_iff_eq_none] at hc
          rw [hnone] at hknown
          cases hknown
          rw [if_pos rfl, none_or]
          refine ih hrs.2 hmore ?_
          rw [get?_set_self]
          exact .some hb
        · rw [if_neg ht, none_or]
          refine ih hrs.2 hmore ?_
          dsimp only
          rwa [get?_set_of_ne _ _ fun he =>
            ht (Address.addInstances_injective hrs.1 hq he.symm)]

theorem replaced_of_unknown (hl : Layer.Sound levels) (hq : AreNames q)
    (h : (askReplacements a (replacementsIn levels)).outcome lib = (.ok asked, lib'))
    (hnone : lib.replaced.get? (a.addInstances q) = none) :
    Option.Rel Replaces (replacement? levels q) (lib'.replaced.get? (a.addInstances q)) := by
  have hknown : Option.Rel Replaces none (lib.replaced.get? (a.addInstances q)) := by
    rw [hnone]
    exact .none
  rw [← firstFor_replacementsIn]
  exact replaced_of_asked (fun r hr => (areNames_of_mem_replacementsIn hl hr).1) hq h hknown

theorem exists_asked (hrs : ∀ path d r, firstFor path rs = some (d, r) →
      lib.replaced.get? (a.addInstances path) = none → ∃ b, d.lookup r.block = .ok b) :
    ∃ asked lib', (askReplacements a rs).outcome lib = (.ok asked, lib') := by
  induction rs generalizing lib with
  | nil => exact ⟨[], lib, rfl⟩
  | cons r rs ih =>
    obtain ⟨d, target, r⟩ := r
    simp only [askReplacements, outcome_get_bind]
    split
    · next hc =>
        refine ih fun path d' r' hfirst hnone => hrs path d' r' ?_ hnone
        have hne : target ≠ path := by
          rintro rfl
          rw [contains_eq_isSome, hnone] at hc
          cases hc
        rw [firstFor_cons, if_neg hne, none_or, hfirst]
    · next hc =>
        obtain ⟨b, hb⟩ := hrs target d r (by simp [firstFor_cons]) (by
          simpa [contains_eq_isSome] using hc)
        have hmore : ∃ asked lib', (askReplacements a rs).outcome { lib with
            replaced := lib.replaced.set (a.addInstances target) b } = (.ok asked, lib') := by
          refine ih fun path d' r' hfirst hnone => ?_
          have hne : a.addInstances path ≠ a.addInstances target := by
            intro he
            simp [he] at hnone
          refine hrs path d' r' ?_ (by simpa [get?_set_of_ne _ _ hne] using hnone)
          rw [firstFor_cons, if_neg fun he => hne (by rw [he]), none_or, hfirst]
        obtain ⟨asked, lib', hasked⟩ := hmore
        rw [hb]
        refine ⟨a.addInstances target :: asked, lib', ?_⟩
        rw [outcome_ofExcept_ok_bind, outcome_modify_bind]
        exact bind_eq_ok.2 ⟨asked, lib', hasked, rfl⟩

/-! ### The replacements that are known -/

theorem steady_replaced (files : Files) (searched : List Route) (known : Table Address Address) :
    Steady (fun _ => True) fun lib => Underway files searched lib ∧ lib.replaced = known where
  layer depth x := by
    intro lib ⟨hlib, hknown⟩
    obtain ⟨hlib', hl⟩ := (stable_underway files searched).layer depth x lib hlib
    have hframe := keeps_layerWithin (I := fun lib' => lib'.replaced = known) (fun _ _ _ h => h)
      depth x lib hknown
    exact ⟨⟨hlib', hframe.1⟩, hl⟩
  place levels h _ _ := ⟨h.1.place _ _ levels, by rw [replaced_place, h.2]⟩
  override name value h _ _ := ⟨h.1.override _ name value, h.2⟩
  link pos h _ _ _ := ⟨h.1.link _ _, h.2⟩

theorem upholds_createWithin (files : Files) (searched : List Route) (extension depth : Nat)
    (parent : Option Address) (a : Address) (hl : Layer.Sound levels)
    (known : Table Address Address) :
    Upholds (fun lib => Underway files searched lib ∧ lib.replaced = known)
      (createWithin extension depth parent a levels) := by
  induction depth generalizing parent a levels known with
  | zero => exact (Keeps.throw (P := fun _ => True) _).upholds
  | succ depth ih =>
    intro lib _ lib' ⟨hlib, hknown⟩ h
    obtain ⟨asked, lib₁, lib₂, hask, hvisits, rfl⟩ := createWithin_eq_ok h
    have hlib₁ := ((stable_underway files searched).keeps_askReplacements trivial fun r hr =>
      (areNames_of_mem_replacementsIn hl hr).1).state (hlib.place parent a levels) hask
    have hstatement : ∀ v ∈ levels, ∀ d, v.definition = some d → ∀ s ∈ simplesOf d.body,
        Upholds (fun lib => Underway files searched lib ∧ lib.replaced = lib₁.replaced)
          (statement extension (createWithin extension depth (some a)) a d s) :=
      fun v hv d hd s hs => (steady_replaced files searched _).upholds_statement trivial
        ((hl v hv d hd).statements s hs) fun n l _ hl' => ih _ _ hl' _
    obtain ⟨hlib₂, hknown₂⟩ := Upholds.forM (fun v hv =>
      upholds_visit (hstatement v (mem_reverse.1 hv))) lib₁ _ lib₂ ⟨hlib₁, rfl⟩ hvisits
    refine ⟨hlib₂.replace _, ?_⟩
    rw [dropReplacements, hknown₂, dropReplacements_of_asked hask, replaced_place, hknown]

/-- While an instance is made, the replacements that are known of what is below it are those
of the instances around it and its own. -/
theorem Turn.replaced {s : Simple} (h : Turn extension depth parent p levels lib d s lib')
    (hok : (createWithin extension (depth + 1) parent p levels).outcome lib = (.ok (), made))
    (hlib : Underway files searched lib) (hl : Layer.Sound levels) (hq : AreNames q)
    (hknown : Option.Rel Replaces known (lib.replaced.get? (p.addInstances q))) :
    Option.Rel Replaces (known.or (replacement? levels q))
      (lib'.replaced.get? (p.addInstances q)) := by
  refine (h.statement_eq_ok (I := fun m => Underway files searched m ∧ Option.Rel Replaces
    (known.or (replacement? levels q)) (m.replaced.get? (p.addInstances q))) hok ?_ ?_).1.2
  · intro asked lib₁ hask
    refine ⟨((stable_underway files searched).keeps_askReplacements trivial fun r hr =>
      (areNames_of_mem_replacementsIn hl hr).1).state (hlib.place parent p levels) hask, ?_⟩
    rw [← firstFor_replacementsIn]
    refine replaced_of_asked (fun r hr => (areNames_of_mem_replacementsIn hl hr).1) hq hask ?_
    rwa [replaced_place]
  · intro v hv d hd s hs lib₁ _ lib₂ ⟨hlib₁, hrel⟩ hout
    have hI := steady_replaced files searched lib₁.replaced
    obtain ⟨hlib₂, hsame⟩ := hI.upholds_statement trivial ((hl v hv d hd).statements s hs)
      (fun n l _ hl' => upholds_createWithin files searched extension depth (some p) _ hl' _)
      lib₁ _ lib₂ ⟨hlib₁, rfl⟩ hout
    exact ⟨hlib₂, hsame ▸ hrel⟩

/-- When an instance comes to be made, the replacements that are known of what is below it are
those of the instances around it, of which the outermost one counts. -/
theorem Making.replaced
    (h : Making extension nesting root { files, searched } depth around parent p levels lib)
    (hok : (treeWithin extension nesting root).outcome { files, searched } = (.ok (), made))
    (hq : AreNames q) (hne : q ≠ []) :
    Option.Rel Replaces (retyped around q) (lib.replaced.get? (p.addInstances q)) := by
  induction h generalizing q with
  | @root levels lib h =>
    have hframe := (keeps_layerWithin (I := fun lib => lib.replaced = ∅) (fun _ _ _ h => h)
      extension root).state rfl h
    rw [hframe]
    exact .none
  | @child depth around parent p levels l lib lib₁ lib₂ d target block mark word n h hs hn hl ih =>
    obtain ⟨hlib, hsound⟩ := h.underway (.start .fresh)
    obtain ⟨made', hmade'⟩ := h.createWithin_eq_ok hok
    have hname : IsName n := hs.sound hsound n (by simp [hn])
    have hnq : AreNames (n :: q) := areNames_cons.2 ⟨hname, hq⟩
    have hframe := (keeps_chosen (fun x => keeps_layerWithin
      (I := fun lib => lib.replaced = lib₁.replaced) (fun _ _ _ h => h) extension x)
      d target.head.pos (p.addInstance n) block.names).state rfl hl
    rw [retyped_concat, hframe, ← Address.addInstances_cons]
    exact hs.replaced hmade' hlib hsound hnq (ih hnq (by simp))

theorem newBlock_eq_retypedBlock
    (h : Option.Rel Replaces (retyped around []) (lib.replaced.get? a)) (d : Definition)
    (block : Reference) : lib.newBlock d a block = retypedBlock around d block := by
  unfold newBlock retypedBlock
  generalize retyped around [] = found at h
  generalize lib.replaced.get? a = known at h
  cases h with
  | none => rfl
  | some hr => exact hr.symm

/-- If the tree of a root can be made in a fresh library, then each `new` statement whose turn
comes makes an instance of the block that the first replacement names which is found in the
instances from the root down to the one that the statement is for, or else of the block that
the statement names. -/
theorem new_of_retypedBlock {lib₁ : Library} {d : Definition} {target block : Path}
    {mark word : Token}
    (htree : (treeWithin extension nesting root).outcome { files, searched } = (.ok (), made))
    (hp : Making extension nesting root { files, searched } (depth + 1) around parent p levels lib)
    (hs : Turn extension depth parent p levels lib d (.assign target mark (.new word block)) lib₁) :
    ∃ n x l lib₂ lib₃, target.names = [n] ∧
      retypedBlock (around ++ [(levels, n)]) d block.names = .ok x ∧
      IsLayer files searched x l ∧
      Making extension nesting root { files, searched } depth (around ++ [(levels, n)]) (some p)
        (p.addInstance n) l lib₂ ∧
      (createWithin extension depth (some p) (p.addInstance n) l).outcome lib₂ = (.ok (), lib₃) ∧
      (statement extension (createWithin extension depth (some p)) p d
        (.assign target mark (.new word block))).outcome lib₁ = (.ok (), lib₃) ∧
      (lib₃.instances.get? (p.addInstance n)).map Instance.levels = some l := by
  obtain ⟨hlib, hsound⟩ := hp.underway (.start .fresh)
  obtain ⟨made', hmade'⟩ := hp.createWithin_eq_ok htree
  obtain ⟨n, l, lib₂, lib₃, hn, hl, hcreate, hstatement⟩ := hs.new_eq_ok hmade'
  obtain ⟨x, hx, hlayer⟩ := chosen_eq_ok.1 hl
  have hname : AreNames [n] := areNames_singleton.2 (hs.sound hsound n (by simp [hn]))
  have hrel := hs.replaced hmade' hlib hsound hname (hp.replaced htree hname (by simp))
  rw [← retyped_concat] at hrel
  have hsettled := (hs.underway hlib hsound).settled
  have hkeep := Settled.keeps_layerWithin files searched extension x
  have hIs := hkeep.result hsettled hlayer
  refine ⟨n, x, l, lib₂, lib₃, hn, ?_, hIs, hp.child hs hn hl, hcreate, hstatement, ?_⟩
  · exact (newBlock_eq_retypedBlock hrel d block.names).symm.trans hx
  · exact levels_of_createWithin (hkeep.state hsettled hlayer) hIs.sound hcreate

/-- A module with a child, which the module around it replaces. -/
def outerSwap : Files where
  texts := ⟨[(["f"], "module B: signal y\nmodule P: n = new MODULE\n" ++
    "module M: p = new P; p.n -> B\n")]⟩

def foundLayer (files : Files) (a : Address) : Layer :=
  ((layerWithin 2 a).outcome { files }).1.toOption.getD []

theorem outcome_foundLayer {files : Files} {a : Address} {v : Level} (hv : v ∈ foundLayer files a) :
    (layerWithin 2 a).outcome { files } =
      (.ok (foundLayer files a), ((layerWithin 2 a).outcome { files }).2) := by
  unfold foundLayer at hv ⊢
  rcases hout : (layerWithin 2 a).outcome { files } with ⟨e | l, lib⟩
  · rw [hout] at hv
    exact absurd hv not_mem_nil
  · rfl

/-- A `new` statement of a layer that makes an instance of the block `x`. -/
def makesNew (around : List (Layer × String)) (levels : Layer) (n : String) (x : Address) : Bool :=
  levels.any fun v => v.definition.any fun d => (simplesOf d.body).any fun
    | .assign target _ (.new _ block) => target.names == [n] &&
        (retypedBlock (around ++ [(levels, n)]) d block.names).toOption == some x
    | _ => false

theorem exists_of_makesNew {around : List (Layer × String)} {levels : Layer} {n : String}
    {x : Address} (h : makesNew around levels n x = true) :
    ∃ v ∈ levels, ∃ d, v.definition = some d ∧ ∃ target mark word block,
      .assign target mark (.new word block) ∈ simplesOf d.body ∧ target.names = [n] ∧
        (retypedBlock (around ++ [(levels, n)]) d block.names).toOption = some x := by
  obtain ⟨v, hv, hd⟩ := any_eq_true.1 h
  obtain ⟨d, hd, hs⟩ := (any_eq_true _ _).1 hd
  obtain ⟨s, hs, hnew⟩ := any_eq_true.1 hs
  split at hnew
  · simp only [Bool.and_eq_true, beq_iff_eq] at hnew
    exact ⟨v, hv, d, hd, _, _, _, _, hs, hnew⟩
  · cases hnew

/-- The child of the inner module is made of the block that the outer one names. -/
theorem new_of_retypedBlock_outer :
    ∃ made levels lib d target mark word block lib₁ l lib₃,
      (treeWithin 2 3 ⟨"f:M"⟩).outcome { files := outerSwap } = (.ok (), made) ∧
      Making 2 3 ⟨"f:M"⟩ { files := outerSwap } 2 [(foundLayer outerSwap ⟨"f:M"⟩, "p")]
        (some ⟨"f:M"⟩) (Address.addInstance ⟨"f:M"⟩ "p") levels lib ∧
      Turn 2 1 (some ⟨"f:M"⟩) (Address.addInstance ⟨"f:M"⟩ "p") levels lib d
        (.assign target mark (.new word block)) lib₁ ∧
      IsLayer outerSwap [] ⟨"f:B"⟩ l ∧
      (statement 2 (createWithin 2 1 (some (Address.addInstance ⟨"f:M"⟩ "p")))
        (Address.addInstance ⟨"f:M"⟩ "p") d (.assign target mark (.new word block))).outcome lib₁ =
        (.ok (), lib₃) ∧
      (lib₃.instances.get? ((Address.addInstance ⟨"f:M"⟩ "p").addInstance "n")).map
        Instance.levels = some l := by
  have htree := Work.outcome_eq_ok_of_toOption (w := treeWithin 2 3 ⟨"f:M"⟩)
    (s := { files := outerSwap }) (x := ()) (by decide +kernel)
  -- the instance `p`, which is made of `P`
  obtain ⟨v, hv, d, hd, target, mark, word, block, hs, hn, hx⟩ := exists_of_makesNew
    (show makesNew [] (foundLayer outerSwap ⟨"f:M"⟩) "p" ⟨"f:P"⟩ = true by decide +kernel)
  have hroot : Making 2 3 ⟨"f:M"⟩ { files := outerSwap } 3 [] none ⟨"f:M"⟩
      (foundLayer outerSwap ⟨"f:M"⟩) _ := .root (outcome_foundLayer hv)
  obtain ⟨made, hmade⟩ := hroot.createWithin_eq_ok htree
  obtain ⟨lib₁, hturn⟩ := Turn.exists_of_mem hmade hv hd hs
  obtain ⟨n, x, l, lib₂, -, hn', hx', hl, hp, -⟩ := new_of_retypedBlock htree hroot hturn
  cases hn'.symm.trans hn
  rw [hx'] at hx
  cases hx
  -- its child `n`
  obtain ⟨v, hv, d, hd, target, mark, word, block, hs, hn, hx⟩ := exists_of_makesNew
    (show makesNew [(foundLayer outerSwap ⟨"f:M"⟩, "p")] (foundLayer outerSwap ⟨"f:P"⟩) "n"
      ⟨"f:B"⟩ = true by decide +kernel)
  have hlP := hl.unique ((Settled.keeps_layerWithin outerSwap [] 2 ⟨"f:P"⟩).result settled_fresh
    (outcome_foundLayer hv))
  rw [hlP, List.nil_append] at hp
  obtain ⟨made, hmade⟩ := hp.createWithin_eq_ok htree
  obtain ⟨lib₁, hturn⟩ := Turn.exists_of_mem hmade hv hd hs
  obtain ⟨n, x, l, -, lib₃, hn', hx', hl, -, -, hstatement, hlevels⟩ :=
    new_of_retypedBlock htree hp hturn
  cases hn'.symm.trans hn
  rw [hx'] at hx
  cases hx
  exact ⟨_, _, _, d, target, mark, word, block, lib₁, l, lib₃, htree, hp, hturn, hl, hstatement,
    hlevels⟩

end Library

end Boardwright
