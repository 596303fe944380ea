import Boardwright.Proofs.Design.Walk

/-!
# Where the attributes of an instance come from

An attribute of an instance is given by a statement of the outermost instance around it that has
one for it, or else of the next one further in, and so on down to the instance itself: `assigned`
reads this off the layers of the instances on the way. If the tree of a root can be made in a
fresh library, and no instance makes two children of one name, these are the attributes that the
instances of the tree have: `dataOf_assigned`.

What a statement does is a sequence of steps, and a property that `Advances` is kept by each of
them. While an instance is made, `Filling` is such a property. It says which children the
statements so far have made, and which attributes of instances below they have set. A child is
complete with all that is below it before the next statement comes, so what a statement sets counts
before what was set further in.
-/

namespace Boardwright

open Syntax List Table Work Option

variable {create : Address → Layer → Work Library Unit} {d : Definition}

theorem Syntax.Path.names_eq_concat {p : Path} (h : p.tail ≠ []) :
    ∃ n q key, p.names = n :: q ++ [key] := by
  obtain ⟨head, tail⟩ := p
  obtain ⟨q, x, rfl⟩ := (eq_nil_or_concat' tail).resolve_left h
  exact ⟨head.text, q.map fun x => x.2.text, x.2.text, by simp [Path.names]⟩

namespace Library

variable {files : Files} {searched : List Route} {lib lib' : Library} {a k p x : Address}
  {n : String} {q ms path : List String} {levels l : Layer} {i : Instance} {extension depth : Nat}
  {given : List String → String → Option Value} {parent : Option Address}

def levelsAt (lib : Library) (k : Address) : Layer :=
  ((lib.instances.get? k).map Instance.levels).getD []

/-- The value that statements give to an attribute of the instance at the end of a path: those of
the instance that the path starts from count first. -/
def assigned (lib : Library) (key : String) : Address → List String → Option Value
  | a, [] => (lib.levelsAt a).sets [] key
  | a, n :: q => ((lib.levelsAt a).sets (n :: q) key).or (lib.assigned key (a.addInstance n) q)

/-- No instance below an address makes two children of one name, so that no address is given to
two instances, one after the other. -/
def Tidy (lib : Library) (a : Address) : Prop := ∀ k, a.Below k → (lib.levelsAt k).makes.Nodup

/-! ### What depends on levels only -/

theorem levelsAt_of_get? (h : lib.instances.get? k = some i) : lib.levelsAt k = i.levels := by
  rw [levelsAt, h]
  rfl

theorem levelsAt_congr (h : lib'.instances.get? k = lib.instances.get? k) :
    lib'.levelsAt k = lib.levelsAt k := by
  rw [levelsAt, levelsAt, h]

theorem levelsAt_modify {f : Instance → Instance} (hf : ∀ i, (f i).levels = i.levels)
    (lib : Library) (p k : Address) :
    levelsAt { lib with instances := lib.instances.modify p f } k = lib.levelsAt k := by
  rw [levelsAt, levels_get?_modify hf]
  rfl

theorem levelsAt_place (lib : Library) (parent : Option Address) (a : Address) (i : Instance) :
    (lib.place parent a i).levelsAt a = i.levels := by
  rw [levelsAt, levels_get?_place, get?_set_self]
  rfl

theorem assigned_congr (h : ∀ k, a.Below k → lib'.levelsAt k = lib.levelsAt k) (hq : AreNames q)
    (key : String) : lib'.assigned key a q = lib.assigned key a q := by
  induction q generalizing a with
  | nil => rw [assigned, assigned, h a (.refl a)]
  | cons n q ih =>
    rw [areNames_cons] at hq
    rw [assigned, assigned, h a (.refl a), ih (fun k hk => ?_) hq.2]
    obtain ⟨p, hp, rfl⟩ := hk
    exact h _ ⟨n :: p, areNames_cons.2 ⟨hq.1, hp⟩, rfl⟩

theorem Tidy.congr (h : lib.Tidy a) (hsame : ∀ k, a.Below k → lib'.levelsAt k = lib.levelsAt k) :
    lib'.Tidy a := by
  intro k hk
  rw [hsame k hk]
  exact h k hk

theorem Tidy.child (h : lib.Tidy a) (hn : IsName n) : lib.Tidy (a.addInstance n) := by
  rintro k ⟨q, hq, rfl⟩
  exact h _ ⟨n :: q, areNames_cons.2 ⟨hn, hq⟩, rfl⟩

theorem tidy_of_keys (h : ∀ k ∈ lib.instances.keys, (lib.levelsAt k).makes.Nodup) (a : Address) :
    lib.Tidy a := by
  intro k _
  cases hk : lib.instances.get? k with
  | none =>
    rw [levelsAt, hk]
    exact nodup_nil
  | some i => exact h k (mem_keys_of_get? hk)

/-! ### What statements do -/

/-- A property of the instance `a` that is kept if an attribute of an instance that stands below is
set, or two instances that stand are linked. It is about the names `ms` of the children that were
made and about the attributes that were `given` to instances below. -/
structure Bears (a : Address)
    (F : List String → (List String → String → Option Value) → Library → Prop) : Prop where
  set : ∀ {ms given lib n q i}, F ms given lib → AreNames (n :: q) →
    lib.instances.get? (a.addInstances (n :: q)) = some i → ∀ key v,
    F ms (fun p k => (if n :: q ++ [key] = p ++ [k] then some v else none).or (given p k))
      { lib with instances := lib.instances.modify (a.addInstances (n :: q)) fun i =>
        { i with override := i.override.set key v } }
  link : ∀ {ms given lib source target i j}, F ms given lib → a.Below source → a.Below target →
    lib.instances.get? source = some i → lib.instances.get? target = some j → ∀ pos,
    F ms given { lib with instances := lib.instances.modify a fun i =>
      { i with links := i.links ++ [⟨source, target, pos⟩] } }
  /-- Attributes of the instance itself are not given by way of others. -/
  regive : ∀ {ms given given' lib}, F ms given lib →
    (∀ n q key, given' (n :: q) key = given (n :: q) key) → F ms given' lib

/-- A property that each step of a statement for the instance `a` keeps: also one that makes a child
of a layer, or places a pin or a signal. -/
structure Advances (extension : Nat) (create : Address → Layer → Work Library Unit) (a : Address)
    (F : List String → (List String → String → Option Value) → Library → Prop) : Prop
    extends Bears a F where
  child : ∀ {ms given lib lib₁ lib' n x l}, F ms given lib → IsName n →
    (layerWithin extension x).outcome lib = (.ok l, lib₁) →
    (create (a.addInstance n) l).outcome lib₁ = (.ok (), lib') → F (ms ++ [n]) given lib'
  leaf : ∀ {ms given lib n}, F ms given lib → IsName n → ∀ b : Builtin,
    F (ms ++ [n]) given (lib.place (some a) (a.addInstance n) ⟨b.layer, ∅, [], []⟩)

namespace Advances

variable {F : List String → (List String → String → Option Value) → Library → Prop}

section

variable (hF : Advances extension create a F) (h : F ms given lib)

include hF h

/-- One side of a connection makes the children that it names. -/
theorem side {c : Connectable} (hc : c.Sound) {file : String}
    (hok : (Library.side file a c).outcome lib = (.ok x, lib')) :
    F (ms ++ c.makes file) given lib' ∧ a.Below x := by
  cases c with
  | path p =>
    cases hok
    exact ⟨by simpa [Connectable.makes] using h, p.names, hc, rfl⟩
  | numbered p dot number =>
    obtain ⟨m, hread, hm⟩ := ofExcept_bind_eq_ok.1 hok
    cases hm
    exact ⟨by simpa [Connectable.makes] using h, _, areNames_append.2
      ⟨hc, areNames_singleton.2 (Token.holds_of_integer .names hread)⟩, rfl⟩
  | signal s =>
    cases hok
    exact ⟨hF.leaf h hc .signal, [_], areNames_singleton.2 hc, rfl⟩
  | pin p =>
    obtain ⟨m, hread, hm⟩ := ofExcept_bind_eq_ok.1 hok
    cases hm
    have hname := PinDef.holds_of_read hc hread
    rw [Connectable.makes, hread]
    exact ⟨hF.leaf h hname .pin, [m], areNames_singleton.2 hname, rfl⟩

theorem setAttribute {target : Path} {r : Except Failure Value} (ht : AreNames target.names)
    (hok : (Library.setAttribute a d target r).outcome lib = (.ok (), lib')) :
    F ms (fun q key => (if target.names = q ++ [key] then r.toOption else none).or (given q key))
      lib' := by
  unfold Library.setAttribute at hok
  split at hok
  · next htail =>
      cases hok
      refine hF.regive h fun n q key => ?_
      simp [Path.names, List.isEmpty_iff.1 htail]
  · next htail =>
      obtain ⟨v, rfl, hset⟩ := ofExcept_bind_eq_ok.1 hok
      obtain ⟨_, lib₁, hpresent, hdone⟩ := bind_eq_ok.1 hset
      obtain ⟨rfl, i, hi⟩ := present_eq_ok.1 hpresent
      cases hdone
      obtain ⟨n, q, key, hnames⟩ := Path.names_eq_concat (by simpa using htail)
      rw [hnames] at ht hi ⊢
      rw [dropLast_concat] at hi ⊢
      rw [getLastD_concat]
      exact hF.set h (areNames_append.1 ht).1 hi key v

theorem statement {s : Simple} (hs : s.Sound)
    (hok : (Library.statement extension create a d s).outcome lib = (.ok (), lib')) :
    F (ms ++ s.makes d.path) (fun q key => (s.sets d.path q key).or (given q key)) lib' := by
  cases s with
  | assign target mark value =>
    cases value with
    | new word block =>
      unfold Library.statement at hok
      dsimp only at hok
      split at hok
      · next name hname =>
          obtain ⟨l, lib₁, hl, hmake⟩ := bind_eq_ok.1 hok
          obtain ⟨x, -, hlayer⟩ := chosen_eq_ok.1 hl
          rw [Simple.makes, hname]
          exact hF.child h (hs name (by simp [hname])) hlayer hmake
      · cases hok
    | _ =>
      rw [statement_value (by simp)] at hok
      simpa [Simple.makes, Simple.sets] using hF.setAttribute h hs hok
  | connect left mark right =>
    obtain ⟨source, lib₁, hleft, hrest⟩ := bind_eq_ok.1 hok
    obtain ⟨target, lib₂, hright, hlink⟩ := bind_eq_ok.1 hrest
    obtain ⟨_, lib₃, hx, hlink'⟩ := bind_eq_ok.1 hlink
    obtain ⟨_, lib₄, hy, hdone⟩ := bind_eq_ok.1 hlink'
    obtain ⟨rfl, i, hi⟩ := present_eq_ok.1 hx
    obtain ⟨rfl, j, hj⟩ := present_eq_ok.1 hy
    cases hdone
    obtain ⟨hleft, hsource⟩ := hF.side h hs.1 hleft
    obtain ⟨hboth, htarget⟩ := hF.side hleft hs.2 hright
    rw [append_assoc] at hboth
    exact hF.link hboth hsource htarget hi hj _
  | pin p =>
    obtain ⟨m, hread, hok⟩ := ofExcept_bind_eq_ok.1 hok
    cases hok
    rw [Simple.makes, hread]
    exact hF.leaf h (PinDef.holds_of_read hs hread) .pin
  | signal t =>
    cases hok
    exact hF.leaf h hs .signal
  | _ =>
    cases hok
    simpa [Simple.makes, Simple.sets] using h

theorem statements {ss : List Simple} (hss : ∀ s ∈ ss, s.Sound)
    (hok : (ss.forM (Library.statement extension create a d)).outcome lib = (.ok (), lib')) :
    F (ms ++ ss.flatMap (·.makes d.path))
      (fun q key => (ss.filterMap (·.sets d.path q key)).getLast?.or (given q key)) lib' := by
  induction ss generalizing lib ms given with
  | nil =>
    cases hok
    simpa using h
  | cons s ss ih =>
    rw [forall_mem_cons] at hss
    obtain ⟨lib₁, hs, hrest⟩ := forM_cons_ok.1 hok
    have hdone := ih (hF.statement h hss.1 hs) hss.2 hrest
    rw [append_assoc, ← flatMap_cons] at hdone
    refine hF.regive hdone fun n q key => ?_
    rw [← Option.or_assoc]
    congr 1
    cases hv : s.sets d.path (n :: q) key with
    | none => simp [hv]
    | some v => simp [hv, getLast?_cons]

end

section

variable (hF : Advances extension (createWithin extension depth (some a)) a F)

include hF

/-- Levels are gone through from the last to the first, so the first one counts. -/
theorem visits (h : F ms given lib) {vs : List Level}
    (hvs : ∀ v ∈ vs, ∀ d, v.definition = some d → d.Sound)
    (hok : (vs.forM (visit extension (createWithin extension depth (some a)) a)).outcome lib =
      (.ok (), lib')) :
    F (ms ++ vs.flatMap Level.makes)
      (fun q key => (vs.reverse.findSome? (·.sets q key)).or (given q key)) lib' := by
  induction vs generalizing lib ms given with
  | nil =>
    cases hok
    simpa using h
  | cons v vs ih =>
    rw [forall_mem_cons] at hvs
    obtain ⟨lib₁, hv, hrest⟩ := forM_cons_ok.1 hok
    have hlevel : F (ms ++ v.makes) (fun q key => (v.sets q key).or (given q key)) lib₁ := by
      cases hd : v.definition with
      | none =>
        unfold visit at hv
        rw [hd] at hv
        cases hv
        simpa [Level.makes, Level.sets, hd] using h
      | some d =>
        rw [visit_eq_ok _ hd] at hv
        simpa [Level.makes, Level.sets, Definition.makes, Definition.sets, hd] using
          hF.statements h (hvs.1 d hd).statements hv
    have hdone := ih hlevel hvs.2 hrest
    rw [append_assoc, ← flatMap_cons] at hdone
    refine hF.regive hdone fun n q key => ?_
    rw [reverse_cons, findSome?_append, findSome?_singleton, Option.or_assoc]

/-- An instance that was made has gone through the steps of its layer. -/
theorem of_createWithin (hl : Layer.Sound levels)
    (hplaced : ∀ replaced, F [] (fun _ _ => none)
      { lib.place parent a ⟨levels, ∅, [], []⟩ with replaced })
    (h : (createWithin extension (depth + 1) parent a levels).outcome lib = (.ok (), lib')) :
    ∃ lib₁, F levels.makes levels.sets lib₁ ∧ lib'.instances = lib₁.instances := by
  obtain ⟨asked, lib₁, lib₂, hask, hvisits, rfl⟩ := createWithin_eq_ok h
  have hasked := hplaced lib₁.replaced
  rw [← frame_askReplacements hask] at hasked
  have hdone := hF.visits hasked (fun v hv => hl v (mem_reverse.1 hv)) hvisits
  refine ⟨lib₂, hF.regive hdone fun n q key => ?_, rfl⟩
  rw [reverse_reverse, or_none, Layer.sets]

end

end Advances

/-! ### An instance that is being made -/

/-- Nothing stands under an address or below it. -/
def Clear (lib : Library) (a : Address) : Prop := ∀ k, a.Below k → lib.instances.get? k = none

theorem get?_place_self (lib : Library) (parent : Option Address) (i : Instance)
    (hparent : parent ≠ some a) : (lib.place parent a i).instances.get? a = some i := by
  cases parent with
  | none => exact get?_set_self _ _ _
  | some p =>
    have hne : a ≠ p := fun h => hparent (congrArg some h.symm)
    exact (get?_modify_of_ne _ _ hne).trans (get?_set_self _ _ _)

theorem get?_place_of_ne (lib : Library) (parent : Option Address) (i : Instance) (hka : k ≠ a)
    (hparent : parent ≠ some k) :
    (lib.place parent a i).instances.get? k = lib.instances.get? k := by
  cases parent with
  | none => exact get?_set_of_ne _ _ hka
  | some p =>
    have hne : k ≠ p := fun h => hparent (congrArg some h.symm)
    exact (get?_modify_of_ne _ _ hne).trans (get?_set_of_ne _ _ hka)

theorem get?_place_parent {c : Address} (lib : Library) (j : Instance) (hca : a ≠ c)
    (hi : lib.instances.get? a = some i) :
    ∃ ns, (lib.place (some a) c j).instances.get? a = some { i with children := ns } := by
  refine ⟨withChild c.name i.children, ?_⟩
  rw [get?_place _ hca.symm, if_pos rfl, hi]
  rfl

/-- What stands below other children stays as it is while a child is made. -/
theorem get?_below_other {m : String} (hm : IsName m) (hn : IsName n) (hmn : m ≠ n)
    (hsame : SameElsewhere (a.addInstance n).Below lib' (lib.place (some a) (a.addInstance n) i))
    (hk : (a.addInstance m).Below k) : lib'.instances.get? k = lib.instances.get? k := by
  have hk' : ¬(a.addInstance n).Below k := fun h => hmn (hk.name_eq hm hn h)
  have hne : k ≠ a.addInstance n := fun h => hk' (h ▸ .refl _)
  rw [hsame.instances k hk']
  exact get?_place_of_ne _ _ _ hne fun h => hk.ne_of_child (Option.some.inj h).symm

/-- Nothing stands below an instance that is not below one of the children `ms`. -/
def Makes (lib : Library) (a : Address) (ms : List String) : Prop :=
  ∀ n q i, AreNames (n :: q) → lib.instances.get? (a.addInstances (n :: q)) = some i → n ∈ ms

/-- Nothing stands below a child that is still to be made. -/
theorem Makes.clear (h : lib.Makes a ms) (hn : IsName n) (hnew : n ∉ ms) :
    lib.Clear (a.addInstance n) := by
  rintro k ⟨q, hq, rfl⟩
  rw [eq_none_iff_forall_ne_some]
  exact fun i hi => hnew (h n q i (areNames_cons.2 ⟨hn, hq⟩) hi)

theorem Makes.place (hparent : ∀ k, a.Below k → parent ≠ some k)
    (hclear : lib.Clear a) (i : Instance) : (lib.place parent a i).Makes a [] := by
  intro n q j hq hj
  have hbelow : a.Below (a.addInstances (n :: q)) := ⟨n :: q, hq, rfl⟩
  have hne : a.addInstances (n :: q) ≠ a :=
    Address.Below.ne_of_child ⟨q, (areNames_cons.1 hq).2, rfl⟩
  rw [get?_place_of_ne _ _ _ hne (hparent _ hbelow), hclear _ hbelow] at hj
  cases hj

theorem Makes.child (h : lib.Makes a ms) (hn : IsName n)
    (hsame : SameElsewhere (a.addInstance n).Below lib' (lib.place (some a) (a.addInstance n) i)) :
    lib'.Makes a (ms ++ [n]) := by
  intro m q j hq hj
  by_cases hmn : m = n
  · simp [hmn]
  · have hm := areNames_cons.1 hq
    rw [Address.addInstances_cons, get?_below_other hm.1 hn hmn hsame ⟨q, hm.2, rfl⟩] at hj
    exact mem_append_left _ (h m q j hq hj)

/-- A property `F` of an instance that is being made, and a property `R` that it comes to once all
statements are done. What is made of a child by its own tree is what `R` says of it. -/
structure Completes (files : Files) (searched : List Route)
    (F : Address → List String → (List String → String → Option Value) → Library → Prop)
    (R : Library → Address → Prop) : Prop where
  bears : ∀ a, Bears a (F a)
  settled : ∀ {a ms given lib}, F a ms given lib → Settled files searched lib
  congr : ∀ {a ms given lib lib'}, F a ms given lib → Settled files searched lib' →
    lib'.instances = lib.instances → F a ms given lib'
  place : ∀ {lib : Library} {a levels parent}, (∀ k, a.Below k → parent ≠ some k) →
    Settled files searched lib → lib.Clear a → levels.Proper →
    F a [] (fun _ _ => none) (lib.place parent a ⟨levels, ∅, [], []⟩)
  child : ∀ {a ms given lib lib' n l}, F a ms given lib → IsName n → Settled files searched lib' →
    SameElsewhere (a.addInstance n).Below lib'
      (lib.place (some a) (a.addInstance n) ⟨l, ∅, [], []⟩) →
    (lib.Clear (a.addInstance n) → R lib' (a.addInstance n)) → F a (ms ++ [n]) given lib'
  finish : ∀ {a ms given lib}, F a ms given lib → ms = (lib.levelsAt a).makes →
    (∀ n q key, given (n :: q) key = (lib.levelsAt a).sets (n :: q) key) → R lib a

namespace Completes

variable {F : Address → List String → (List String → String → Option Value) → Library → Prop}
  {R : Library → Address → Prop} (hF : Completes files searched F R)

include hF

theorem advances (hcreate : ∀ ⦃lib lib' n x l⦄, Settled files searched lib → IsName n →
      IsLayer files searched x l → lib.Clear (a.addInstance n) →
      (createWithin extension depth (some a) (a.addInstance n) l).outcome lib = (.ok (), lib') →
      R lib' (a.addInstance n)) :
    Advances extension (createWithin extension depth (some a)) a (F a) where
  toBears := hF.bears a
  child h hn hlayer hmake := by
    have hkeep := Settled.keeps_layerWithin files searched extension
    have hl := (hkeep _).result (hF.settled h) hlayer
    have hs := (hkeep _).state (hF.settled h) hlayer
    obtain ⟨hs', hsame⟩ := sameElsewhere_createWithin hs hl.sound hmake
    exact hF.child (hF.congr h hs (frame_layerWithin hlayer).1) hn hs' hsame fun hclear =>
      hcreate hs hn hl hclear hmake
  leaf h hn b := by
    have hs := hF.settled h
    refine hF.child h hn (hs.place _ _ _) (.refl _ _) fun hclear => ?_
    refine hF.finish (hF.place (fun k hk hp => hk.ne_of_child (Option.some.inj hp).symm) hs hclear
      b.proper_layer) ?_ fun m q key => ?_
    · rw [levelsAt_place, b.makes_layer]
    · rw [levelsAt_place, b.sets_layer]

/-- Where nothing stood before, an instance that has been made is complete. -/
theorem of_createWithin (hparent : ∀ k, a.Below k → parent ≠ some k)
    (hs : Settled files searched lib) (hl : IsLayer files searched x levels) (hclear : lib.Clear a)
    (h : (createWithin extension depth parent a levels).outcome lib = (.ok (), lib')) :
    R lib' a := by
  induction depth generalizing a levels lib lib' parent x with
  | zero => cases h
  | succ depth ih =>
    have hlevels : lib'.levelsAt a = levels := by
      rw [levelsAt, levels_of_createWithin hs hl.sound h]
      rfl
    have hs' := (sameElsewhere_createWithin hs hl.sound h).1
    have hplaced := hF.place hparent hs hclear hl.proper
    obtain ⟨lib₁, hdone, hsame⟩ := (hF.advances fun lib lib' n x l hs hn hl hclear hmake =>
      ih (fun k hk hp => hk.ne_of_child (Option.some.inj hp).symm) hs hl hclear
        hmake).of_createWithin hl.sound
        (fun replaced => hF.congr hplaced ((hF.settled hplaced).congr _ _) rfl) h
    refine hF.finish (hF.congr hdone hs' hsame) ?_ fun n q key => ?_
    · rw [hlevels]
    · rw [hlevels]

/-- A tree that is made in a fresh library is complete. -/
theorem of_treeWithin {nesting : Nat} {root : Address} {made : Library}
    (hmade : (treeWithin extension nesting root).outcome { files, searched } = (.ok (), made)) :
    R made root := by
  obtain ⟨hc, -⟩ | ⟨-, levels, lib, hl, hcreate⟩ := treeWithin_eq_ok hmade
  · cases hc
  have hkeep := Settled.keeps_layerWithin files searched extension root
  refine hF.of_createWithin (by simp) (hkeep.state settled_fresh hl)
    (hkeep.result settled_fresh hl) (fun k _ => ?_) hcreate
  rw [(frame_layerWithin hl).1]
  rfl

end Completes

/-! ### Attributes that are accounted for -/

/-- The instances below an address have the attributes that statements give to them, if none of
them makes two children of one name. -/
def Accounts (lib : Library) (a : Address) : Prop :=
  lib.Tidy a → ∀ q i, AreNames q → lib.instances.get? (a.addInstances q) = some i →
    i.Proper ∧ ∀ key, i.get? key = lib.assigned key a q

/-- The instances below a child of an instance have the attributes `given` by the statements of
this instance, or else those that statements further in give to them. -/
def Holds (lib : Library) (a : Address) (given : List String → String → Option Value)
    (n : String) : Prop :=
  lib.Tidy (a.addInstance n) → ∀ q i, AreNames (n :: q) →
    lib.instances.get? (a.addInstances (n :: q)) = some i →
    i.Proper ∧ ∀ key, i.get? key = (given (n :: q) key).or (lib.assigned key (a.addInstance n) q)

theorem Holds.congr (h : lib.Holds a given n)
    (hsame : ∀ k, (a.addInstance n).Below k → lib'.instances.get? k = lib.instances.get? k) :
    lib'.Holds a given n := by
  intro htidy q i hq hi
  have hlevels := fun k hk => levelsAt_congr (hsame k hk)
  have hnames := (areNames_cons.1 hq).2
  rw [Address.addInstances_cons, hsame _ ⟨q, hnames, rfl⟩] at hi
  obtain ⟨hproper, hget⟩ := h (htidy.congr fun k hk => (hlevels k hk).symm) q i hq hi
  refine ⟨hproper, fun key => ?_⟩
  rw [hget, assigned_congr hlevels hnames]

/-- While an instance is made: the statements so far have made the children `ms`, and `given` are
the attributes that they have set. -/
structure Filling (files : Files) (searched : List Route) (lib : Library) (a : Address)
    (ms : List String) (given : List String → String → Option Value) : Prop where
  settled : Settled files searched lib
  here : ∃ i, lib.instances.get? a = some i ∧ i.Proper ∧ ∀ key, i.get? key = i.levels.sets [] key
  made : lib.Makes a ms
  given_made : ∀ n q key v, given (n :: q) key = some v → n ∈ ms
  below : ms.Nodup → ∀ n, lib.Holds a given n

theorem get?_modify_below (hpath : AreNames path) (hq : AreNames q)
    (g : Instance → Instance) (t : Table Address Instance) :
    (t.modify (a.addInstances path) g).get? (a.addInstances q) =
      (t.get? (a.addInstances q)).map (if q = path then g else id) := by
  rw [get?_modify]
  by_cases hqp : q = path
  · simp [hqp]
  · simp [hqp, addInstances_ne hpath hq hqp]

namespace Filling

section

variable (h : Filling files searched lib a ms given)

include h

/-- Once all statements are done, the attributes are those that statements give. -/
theorem accounts (hms : ms = (lib.levelsAt a).makes)
    (hgiven : ∀ n q key, given (n :: q) key = (lib.levelsAt a).sets (n :: q) key) :
    lib.Accounts a := by
  intro htidy q i hq hi
  cases q with
  | nil =>
    obtain ⟨j, hj, hproper, hget⟩ := h.here
    cases hj.symm.trans hi
    refine ⟨hproper, fun key => ?_⟩
    rw [hget, assigned, levelsAt_of_get? hj]
  | cons n q =>
    have hnodup : ms.Nodup := hms ▸ htidy a (.refl a)
    obtain ⟨hproper, hget⟩ := h.below hnodup n (htidy.child (areNames_cons.1 hq).1) q i hq hi
    refine ⟨hproper, fun key => ?_⟩
    rw [hget, hgiven, assigned]

theorem given_eq_none (hnew : n ∉ ms) (q : List String) (key : String) :
    given (n :: q) key = none := by
  rw [eq_none_iff_forall_ne_some]
  exact fun v hv => hnew (h.given_made n q key v hv)

theorem child (hn : IsName n) (hs : Settled files searched lib')
    (hsame : SameElsewhere (a.addInstance n).Below lib'
      (lib.place (some a) (a.addInstance n) ⟨l, ∅, [], []⟩))
    (hchild : lib.Clear (a.addInstance n) → lib'.Accounts (a.addInstance n)) :
    Filling files searched lib' a (ms ++ [n]) given := by
  refine ⟨hs, ?_, h.made.child hn hsame, fun m q key v hv => ?_, fun hms m => ?_⟩
  · obtain ⟨i, hi, hproper, hget⟩ := h.here
    obtain ⟨ns, hplaced⟩ := get?_place_parent lib ⟨l, ∅, [], []⟩
      (Address.Below.refl (a.addInstance n)).ne_of_child.symm hi
    have ha := hsame.instances a fun h => h.ne_of_child rfl
    exact ⟨_, ha.trans hplaced, ⟨hproper.levels, hproper.override⟩, hget⟩
  · exact mem_append_left _ (h.given_made m q key v hv)
  · obtain ⟨hnodup, -, hdisjoint⟩ := nodup_append.1 hms
    intro htidy q i hq hi
    have hm := areNames_cons.1 hq
    by_cases hmn : m = n
    · -- the new child: nothing was set below it yet, so it has what its own tree accounts for
      subst hmn
      have hnew : m ∉ ms := fun hmem => hdisjoint m hmem m (by simp) rfl
      obtain ⟨hproper, hget⟩ := hchild (h.made.clear hn hnew) htidy q i hm.2 hi
      refine ⟨hproper, fun key => ?_⟩
      rw [hget, h.given_eq_none hnew, none_or]
    · exact (h.below hnodup m).congr (fun k => get?_below_other hm.1 hn hmn hsame) htidy q i hq hi

/-- Attributes of the instance itself are not given by way of others. -/
theorem regive {given' : List String → String → Option Value}
    (hgiven : ∀ n q key, given' (n :: q) key = given (n :: q) key) :
    Filling files searched lib a ms given' := by
  refine ⟨h.settled, h.here, h.made, fun n q key v hv => ?_, fun hms n htidy q i hq hi => ?_⟩
  · exact h.given_made n q key v (hgiven n q key ▸ hv)
  · simp only [hgiven]
    exact h.below hms n htidy q i hq hi

/-- A change of one instance, at which attributes may be set if it is not the instance itself. -/
theorem modify (hpath : AreNames path) (hmade : ∀ n q, path = n :: q → n ∈ ms)
    {g : Instance → Instance} {value : String → Option Value}
    (hvalue : path = [] → ∀ key, value key = none) (hlevels : ∀ i, (g i).levels = i.levels)
    (hnodup : ∀ i, i.override.keys.Nodup → (g i).override.keys.Nodup)
    (hget : ∀ i key, (g i).override.get? key = (value key).or (i.override.get? key)) :
    Filling files searched { lib with instances := lib.instances.modify (a.addInstances path) g } a
      ms fun q key => if q = path then (value key).or (given q key) else given q key := by
  have hat := fun q hq => get?_modify_below (a := a) (q := q) hpath hq g lib.instances
  have hproper : ∀ i, i.Proper → (g i).Proper := by
    intro i hi
    exact ⟨hlevels i ▸ hi.levels, hnodup i hi.override⟩
  have hread : ∀ i key, (g i).get? key = (value key).or (i.get? key) := by
    intro i key
    rw [Instance.get?, Instance.get?, hget, hlevels, Option.or_assoc]
  have hsame := levelsAt_modify hlevels lib (a.addInstances path)
  refine ⟨h.settled.congr _ _, ?_, fun n q i hq hi => ?_, fun n q key v hv => ?_,
    fun hms n htidy q i hq hi => ?_⟩
  · -- the instance itself may be changed, but none of its attributes is set
    obtain ⟨i, hi, hi', hgeti⟩ := h.here
    have hnil := hat [] areNames_nil
    rw [Address.addInstances_nil, hi] at hnil
    by_cases hp : [] = path
    · rw [if_pos hp] at hnil
      refine ⟨g i, hnil, hproper i hi', fun key => ?_⟩
      rw [hread, hvalue hp.symm, none_or, hgeti, hlevels]
    · rw [if_neg hp] at hnil
      exact ⟨i, hnil, hi', hgeti⟩
  · obtain ⟨j, hj, -⟩ := map_eq_some_iff.1 ((hat _ hq).symm.trans hi)
    exact h.made n q j hq hj
  · split at hv
    · next hp => exact hmade n q hp.symm
    · exact h.given_made n q key v hv
  · obtain ⟨j, hj, rfl⟩ := map_eq_some_iff.1 ((hat _ hq).symm.trans hi)
    obtain ⟨hj', hgetj⟩ := h.below hms n (htidy.congr fun k _ => (hsame k).symm) q j hq hj
    simp only [assigned_congr (fun k _ => hsame k) (areNames_cons.1 hq).2]
    by_cases hp : n :: q = path
    · simp only [if_pos hp]
      refine ⟨hproper j hj', fun key => ?_⟩
      rw [hread, hgetj, Option.or_assoc]
    · simp only [if_neg hp]
      exact ⟨hj', hgetj⟩

theorem link (links : Instance → List Link) :
    Filling files searched { lib with instances := lib.instances.modify a fun i =>
      { i with links := links i } } a ms given :=
  (h.modify (g := fun i => { i with links := links i }) areNames_nil nofun (fun _ _ => rfl)
    (fun _ => rfl) (fun _ hi => hi) (fun _ _ => rfl)).regive fun _ _ _ => rfl

theorem set (hq : AreNames (n :: q))
    (hi : lib.instances.get? (a.addInstances (n :: q)) = some i) (key : String) (v : Value) :
    Filling files searched
      { lib with instances := lib.instances.modify (a.addInstances (n :: q)) fun i =>
        { i with override := i.override.set key v } } a ms fun p k =>
          (if n :: q ++ [key] = p ++ [k] then some v else none).or (given p k) := by
  have hget : ∀ (i : Instance) k, (i.override.set key v).get? k =
      (if k = key then some v else none).or (i.override.get? k) := by
    intro i k
    by_cases hk : k = key <;> simp [get?_set, hk]
  have hmade : ∀ m p, n :: q = m :: p → m ∈ ms := by
    intro m p hmp
    cases hmp
    exact h.made n q i hq hi
  have hset := h.modify (g := fun i => { i with override := i.override.set key v }) hq hmade nofun
    (fun _ => rfl) (fun _ => keys_nodup_set key v) hget
  refine hset.regive fun m p k => ?_
  simp only [append_singleton_inj]
  by_cases hp : m :: p = n :: q
  · cases hp
    simp [eq_comm]
  · simp [hp, Ne.symm hp]

end

theorem completes (files : Files) (searched : List Route) :
    Completes files searched (fun a ms given lib => Filling files searched lib a ms given)
      Accounts where
  bears _ :=
    { set := fun h hq hi key v => h.set hq hi key v
      link := fun h _ _ _ _ _ => h.link _
      regive := fun h hgiven => h.regive hgiven }
  settled h := h.settled
  congr {a ms given lib lib'} h hs hsame := by
    refine ⟨hs, hsame ▸ h.here, fun n q i hq hi => h.made n q i hq (hsame ▸ hi), h.given_made,
      fun hms n => (h.below hms n).congr fun k _ => by rw [hsame]⟩
  place {lib a levels parent} hparent hs hclear hl := by
    have hmade : Makes _ a [] := .place hparent hclear ⟨levels, ∅, [], []⟩
    refine ⟨hs.place _ _ _, ?_, hmade, nofun,
      fun _ n _ q i hq hi => absurd (hmade n q i hq hi) not_mem_nil⟩
    refine ⟨_, get?_place_self _ _ _ (hparent a (.refl a)), ⟨hl, nodup_nil⟩, fun key => ?_⟩
    exact hl.findSome?_data key
  child h hn hs hsame hchild := h.child hn hs hsame hchild
  finish h hms hgiven := h.accounts hms hgiven

end Filling

/-- In a tree that is made in a fresh library, without an instance that makes two children of one
name, each instance has exactly the attributes that statements give to it: those of the outermost
instance around it that has a statement for them, within that instance those of the block that
extends the others, and within that block those of the last statement. -/
theorem dataOf_assigned {nesting : Nat} {root : Address} {made : Library}
    (hmade : (treeWithin extension nesting root).outcome { files, searched } = (.ok (), made))
    (htidy : made.Tidy root) (hq : made.Leads root q) :
    ∃ i, (dataOf (root.addInstances q)).outcome made = (.ok i, made) ∧
      ∀ key, i.get? key = made.assigned key root q ∧
        i.data.get? key = made.assigned key root q := by
  have hthere := contains_of_treeWithin settled_fresh hmade
  have haccounts := (Filling.completes files searched).of_treeWithin hmade
  obtain ⟨hc, -⟩ | ⟨-, l, lib₁, hl, hcreate⟩ := treeWithin_eq_ok hmade
  · cases hc
  have hkeep := Settled.keeps_layerWithin files searched extension root
  have hlayer := hkeep.result settled_fresh hl
  have hwhole := whole_createWithin (.inl rfl) (hkeep.state settled_fresh hl) hlayer.sound hcreate
  have hnames := (hwhole q hq).1
  obtain ⟨i, hi⟩ := hwhole.exists_instance hq
  obtain ⟨hproper, hget⟩ := haccounts htidy q i hnames hi
  rw [← Table.contains_eq_isSome] at hthere
  refine ⟨i, outcome_dataOf hlayer.isRoot hthere hnames hi, fun key => ⟨hget key, ?_⟩⟩
  rw [hproper.get?_data, hget]

/-- Attributes of one instance that are given in four blocks, of which one extends another. -/
def layered : Files where
  texts := ⟨[(["f"], "module Y:\n u=\"y\"\n w=\"y\"\n z=\"y\"\n" ++
    "module X:\n y=new Y\n y.u=\"x\"\n y.w=\"v\"\n y.w=\"x\"\n" ++
    "module B:\n x=new X\n x.y.u=\"b\"\nmodule M from B:\n x.y.u=\"m\"\n")]⟩

theorem dataOf_assigned_layered :
    ∃ made i, (treeWithin 3 4 ⟨"f:M"⟩).outcome { files := layered } = (.ok (), made) ∧
      made.Tidy ⟨"f:M"⟩ ∧ made.Leads ⟨"f:M"⟩ ["x", "y"] ∧
      (dataOf ⟨"f:M::x.y"⟩).outcome made = (.ok i, made) ∧
      ["u", "w", "z", "v"].map (fun key => (i.data.get? key).map Value.show_) =
        [some "m", some "x", some "y", none] := by
  -- the run is named, so that it is gone through once for all facts about it
  obtain ⟨run, hrun⟩ : ∃ run, (treeWithin 3 4 ⟨"f:M"⟩).outcome { files := layered } = run :=
    ⟨_, rfl⟩
  have hfacts : run.1.toOption = some () ∧
      (∀ k ∈ run.2.instances.keys, (run.2.levelsAt k).makes.Nodup) ∧
      run.2.childrenAt ⟨"f:M"⟩ = some ["x"] ∧ run.2.childrenAt ⟨"f:M::x"⟩ = some ["y"] ∧
      ["u", "w", "z", "v"].map (fun key =>
        (run.2.assigned key ⟨"f:M"⟩ ["x", "y"]).map Value.show_) =
          [some "m", some "x", some "y", none] := by
    rw [← hrun]
    decide +kernel
  obtain ⟨hok, hkeys, hx, hy, hvalues⟩ := hfacts
  obtain ⟨e | u, made⟩ := run
  · cases hok
  · have htidy := tidy_of_keys hkeys ⟨"f:M"⟩
    have hleads : made.Leads ⟨"f:M"⟩ ["x", "y"] :=
      (Leads.here.concat (q := []) hx (by simp)).concat hy (by simp)
    obtain ⟨i, hi, hdata⟩ := dataOf_assigned hrun htidy hleads
    refine ⟨made, i, hrun, htidy, hleads, hi, ?_⟩
    simpa only [(hdata _).2] using hvalues

end Library

end Boardwright
