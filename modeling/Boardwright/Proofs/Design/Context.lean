import Boardwright.Proofs.Design.Comparison

/-!
# What surrounds the making of instances

While instances are made, two stacks say where the work is: one of the instances that are being
made, and one of the levels whose bodies are being worked through. A statement is for the innermost
instance and stands in the innermost level. `Context.tree` makes a tree in this way, and
does what is done without stacks: `Context.follows_tree`.

Both stacks are put in order whether the work fails or not. So are the replacements that are known,
if all of those that an instance asks for can be looked up. But one that cannot be looked up leaves
those behind that were made known before it: `Abandoned`.
-/

namespace Boardwright

open Syntax Library List Work

/-- A library with the instances that are being made and the levels whose bodies are being worked
through, the innermost ones first. -/
structure Context where
  library : Library
  instances : List Address := []
  objects : List Level := []

namespace Context

variable {α : Type}

def on (w : Work Library α) : Work Context α :=
  Work.within library (fun lib c => { c with library := lib }) w

def inside (enter leave : Context → Context) (w : Work Context α) : Work Context α := do
  modify enter
  w.finally_ leave

def insideInstance (a : Address) (w : Work Context α) : Work Context α :=
  inside (fun c => { c with instances := a :: c.instances })
    (fun c => { c with instances := c.instances.tail }) w

def insideObject (v : Level) (w : Work Context α) : Work Context α :=
  inside (fun c => { c with objects := v :: c.objects })
    (fun c => { c with objects := c.objects.tail }) w

/-- A statement of the innermost level, for the innermost instance. -/
def statement (extension : Nat) (create : Address → Layer → Work Context Unit) (s : Simple) :
    Work Context Unit := do
  let c ← get
  match c.instances.head?, c.objects.head?.bind Level.definition with
  | some here, some d =>
    match s with
    | .assign target _ (.new _ block) =>
      match target.names with
      | [name] =>
        let a := here.addInstance name
        create a (← on (chosen extension d s.start.pos a block.names))
      | _ => throw (.general "Cannot assign a new object to a multi-part reference")
    | _ => on (Library.statement extension (fun _ _ => pure ()) here d s)
  | _, _ => throw (.fault .index)

def body (extension : Nat) (create : Address → Layer → Work Context Unit) (v : Level) :
    Work Context Unit :=
  match v.definition with
  | none => pure ()
  | some d => discard (Work.each (statement extension create) (simplesOf d.body))

def bodies (extension : Nat) (create : Address → Layer → Work Context Unit) :
    List Level → Work Context Unit
  | [] => pure ()
  | v :: vs => insideObject v do
    body extension create v
    bodies extension create vs

/-- An instance made below the innermost one. -/
def make (extension : Nat) : Nat → Address → Layer → Work Context Unit
  | 0, _, _ => throw (.fault .endlessRecursion)
  | depth + 1, a, levels => do
    modify fun c => { c with library := c.library.place c.instances.head? a ⟨levels, ∅, [], []⟩ }
    Work.onFailure
      (insideInstance a do
        let asked ← on (askReplacements a (replacementsIn levels))
        finally_ (bodies extension (make extension depth) levels.reverse)
          fun c => { c with library := dropReplacements asked c.library })
      fun c => { c with library := c.library.forget a }

def tree (extension nesting : Nat) (a : Address) : Work Context Unit := do
  if a.isInstance then throw (.fault (.unsupported ""))
  else if (← get).library.instances.contains a then return ()
  else make extension nesting a (← on (layerWithin extension a))

/-! ### The stacks -/

/-- Work from a state with certain stacks does what is done on the library, and leaves the stacks
as they were. -/
abbrev Follows (is : List Address) (os : List Level) (w : Work Library α) (w' : Work Context α) :
    Prop :=
  InStep (fun _ => False) (fun lib c => c = ⟨lib, is, os⟩) Eq w w'

variable {is : List Address} {os : List Level} {extension : Nat} {here : Address} {v : Level}
  {create : Address → Layer → Work Library Unit} {create' : Address → Layer → Work Context Unit}
  {w : Work Library α} {w' : Work Context α}

theorem follows_on (w : Work Library α) : Follows is os w (on w) := by
  rintro lib _ rfl
  show Meets _ _ _ _ _ ((w.outcome lib).1, Context.mk (w.outcome lib).2 is os)
  rcases w.outcome lib with ⟨e | x, lib'⟩
  · exact .error rfl
  · exact .ok rfl rfl

/-- What is entered and left again need not be known outside. -/
theorem Follows.inside {is' : List Address} {os' : List Level} {enter leave : Context → Context} (h : Follows is' os' w w')
    (henter : ∀ lib, enter ⟨lib, is, os⟩ = ⟨lib, is', os'⟩)
    (hleave : ∀ lib, leave ⟨lib, is', os'⟩ = ⟨lib, is, os⟩) :
    Follows is os w (inside enter leave w') := by
  rintro lib _ rfl
  have hmeet := h lib _ rfl
  rw [Context.inside, outcome_modify_bind, outcome_finally_, henter]
  generalize w.outcome lib = o at hmeet ⊢
  generalize w'.outcome ⟨lib, is', os'⟩ = o' at hmeet ⊢
  cases hmeet with
  | ok hxy hst => exact .ok hxy (by rw [hst, hleave])
  | failed he hst => exact .failed he (by rw [hst, hleave])
  | excused he => exact he.elim

theorem follows_statement {d : Definition} (hd : v.definition = some d)
    (hcreate : ∀ a l, Follows (here :: is) (v :: os) (create a l) (create' a l)) (s : Simple) :
    Follows (here :: is) (v :: os) (Library.statement extension create here d s)
      (statement extension create' s) := by
  rintro lib _ rfl
  unfold statement
  rw [outcome_get_bind]
  dsimp only [head?_cons, Option.bind_some]
  rw [hd]
  dsimp only
  by_cases hplain : ∀ target mark word block, s ≠ .assign target mark (.new word block)
  · have hnew : ¬Creates s := fun ⟨_, _, _, _, _, h, _⟩ => hplain _ _ _ _ h
    have hsame : Library.statement extension create here d s =
        Library.statement extension (fun _ _ => pure ()) here d s :=
      (statement_plain hnew).trans (statement_plain hnew).symm
    rw [hsame]
    split
    · exact absurd rfl (hplain _ _ _ _)
    · exact follows_on _ lib _ rfl
  · push Not at hplain
    obtain ⟨target, mark, word, block, rfl⟩ := hplain
    unfold Library.statement
    dsimp only
    rcases target.names with _ | ⟨name, _ | ⟨_, _⟩⟩
    · exact .error rfl
    · refine (follows_on _).bind (fun l l' hl => ?_) lib _ rfl
      subst hl
      exact hcreate _ l
    · exact .error rfl

theorem follows_body (hcreate : ∀ a l, Follows (here :: is) (v :: os) (create a l) (create' a l))
    (hsolid : ∀ a l, Raises Failure.Solid (create a l)) :
    Follows (here :: is) (v :: os) (visit extension create here v) (body extension create' v) := by
  unfold visit body
  cases hd : v.definition with
  | none => exact .pure rfl
  | some d =>
    refine (Along.each (.inr fun _ => False.elim) Failure.tracks_eq (fun s _ => ?_)
      (forall₂_same.2 fun s _ => ?_)).imp fun _ _ _ => rfl
    · exact raises_statement hsolid here d s
    · exact (follows_statement hd hcreate s).imp fun _ _ _ => trivial

theorem follows_bodies (hcreate : ∀ os a l, Follows (here :: is) os (create a l) (create' a l))
    (hsolid : ∀ a l, Raises Failure.Solid (create a l)) (vs : List Level) :
    Follows (here :: is) os (vs.forM (visit extension create here))
      (bodies extension create' vs) := by
  induction vs generalizing os with
  | nil => exact .pure rfl
  | cons v vs ih =>
    refine Follows.inside (?_ : Follows _ (v :: os) _ _) (fun _ => rfl) fun _ => rfl
    exact (follows_body (hcreate _) hsolid).bind fun _ _ _ => ih

/-- With stacks and without them the same instance is made. -/
theorem follows_make (extension depth : Nat) (a : Address) (levels : Layer) :
    Follows is os (createWithin extension depth is.head? a levels)
      (make extension depth a levels) := by
  induction depth generalizing is os a levels with
  | zero => exact .throw _
  | succ depth ih =>
    rw [createWithin_succ, make]
    refine (Along.modify fun lib c h => ?_).bind fun _ _ _ =>
      .onFailure ?_ fun _ _ lib c h => by rw [h]
    · rw [h]
    · refine Follows.inside (?_ : Follows (a :: is) _ _ _) (fun _ => rfl) fun _ => rfl
      refine (follows_on _).bind fun asked asked' hasked => ?_
      subst hasked
      refine Along.finally_ ?_ fun lib c h => by rw [h]
      exact follows_bodies (fun os b l => ih b l) (raises_createWithin extension depth _) _

def treeBelow (extension nesting : Nat) (parent : Option Address) (a : Address) :
    Work Library Unit := do
  if a.isInstance then throw (.fault (.unsupported ""))
  else if (← get).instances.contains a then return ()
  else createWithin extension nesting parent a (← layerWithin extension a)

theorem follows_tree (extension nesting : Nat) (a : Address) :
    Follows is os (treeBelow extension nesting is.head? a) (tree extension nesting a) := by
  unfold treeBelow tree
  split
  · exact .throw _
  · refine Along.get.bind fun lib c h => ?_
    rw [h]
    split
    · exact .pure rfl
    · refine (follows_on _).bind fun l l' hl => ?_
      subst hl
      exact follows_make extension nesting a l

theorem Follows.outcome_eq (h : Follows is os w w')
    (lib : Library) : w'.outcome ⟨lib, is, os⟩ = ((w.outcome lib).1, ⟨(w.outcome lib).2, is, os⟩) := by
  have hmeet := h lib _ rfl
  generalize w.outcome lib = o at hmeet ⊢
  generalize w'.outcome ⟨lib, is, os⟩ = o' at hmeet ⊢
  cases hmeet with
  | ok hxy hst => rw [hxy, hst]
  | failed he hst => rw [he, hst]
  | excused he => exact he.elim

end Context

namespace Library

variable {files : Files} {searched : List Route} {root a k x : Address} {levels : Layer}
  {known : Table Address Address} {lib lib' : Library} {extension depth : Nat}

/-! ### The replacements that are known -/

/-- A place below `root` at which a replacement is made known by a layer, before another one of the
same layer that cannot be looked up. -/
def Abandoned (files : Files) (searched : List Route) (root k : Address) : Prop :=
  ∃ x levels q before r after e, IsLayer files searched x levels ∧
    replacementsIn levels = before ++ r :: after ∧ r.1.lookup r.2.2.block = .error e ∧
    ∃ r' ∈ before, k = (root.addInstances q).addInstances r'.2.1

/-- A settled library in which the same replacements are known as before, and those that were
abandoned. -/
structure Restored (files : Files) (searched : List Route) (root : Address)
    (known : Table Address Address) (lib : Library) : Prop where
  settled : Settled files searched lib
  replaced : ∀ k, lib.replaced.get? k = known.get? k ∨
    known.get? k = none ∧ Abandoned files searched root k

namespace Restored

theorem congr (h : Restored files searched root known lib) (hs : Settled files searched lib')
    (hr : lib'.replaced = lib.replaced) : Restored files searched root known lib' :=
  ⟨hs, hr ▸ h.replaced⟩

theorem keeps_layerWithin (extension : Nat) (a : Address) :
    Keeps (Restored files searched root known) (IsLayer files searched a)
      (layerWithin extension a) :=
  Settled.keeps_layerWithin_of (·.settled) (fun h hs _ => h.congr hs) extension a

theorem steady : Steady (fun _ => True) (Restored files searched root known) :=
  steady_of_replaced (·.settled) congr

theorem trans (h : Restored files searched root known lib)
    (h' : Restored files searched root lib.replaced lib') :
    Restored files searched root known lib' := by
  refine ⟨h'.settled, fun k => ?_⟩
  have hk := h.replaced k
  rcases h'.replaced k with hsame | ⟨hnone, hleft⟩
  · rwa [hsame]
  · rw [hnone] at hk
    exact .inr ⟨hk.elim Eq.symm And.left, hleft⟩

end Restored

theorem askReplacements_eq_error {rs : List (Definition × Reference × Replacement)} {e : Failure}
    (h : (askReplacements a rs).outcome lib = (.error e, lib')) :
    ∃ before r after e, rs = before ++ r :: after ∧ r.1.lookup r.2.2.block = .error e ∧
      lib' = { lib with replaced := lib'.replaced } ∧
      ∀ k, lib'.replaced.get? k = lib.replaced.get? k ∨
        lib.replaced.get? k = none ∧ ∃ r' ∈ before, k = a.addInstances r'.2.1 := by
  induction rs generalizing lib with
  | nil => cases h
  | cons r rs ih =>
    rw [askReplacements, outcome_get_bind] at h
    split at h
    · obtain ⟨before, r', after, e', rfl, herror, hrest, hk⟩ := ih h
      refine ⟨r :: before, r', after, e', rfl, herror, hrest, fun k => (hk k).imp_right ?_⟩
      rintro ⟨hnone, r'', hr'', hk⟩
      exact ⟨hnone, r'', mem_cons_of_mem r hr'', hk⟩
    · next hc =>
        cases hb : r.1.lookup r.2.2.block with
        | error e' =>
          rw [hb] at h
          cases h
          exact ⟨[], r, rs, _, rfl, hb, rfl, fun k => .inl rfl⟩
        | ok b =>
          rw [hb, outcome_ofExcept_ok_bind, outcome_modify_bind] at h
          rcases bind_eq_error.1 h with hmore | ⟨_, _, -, hend⟩
          · obtain ⟨before, r', after, e', rfl, herror, hrest, hk⟩ := ih hmore
            refine ⟨r :: before, r', after, e', rfl, herror, hrest, fun k => ?_⟩
            have hk := hk k
            dsimp only at hk
            by_cases hkey : k = a.addInstances r.2.1
            · subst hkey
              refine .inr ⟨?_, r, mem_cons_self, rfl⟩
              simpa [Table.contains_eq_isSome] using hc
            · rw [Table.get?_set_of_ne _ _ hkey] at hk
              refine hk.imp_right ?_
              rintro ⟨hnone, r'', hr'', hk⟩
              exact ⟨hnone, r'', mem_cons_of_mem r hr'', hk⟩
          · cases hend

namespace Restored

theorem keeps_statement {create : Address → Layer → Work Library Unit} {here : Address}
    {d : Definition} {s : Simple} (hs : s.Sound)
    (hcreate : ∀ n l x, IsLayer files searched x l →
      Guards (Restored files searched root known) (create (here.addInstance n) l)) :
    Guards (Restored files searched root known) (statement extension create here d s) := by
  by_cases hnew : Creates s
  · obtain ⟨target, mark, word, block, n, rfl, ht⟩ := hnew
    rw [statement_new ht]
    refine (keeps_chosen (P := fun l => ∃ x, IsLayer files searched x l) (fun x => ?_) d _ _
      _).bind fun l ⟨x, hl⟩ => hcreate _ l x hl
    exact (keeps_layerWithin extension x).imp fun l hl => ⟨x, hl⟩
  · rw [statement_plain hnew]
    exact steady.keeps_statement trivial hs fun _ _ _ _ => .pure trivial

theorem keeps_createWithin (extension depth : Nat) (q : List String)
    (hl : IsLayer files searched x levels) (parent : Option Address)
    (known : Table Address Address) : Guards (Restored files searched root known)
      (createWithin extension depth parent (root.addInstances q) levels) := by
  induction depth generalizing q x levels parent known with
  | zero => exact .throw _
  | succ depth ih =>
    rw [createWithin_succ]
    refine (Keeps.modify fun lib h => h.congr (h.settled.place _ _ _) (replaced_place ..)).bind
      fun _ _ => .onFailure ?_ fun lib h => h.congr (h.settled.congr _ _) rfl
    intro lib hlib
    refine ⟨?_, fun _ _ => trivial⟩
    unfold fill
    rw [outcome_bind]
    rcases hask : (askReplacements (root.addInstances q) (replacementsIn levels)).outcome lib with
      ⟨e | asked, lib₁⟩
    · obtain ⟨before, r, after, e', hsplit, herror, hrest, hk⟩ := askReplacements_eq_error hask
      rw [hrest]
      refine hlib.trans ⟨hlib.settled.congr lib.instances _, fun k => (hk k).imp_right ?_⟩
      rintro ⟨hnone, r', hr', hkey⟩
      exact ⟨hnone, x, levels, q, before, r, after, e', hl, hsplit, herror, r', hr', hkey⟩
    · have hsame := frame_askReplacements hask
      have hlib₁ : Restored files searched root lib₁.replaced lib₁ := by
        refine ⟨?_, fun k => .inl rfl⟩
        rw [hsame]
        exact hlib.settled.congr lib.instances _
      dsimp only
      rw [outcome_finally_]
      have hvisits : Guards (Restored files searched root lib₁.replaced)
          (levels.reverse.forM (visit extension
            (createWithin extension depth (some (root.addInstances q))) (root.addInstances q))) := by
        refine .forM fun v hv => ?_
        unfold visit
        split
        · exact .pure trivial
        · next d hd =>
            refine (Keeps.each (Q := fun _ => True) fun s hs => ?_).discard
            refine keeps_statement ((hl.sound v (mem_reverse.1 hv) d hd).statements s hs)
              fun n l y hy => ?_
            rw [← Address.addInstances_concat]
            exact ih (q ++ [n]) hy _ _
      obtain ⟨hlib₂, -⟩ := hvisits lib₁ hlib₁
      refine hlib.trans ⟨hlib₂.settled.congr _ _, fun k => ?_⟩
      have hk := hlib₂.replaced k
      rw [dropReplacements, Table.get?_foldl_erase]
      rcases asked_cases hask k with ⟨hmem, -, hnone, -⟩ | ⟨hmem, hkeep⟩
      · exact .inl (by rw [if_pos (by simpa using hmem), hnone])
      · rw [if_neg (by simpa using hmem)]
        rwa [hkeep] at hk

theorem keeps_treeBelow (extension nesting : Nat) (parent : Option Address) (a : Address) :
    Guards (Restored files searched a known)
      (Context.treeBelow extension nesting parent a) := by
  unfold Context.treeBelow
  split
  · exact .throw _
  · refine Keeps.get.bind fun lib _ => ?_
    split
    · exact .pure trivial
    · exact (keeps_layerWithin extension a).bind fun l hl =>
        keeps_createWithin extension nesting [] hl parent known

end Restored

theorem replaced_treeBelow {nesting : Nat} {parent : Option Address}
    (hlib : Reached files searched lib)
    (h : (Context.treeBelow extension nesting parent a).outcome lib = (.ok (), lib')) :
    lib'.replaced = lib.replaced := by
  unfold Context.treeBelow at h
  split at h
  · cases h
  · rw [outcome_get_bind] at h
    split at h
    · cases h
      rfl
    · obtain ⟨l, lib₁, hl, hcreate⟩ := bind_eq_ok.1 h
      have hlayer := (Settled.keeps_layerWithin files searched extension a).result
        hlib.sound.settled hl
      have hunder := (Underway.start hlib).layer extension a
      rw [hl] at hunder
      rw [← (frame_layerWithin hl).2]
      exact (upholds_createWithin files searched extension nesting parent a hlayer.sound _ lib₁ _
        lib' ⟨hunder, rfl⟩ hcreate).2

end Library

namespace Context

variable {files : Files} {searched : List Route} {lib : Library}

/-- Whether the making of a tree fails or not, both stacks are afterwards what they were before. So
are the replacements that are known, if it does not fail; and if it does, apart from those that a
layer has made known before one that could not be looked up. -/
theorem tree_restores (hlib : Reached files searched lib) (extension nesting : Nat) (a : Address)
    (is : List Address) (os : List Level) :
    ∃ r lib', (tree extension nesting a).outcome ⟨lib, is, os⟩ = (r, ⟨lib', is, os⟩) ∧
      (is = [] → (treeWithin extension nesting a).outcome lib = (r, lib')) ∧
      (r = .ok () → lib'.replaced = lib.replaced) ∧
      ∀ k, lib'.replaced.get? k = lib.replaced.get? k ∨
        lib.replaced.get? k = none ∧ Abandoned files searched a k := by
  refine ⟨_, _, (follows_tree extension nesting a).outcome_eq lib, fun h => ?_, fun h => ?_, ?_⟩
  · rw [h]
    rfl
  · exact replaced_treeBelow hlib (Prod.ext h rfl)
  · exact (Restored.keeps_treeBelow extension nesting _ a lib
      ⟨hlib.sound.settled, fun _ => .inl rfl⟩).1.replaced

/-- A module that replaces the types of two instances, one of them by a block that is not there. -/
def halfReplaced : Files where
  texts := ⟨[(["f"], "module A:\n  a = 1\nmodule M:\n  x -> A\n  y -> B\n")]⟩

/-- Made while another instance is being made, from a body that stands in no level yet. -/
theorem tree_restores_halfReplaced : ∃ r lib',
    (tree 3 3 ⟨"f:M"⟩).outcome ⟨{ files := halfReplaced }, [⟨"f:N"⟩], []⟩ =
      (r, ⟨lib', [⟨"f:N"⟩], []⟩) ∧
      (r = .ok () → lib'.replaced = ∅) ∧
      ∀ k, lib'.replaced.get? k = none ∨ Abandoned halfReplaced [] ⟨"f:M"⟩ k := by
  obtain ⟨r, lib', h, -, hok, hget⟩ :=
    @tree_restores halfReplaced [] _ .fresh 3 3 ⟨"f:M"⟩ [⟨"f:N"⟩] []
  exact ⟨r, lib', h, hok, fun k => (hget k).imp id And.right⟩

/-- The replacement that could be looked up stays known. -/
theorem tree_halfReplaced :
    ((tree 3 3 ⟨"f:M"⟩).outcome ⟨{ files := halfReplaced }, [], []⟩).2.library.replaced.entries =
      [(⟨"f:M::x"⟩, ⟨"f:A"⟩)] := by decide +kernel

end Context

end Boardwright
