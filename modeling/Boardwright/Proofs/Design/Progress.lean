import Boardwright.Proofs.Design.Failures
import Boardwright.Proofs.Design.Query

/-!
# While a tree is made

A library is `Underway` if work on a design can pass through it. While the tree of a root is
made, instances are made one in the other: `Making` holds of each instance that comes to be
made, with the instances around it, and `Turn` holds of each statement whose turn comes while
an instance is made.

If the tree can be made, each of these instances can be made and each of these statements
succeeds: `Making.createWithin_eq_ok`, `Turn.statement_eq_ok`.
-/

namespace Boardwright

open Syntax List Work

variable {I : Library → Prop}

namespace Library

/-! ### Libraries on the way -/

/-- A library that work on the design of some files can pass through: before a tree is made,
or between any two of the steps that the making of instances consists of. -/
inductive Underway (files : Files) (searched : List Route) : Library → Prop
  | start {lib : Library} (h : Reached files searched lib) : Underway files searched lib
  | layer {lib : Library} (h : Underway files searched lib) (extension : Nat) (x : Address) :
    Underway files searched ((layerWithin extension x).outcome lib).2
  | place {lib : Library} (h : Underway files searched lib) (parent : Option Address)
    (a : Address) (levels : Layer) :
    Underway files searched (lib.place parent a ⟨levels, ∅, [], []⟩)
  | forget {lib : Library} (h : Underway files searched lib) (a : Address) :
    Underway files searched (lib.forget a)
  | override {lib : Library} (h : Underway files searched lib) (a : Address) (name : String)
    (value : Value) : Underway files searched { lib with
      instances := lib.instances.modify a fun i =>
        { i with override := i.override.set name value } }
  | link {lib : Library} (h : Underway files searched lib) (a : Address) (k : Link) :
    Underway files searched { lib with
      instances := lib.instances.modify a fun i => { i with links := i.links ++ [k] } }
  | replace {lib : Library} (h : Underway files searched lib)
    (replaced : Table Address Address) : Underway files searched { lib with replaced }

variable {files : Files} {searched : List Route} {lib lib' start made : Library}
  {a p root : Address} {parent : Option Address} {levels l : Layer} {d : Definition} {s : Simple}
  {around : List (Layer × String)} {extension nesting depth : Nat} {v : Level}

theorem Underway.settled (h : Underway files searched lib) : Settled files searched lib := by
  induction h with
  | start h => exact h.sound.settled
  | layer h extension x ih => exact (Settled.keeps_layerWithin files searched extension x _ ih).1
  | @place lib h parent a levels ih => cases parent <;> exact ih.congr _ lib.replaced
  | @forget lib h a ih => exact ih.congr _ lib.replaced
  | @override lib h a name value ih => exact ih.congr _ lib.replaced
  | @link lib h a k ih => exact ih.congr _ lib.replaced
  | @replace lib h replaced ih => exact ih.congr lib.instances replaced

/-- Each library that the making of instances passes through is one of these. -/
theorem stable_underway (files : Files) (searched : List Route) :
    Stable (fun _ => True) (Underway files searched) where
  below _ _ := trivial
  layer depth x := by
    intro lib h
    refine ⟨h.layer depth x, fun l hl => ?_⟩
    exact ((Settled.keeps_layerWithin files searched depth x lib h.settled).2 l hl).sound
  place levels h _ _ := h.place _ _ levels
  forget h _ _ := h.forget _
  override name value h _ _ := h.override _ name value
  link pos h _ _ _ := h.link _ _
  ask b h _ _ := h.replace _
  drop h _ _ := h.replace _

/-! ### Statements whose turn comes -/

/-- While an instance is made, the turn of a statement comes: what the instance asks for is
known, and the levels and the statements before it have been gone through. -/
inductive Turn (extension depth : Nat) (parent : Option Address) (a : Address) (levels : Layer)
    (lib : Library) : Definition → Simple → Library → Prop
  | mk {asked : List Address} {before after : List Level} {l : Level} {d : Definition}
    {done todo : List Simple} {s : Simple} {r : List Unit × List Failure}
    {lib₁ lib₂ lib₃ : Library}
    (hask : (askReplacements a (replacementsIn levels)).outcome
      (lib.place parent a ⟨levels, ∅, [], []⟩) = (.ok asked, lib₁))
    (hlevels : levels.reverse = before ++ l :: after)
    (hbefore : (before.forM (visit extension (createWithin extension depth (some a)) a)).outcome
      lib₁ = (.ok (), lib₂))
    (hd : l.definition = some d) (hbody : simplesOf d.body = done ++ s :: todo)
    (hdone : (Work.collecting Failure.isError
      (statement extension (createWithin extension depth (some a)) a d) done []).outcome lib₂ =
        (.ok r, lib₃)) :
    Turn extension depth parent a levels lib d s lib₃

/-- The instances that come to be made while the tree of a root is made: how many may stand
one in the other from there on, the layers of the instances around it, each with the name of
the next one in it, the parent, the address and the layer of the instance, and the library at
that time. -/
inductive Making (extension nesting : Nat) (root : Address) (start : Library) :
    Nat → List (Layer × String) → Option Address → Address → Layer → Library → Prop
  | root {levels : Layer} {lib : Library}
    (h : (layerWithin extension root).outcome start = (.ok levels, lib)) :
    Making extension nesting root start nesting [] none root levels lib
  | child {depth : Nat} {around : List (Layer × String)} {parent : Option Address} {p : Address}
    {levels l : Layer} {lib lib₁ lib₂ : Library} {d : Definition} {target block : Path}
    {mark word : Token} {n : String}
    (h : Making extension nesting root start (depth + 1) around parent p levels lib)
    (hs : Turn extension depth parent p levels lib d (.assign target mark (.new word block)) lib₁)
    (hn : target.names = [n])
    (hl : (chosen extension d target.head.pos (p.addInstance n) block.names).outcome lib₁ =
      (.ok l, lib₂)) :
    Making extension nesting root start depth (around ++ [(levels, n)]) (some p)
      (p.addInstance n) l lib₂

/-- The turn of a statement comes in a library that work passes through. -/
theorem Turn.underway (h : Turn extension depth parent a levels lib d s lib')
    (hlib : Underway files searched lib) (hl : Layer.Sound levels) :
    Underway files searched lib' := by
  have hI := stable_underway files searched
  have hcreate : ∀ n l, IsName n → Layer.Sound l → Guards (Underway files searched) (createWithin extension depth (some a) (a.addInstance n) l) :=
    fun n l hn hl' => hI.keeps_createWithin extension depth trivial hn hl'
  cases h with
  | @mk asked before after v d done todo s r lib₁ lib₂ lib₃ hask hlevels hbefore hd hbody hdone =>
    have hmem : ∀ w ∈ before ++ v :: after, ∀ d, w.definition = some d → d.Sound :=
      fun w hw => hl w (mem_reverse.1 (hlevels ▸ hw))
    have hlib₁ := (hI.keeps_askReplacements trivial fun r hr =>
      (areNames_of_mem_replacementsIn hl hr).1).state (hlib.place parent a levels) hask
    have hlib₂ := (Keeps.forM fun w hw => hI.keeps_visit trivial
      (hmem w (mem_append_left _ hw)) hcreate).state hlib₁ hbefore
    have hsound := hmem v (by simp) d hd
    refine (Keeps.collecting (fun w hw => hI.keeps_statement trivial ?_ hcreate) []).state
      hlib₂ hdone
    exact hsound.statements w (by simp [hbody, hw])

theorem Turn.sound (h : Turn extension depth parent a levels lib d s lib')
    (hl : Layer.Sound levels) : s.Sound := by
  cases h with
  | @mk _ before after v d done todo s _ _ _ _ _ hlevels _ hd hbody _ =>
    have hv : v ∈ levels := mem_reverse.1 (hlevels ▸ by simp)
    exact (hl v hv d hd).statements s (by simp [hbody])

theorem Making.underway (h : Making extension nesting root start depth around parent p levels lib)
    (hstart : Underway files searched start) :
    Underway files searched lib ∧ Layer.Sound levels := by
  have hI := stable_underway files searched
  induction h with
  | root h => exact ⟨(hI.layer _ _).state hstart h, (hI.layer _ _).result hstart h⟩
  | child _ hs _ hl ih =>
    have hlib := hs.underway ih.1 ih.2
    have hchosen := keeps_chosen (hI.layer extension)
    exact ⟨(hchosen _ _ _ _).state hlib hl, (hchosen _ _ _ _).result hlib hl⟩

/-- A statement upholds what its steps keep, if the making of children upholds it. -/
theorem Steady.upholds_statement {A : Address → Prop} (hI : Steady A I) (hA : A a) (hs : s.Sound)
    {create : Address → Layer → Work Library Unit}
    (hcreate : ∀ n l, IsName n → Layer.Sound l → Upholds I (create (a.addInstance n) l)) :
    Upholds I (statement extension create a d s) := by
  by_cases hnew : Creates s
  · obtain ⟨target, mark, word, block, n, rfl, ht⟩ := hnew
    have hchosen := keeps_chosen (hI.layer extension) d target.head.pos (a.addInstance n) block.names
    intro lib _ lib' hlib h
    rw [statement_new ht] at h
    obtain ⟨l, lib₁, hl, h⟩ := bind_eq_ok.1 h
    exact hcreate n l (hs n (by simp [ht])) (hchosen.result hlib hl) lib₁ _ lib'
      (hchosen.state hlib hl) h
  · rw [statement_plain hnew]
    exact (hI.keeps_statement hA hs fun _ _ _ _ => .pure trivial).upholds

theorem upholds_visit
    (hI : ∀ d, v.definition = some d → ∀ s ∈ simplesOf d.body, Upholds I
      (statement extension (createWithin extension depth parent) a d s)) :
    Upholds I (visit extension (createWithin extension depth parent) a v) := by
  cases hd : v.definition with
  | none =>
    unfold visit
    rw [hd]
    exact (Keeps.pure (P := fun _ => True) trivial).upholds
  | some d =>
    intro lib _ lib' hlib h
    exact Upholds.forM (hI d hd) lib _ lib' hlib ((visit_eq_ok parent hd).1 h)

/-- If an instance can be made, then each statement whose turn comes succeeds. What holds once
the replacements are known and is upheld by each statement holds when a turn comes. -/
theorem Turn.statement_eq_ok (h : Turn extension depth parent a levels lib d s lib')
    (hok : (createWithin extension (depth + 1) parent a levels).outcome lib = (.ok (), made))
    (hask : ∀ asked lib₁, (askReplacements a (replacementsIn levels)).outcome
      (lib.place parent a ⟨levels, ∅, [], []⟩) = (.ok asked, lib₁) → I lib₁)
    (hI : ∀ v ∈ levels, ∀ d, v.definition = some d → ∀ s ∈ simplesOf d.body, Upholds I
      (statement extension (createWithin extension depth (some a)) a d s)) :
    I lib' ∧ ∃ lib₂, (statement extension (createWithin extension depth (some a)) a d s).outcome
      lib' = (.ok (), lib₂) := by
  obtain ⟨asked', lib₁', made', hask', hvisits, -⟩ := createWithin_eq_ok hok
  cases h with
  | @mk asked before after v d done todo s r lib₁ lib₂ lib₃ hasked hlevels hbefore hd hbody hdone =>
    cases hask'.symm.trans hasked
    rw [hlevels] at hvisits
    have hmem : ∀ w ∈ before ++ v :: after, w ∈ levels :=
      fun w hw => mem_reverse.1 (hlevels ▸ hw)
    -- the levels before this one
    obtain ⟨lib₂', hbefore', hvisits⟩ := forM_append_ok.1 hvisits
    cases hbefore'.symm.trans hbefore
    have hlib₂ := Upholds.forM (fun w hw => upholds_visit
      (hI w (hmem w (mem_append_left _ hw)))) _ _ _ (hask _ _ hasked) hbefore
    -- the statements before this one
    obtain ⟨_, hvisit, -⟩ := forM_cons_ok.1 hvisits
    rw [visit_eq_ok _ hd, hbody] at hvisit
    obtain ⟨lib₃', hdone', hrest⟩ := forM_append_ok.1 hvisit
    obtain ⟨rs, hrs⟩ := collecting_of_forM (p := Failure.isError) hdone' []
    cases hrs.symm.trans hdone
    obtain ⟨lib₄, hs, -⟩ := forM_cons_ok.1 hrest
    refine ⟨?_, lib₄, hs⟩
    exact Upholds.forM (fun w hw => hI v (hmem v (by simp)) d hd w (by simp [hbody, hw]))
      _ _ _ hlib₂ hdone'

/-- If an instance can be made, then the turn of each statement of its levels comes. -/
theorem Turn.exists_of_mem
    (hok : (createWithin extension (depth + 1) parent a levels).outcome lib = (.ok (), made))
    (hv : v ∈ levels) (hd : v.definition = some d) (hs : s ∈ simplesOf d.body) :
    ∃ lib', Turn extension depth parent a levels lib d s lib' := by
  obtain ⟨asked, lib₁, _, hask, hvisits, -⟩ := createWithin_eq_ok hok
  obtain ⟨before, after, hlevels⟩ := append_of_mem (mem_reverse.2 hv)
  obtain ⟨done, todo, hbody⟩ := append_of_mem hs
  rw [hlevels] at hvisits
  obtain ⟨lib₂, hbefore, hvisits⟩ := forM_append_ok.1 hvisits
  obtain ⟨_, hvisit, -⟩ := forM_cons_ok.1 hvisits
  rw [visit_eq_ok _ hd, hbody] at hvisit
  obtain ⟨lib₃, hdone, -⟩ := forM_append_ok.1 hvisit
  obtain ⟨rs, hrs⟩ := collecting_of_forM (p := Failure.isError) hdone []
  exact ⟨lib₃, .mk hask hlevels hbefore hd hbody hrs⟩

/-- If an instance can be made, then a `new` statement whose turn comes has a target of one
name, and makes a child under that name. -/
theorem Turn.new_eq_ok {target block : Path} {mark word : Token}
    (h : Turn extension depth parent a levels lib d (.assign target mark (.new word block)) lib')
    (hok : (createWithin extension (depth + 1) parent a levels).outcome lib = (.ok (), made)) :
    ∃ n l lib₂ lib₃, target.names = [n] ∧
      (chosen extension d target.head.pos (a.addInstance n) block.names).outcome lib' =
        (.ok l, lib₂) ∧
      (createWithin extension depth (some a) (a.addInstance n) l).outcome lib₂ = (.ok (), lib₃) ∧
      (statement extension (createWithin extension depth (some a)) a d
        (.assign target mark (.new word block))).outcome lib' = (.ok (), lib₃) := by
  obtain ⟨-, lib₃, hs⟩ := h.statement_eq_ok (I := fun _ => True) hok (fun _ _ _ => trivial)
    fun _ _ _ _ _ _ => fun _ _ _ _ _ => trivial
  have hnew := hs
  unfold statement at hnew
  dsimp only at hnew
  split at hnew
  · next n hn =>
      obtain ⟨l, lib₂, hl, hcreate⟩ := bind_eq_ok.1 hnew
      exact ⟨n, l, lib₂, lib₃, hn, hl, hcreate, hs⟩
  · cases hnew

/-- If a tree can be made in a fresh library, then each instance that comes to be made can
be made. -/
theorem Making.createWithin_eq_ok
    (h : Making extension nesting root { files, searched } depth around parent p levels lib)
    (hok : (treeWithin extension nesting root).outcome { files, searched } = (.ok (), made)) :
    ∃ lib', (createWithin extension depth parent p levels).outcome lib = (.ok (), lib') := by
  induction h with
  | @root levels lib h =>
    obtain ⟨hc, -⟩ | ⟨-, levels', lib', hl, hcreate⟩ := treeWithin_eq_ok hok
    · cases hc
    · cases hl.symm.trans h
      exact ⟨made, hcreate⟩
  | @child depth around parent p levels l lib lib₁ lib₂ d target block mark word n h hs hn hl ih =>
    obtain ⟨made', hmade'⟩ := ih
    obtain ⟨n', l', lib₂', lib₃, hn', hl', hcreate, -⟩ := hs.new_eq_ok hmade'
    cases hn'.symm.trans hn
    cases hl'.symm.trans hl
    exact ⟨lib₃, hcreate⟩

end Library

end Boardwright
