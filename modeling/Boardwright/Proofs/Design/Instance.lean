import Boardwright.Design.Instance
import Boardwright.Proofs.Design.Library

/-!
# Making instances

What the making of an instance can do to a library is said once, as a list of steps:
`Stable A I` holds if each of these steps keeps the property `I`, where `A` says which
instances are filled. From it the making of an instance keeps `I`, whether it succeeds or
not, by induction on how deep instances may stand in one another. `Steady A I` asks this of
the steps of single statements only.

Two properties are obtained in this way. A library stays `Sound`: each instance stands
under an address that is made of a file or a block and of names, and so do its children and
the ends of its links; unless it is a root, its name is a word. And what an instance is made of does not change while others are
made below it: `stable_levels`.
-/

namespace Boardwright

open Syntax List Table Work Address Layer

variable {P : Layer → Prop} {f : Instance → Instance} {n : String} {nesting : Nat}
  {parent : Option Address} {pos : Pos} {r : Definition × Reference × Replacement}
  {w : Work Library Layer}

/-! ### Names that statements give -/

variable {N : Spelling} {path : String}

theorem Syntax.Token.holds_of_integer (N : Spelling) {t : Token}
    (h : t.integer path = .ok n) : N.Holds n := by
  unfold Token.integer at h
  split at h
  · cases h
    exact N.number _
  · cases h

theorem Syntax.PinDef.holds_of_read {p : PinDef} (hp : p.Spelled N)
    (h : p.label.read path = .ok n) : N.Holds n := by
  cases hl : p.label with
  | name t =>
    rw [hl] at h
    cases h
    exact hp t hl
  | number t =>
    rw [hl] at h
    exact Token.holds_of_integer N h

namespace Library

variable {extension depth : Nat} {create : Address → Layer → Work Library Unit} {here a : Address}
  {d : Definition} {l levels : Layer} {lib lib' : Library} {asked : List Address} {target : Path}
  {s : Simple} {I : Library → Prop}

/-! ### The parts of making an instance -/

/-- The statements of one level, for the instance `here`. -/
def visit (extension : Nat) (create : Address → Layer → Work Library Unit) (here : Address)
    (l : Level) : Work Library Unit :=
  match l.definition with
  | none => pure ()
  | some d => discard (Work.each (statement extension create here d) (simplesOf d.body))

/-- What is done for an instance after it has been placed. -/
def fill (extension : Nat) (create : Address → Layer → Work Library Unit) (a : Address)
    (levels : Layer) : Work Library Unit := do
  let asked ← askReplacements a (replacementsIn levels)
  finally_ (levels.reverse.forM (visit extension create a)) (dropReplacements asked)

theorem createWithin_succ (extension depth : Nat) (parent : Option Address) (a : Address)
    (levels : Layer) :
    createWithin extension (depth + 1) parent a levels = (do
      modify fun lib => lib.place parent a ⟨levels, ∅, [], []⟩
      Work.onFailure (fill extension (createWithin extension depth (some a)) a levels)
        (forget · a)) := rfl

/-- What the making of an instance is made of, if it succeeds. -/
theorem createWithin_eq_ok
    (h : (createWithin extension (depth + 1) parent a levels).outcome lib = (.ok (), lib')) :
    ∃ asked lib₁ lib₂, (askReplacements a (replacementsIn levels)).outcome
        (lib.place parent a ⟨levels, ∅, [], []⟩) = (.ok asked, lib₁) ∧
      (levels.reverse.forM (visit extension (createWithin extension depth (some a)) a)).outcome
        lib₁ = (.ok (), lib₂) ∧ lib' = dropReplacements asked lib₂ := by
  rw [createWithin_succ, outcome_modify_bind, onFailure_eq_ok] at h
  obtain ⟨asked, lib₁, hask, hfill⟩ := bind_eq_ok.1 h
  obtain ⟨lib₂, hvisits, hdrop⟩ := finally_eq_ok.1 hfill
  exact ⟨asked, lib₁, lib₂, hask, hvisits, hdrop.symm⟩

theorem createWithin_of_visits {lib₁ lib₂ : Library}
    (hask : (askReplacements a (replacementsIn levels)).outcome
      (lib.place parent a ⟨levels, ∅, [], []⟩) = (.ok asked, lib₁))
    (hvisits : (levels.reverse.forM (visit extension (createWithin extension depth (some a))
      a)).outcome lib₁ = (.ok (), lib₂)) :
    (createWithin extension (depth + 1) parent a levels).outcome lib =
      (.ok (), dropReplacements asked lib₂) := by
  rw [createWithin_succ, outcome_modify_bind, onFailure_eq_ok]
  exact bind_eq_ok.2 ⟨asked, lib₁, hask, finally_eq_ok.2 ⟨lib₂, hvisits, rfl⟩⟩

def setAttribute (here : Address) (d : Definition) (target : Path) (v : Except Failure Value) :
    Work Library Unit :=
  if target.tail.isEmpty then return ()
  else do
    let v ← Work.ofExcept v
    let a := here.addInstances target.names.dropLast
    present d.path target.head.pos a
    modify fun lib => { lib with instances := lib.instances.modify a fun i =>
      { i with override := i.override.set (target.names.getLastD "") v } }

theorem statement_value {mark : Token} {value : Assignable}
    (hnew : ∀ word block, value ≠ .new word block) :
    statement extension create here d (.assign target mark value) =
      setAttribute here d target (value.read d.path) := by
  cases value with
  | new word block => exact absurd rfl (hnew word block)
  | string t => rfl
  | physical q => rfl

/-- The statements that make a child: `new` statements for one name. -/
def Creates (s : Simple) : Prop :=
  ∃ target mark word block n, s = .assign target mark (.new word block) ∧ target.names = [n]

theorem statement_new {block : Path} (hn : target.names = [n]) (mark word : Token) :
    statement extension create here d (.assign target mark (.new word block)) =
      chosen extension d target.head.pos (here.addInstance n) block.names >>=
        create (here.addInstance n) := by
  unfold statement
  simp only [hn]
  rfl

theorem statement_plain (hs : ¬Creates s) :
    statement extension create here d s = statement 0 (fun _ _ => pure ()) here d s := by
  cases s with
  | assign target mark value =>
    cases value with
    | new word block =>
      unfold statement
      dsimp only
      split
      · next n hn => exact absurd ⟨_, _, _, _, n, rfl, hn⟩ hs
      · rfl
    | _ => rfl
  | _ => rfl

/-- Looking for a layer on behalf of a statement: what is not found is reported where the
statement stands. -/
def atStatement (d : Definition) (pos : Pos) (w : Work Library Layer) : Work Library Layer :=
  fun lib => match w.outcome lib with
    | (.error (.report r), lib') =>
      if r.kind == .blockNotFound || r.kind == .fileNotFound then
        (.error (.report (r.moved d.path pos)), lib')
      else (.error (.report r), lib')
    | r => r

/-- A failure that is raised where a statement stands, if it says that something is not found. -/
def relocated (d : Definition) (pos : Pos) : Failure → Failure
  | .report r =>
    .report (if r.kind == .blockNotFound || r.kind == .fileNotFound then r.moved d.path pos else r)
  | e => e

theorem outcome_atStatement (d : Definition) (pos : Pos) (w : Work Library Layer) (lib : Library) :
    (atStatement d pos w).outcome lib =
      ((w.outcome lib).1.mapError (relocated d pos), (w.outcome lib).2) := by
  show (match w.outcome lib with
    | (.error (.report r), lib') => _
    | r => r) = _
  rcases w.outcome lib with ⟨(r | f | ⟨m, fs⟩ | c) | l, lib'⟩
  · dsimp only [Except.mapError, relocated]
    split <;> rfl
  all_goals rfl

theorem atStatement_eq_ok :
    (atStatement d pos w).outcome lib = (.ok l, lib') ↔ w.outcome lib = (.ok l, lib') := by
  rw [outcome_atStatement]
  rcases w.outcome lib with ⟨e | l', lib''⟩ <;> simp [Except.mapError]

theorem raises_atStatement {E : Failure → Prop} (hE : ∀ r, E (.report r)) (hw : Raises E w)
    (d : Definition) (pos : Pos) : Raises E (atStatement d pos w) := by
  intro lib e lib' h
  rw [outcome_atStatement] at h
  rcases hout : w.outcome lib with ⟨e' | l, lib''⟩ <;> rw [hout] at h <;> cases h
  cases e' with
  | report r => exact hE _
  | _ => exact hw _ _ _ hout

theorem keeps_atStatement {P : Layer → Prop} {w : Work Library Layer}
    (hw : Keeps I P w) (d : Definition) (pos : Pos) :
    Keeps I P (atStatement d pos w) := by
  intro lib hlib
  refine ⟨?_, fun l hl => hw.result hlib (atStatement_eq_ok.1 (Prod.ext hl rfl))⟩
  rw [outcome_atStatement]
  exact (hw lib hlib).1

theorem chosen_eq (extension : Nat) (d : Definition) (pos : Pos) (a : Address) (block : Reference) :
    chosen extension d pos a block = (do
      match (← get).replaced.get? a with
      | some r => layerWithin extension r
      | none =>
        let found ← Work.ofExcept (match d.lookup block with
          | .error (.fault .missingKey) => .error (.report (.located .unknownName d.path d.pos
              ("Couldn't find ref " ++ block.text)))
          | r => r)
        atStatement d pos (layerWithin extension found)) := rfl

def newBlock (lib : Library) (d : Definition) (a : Address) (block : Reference) :
    Except Failure Address :=
  match lib.replaced.get? a with
  | some r => .ok r
  | none => d.lookup block

theorem chosen_eq_ok {block : Reference} :
    (chosen extension d pos a block).outcome lib = (.ok l, lib') ↔
      ∃ x, lib.newBlock d a block = .ok x ∧
        (layerWithin extension x).outcome lib = (.ok l, lib') := by
  unfold newBlock
  rw [chosen_eq, outcome_get_bind]
  cases lib.replaced.get? a with
  | some r => simp
  | none =>
    simp only [ofExcept_bind_eq_ok, atStatement_eq_ok]
    cases d.lookup block with
    | error e =>
      constructor
      · rintro ⟨x, hx, -⟩
        split at hx <;> cases hx
      · rintro ⟨x, hx, -⟩
        cases hx
    | ok x => exact Iff.rfl

theorem present_eq_ok {file : String} :
    (present file pos a).outcome lib = (.ok (), lib') ↔
      lib' = lib ∧ ∃ i, lib.instances.get? a = some i := by
  unfold present
  rw [outcome_get_bind, ← Option.isSome_iff_exists, ← contains_eq_isSome]
  split
  · next hc => exact ⟨fun h => by cases h; exact ⟨rfl, hc⟩, fun h => by rw [h.1]; rfl⟩
  · next hc => exact ⟨fun h => (nomatch h), fun h => absurd h.2 hc⟩

theorem keeps_chosen (h : ∀ x, Keeps I P (layerWithin extension x))
    (d : Definition) (pos : Pos) (a : Address) (block : Reference) :
    Keeps I P (chosen extension d pos a block) := by
  rw [chosen_eq]
  refine Keeps.get.bind fun lib _ => ?_
  split
  · exact h _
  · exact .ofExcept_bind fun found =>
      keeps_atStatement (h found) d pos

theorem exists_of_mem_replacementsIn (hr : r ∈ replacementsIn levels) :
    ∃ v ∈ levels, ∃ d, v.definition = some d ∧ ∃ e ∈ d.replacements.entries,
      r = (d, e.1, e.2) := by
  obtain ⟨v, hv, hr⟩ := mem_flatMap.1 hr
  split at hr
  · exact absurd hr not_mem_nil
  · next d hd =>
      obtain ⟨e, he, rfl⟩ := mem_map.1 hr
      exact ⟨v, hv, d, hd, e, he, rfl⟩

theorem areNames_of_mem_replacementsIn (hl : Spelled N levels)
    (hr : r ∈ replacementsIn levels) : AreNames r.2.1 ∧ r.2.1 ≠ [] := by
  obtain ⟨v, hv, d, hd, e, he, rfl⟩ := exists_of_mem_replacementsIn hr
  exact (hl v hv d hd).replacements e.1 (mem_map_of_mem he)

/-! ### Properties that each step keeps -/

/-- A property of libraries that each step of a statement keeps, apart from the making of
children. The instances that statements are for are those of which `A` holds, and the names
that statements hold are those of a sort `N`. -/
structure Steady (A : Address → Prop) (I : Library → Prop) (N : Spelling := .names) : Prop where
  layer : ∀ depth x, Keeps I (Spelled N) (layerWithin depth x)
  place : ∀ {lib p n} levels, I lib → A p → N.Holds n →
    I (lib.place (some p) (p.addInstance n) ⟨levels, ∅, [], []⟩)
  override : ∀ {lib p q} name value, I lib → A p → AreNames q →
    I { lib with instances := lib.instances.modify (p.addInstances q) fun i =>
      { i with override := i.override.set name value } }
  link : ∀ {lib p x y} pos, I lib → A p → AreNames x → AreNames y →
    I { lib with instances := lib.instances.modify p fun i =>
      { i with links := i.links ++ [⟨p.addInstances x, p.addInstances y, pos⟩] } }

/-- A property of libraries that each step of making instances keeps. -/
structure Stable (A : Address → Prop) (I : Library → Prop) (N : Spelling := .names) : Prop
    extends Steady A I N where
  below : ∀ {p n}, A p → N.Holds n → A (p.addInstance n)
  forget : ∀ {lib p n}, I lib → A p → N.Holds n → I (lib.forget (p.addInstance n))
  ask : ∀ {lib p q} b, I lib → A p → AreNames q →
    I { lib with replaced := lib.replaced.set (p.addInstances q) b }
  drop : ∀ {lib p q}, I lib → A p → AreNames q →
    I { lib with replaced := lib.replaced.erase (p.addInstances q) }

variable {A : Address → Prop} {I : Library → Prop}

namespace Steady

theorem keeps_placeLeaf (hI : Steady A I N) (hA : A here) (hn : N.Holds n) (b : Builtin) :
    Keeps I (fun a => a = here.addInstance n) (placeLeaf here b n) :=
  (Keeps.modify fun _ h => hI.place b.layer h hA hn).bind fun _ _ => .pure rfl

theorem keeps_side (hI : Steady A I N) (hA : A here) {c : Connectable} (hc : c.Spelled N)
    (path : String) :
    Keeps I (fun a => ∃ q, AreNames q ∧ a = here.addInstances q) (side path here c) := by
  cases c with
  | path p => exact .pure ⟨p.names, fun n hn => N.isName (hc n hn), rfl⟩
  | numbered p dot number =>
    have hp : AreNames p.names := fun n hn => N.isName (hc n hn)
    refine (Keeps.ofExcept fun _ => Token.holds_of_integer N).bind fun n hn => .pure ?_
    exact ⟨p.names ++ [n], hp.concat (N.isName hn), rfl⟩
  | signal s =>
    refine (hI.keeps_placeLeaf hA hc .signal).imp fun a ha => ?_
    exact ⟨[s.name.text], areNames_singleton.2 (N.isName hc), ha⟩
  | pin p =>
    refine (Keeps.ofExcept fun _ => PinDef.holds_of_read hc).bind fun n hn => ?_
    refine (hI.keeps_placeLeaf hA hn .pin).imp fun a ha => ?_
    exact ⟨[n], areNames_singleton.2 (N.isName hn), ha⟩

theorem keeps_present (path : String) (pos : Pos) (a : Address) :
    Guards I (present path pos a) := by
  refine Keeps.get.bind fun lib _ => ?_
  split
  · exact .pure trivial
  · exact .throw _

theorem keeps_setAttribute (hI : Steady A I N) (hA : A here)
    (ht : AreNames target.names) (v : Except Failure Value) :
    Guards I (setAttribute here d target v) := by
  unfold setAttribute
  split
  · exact .pure trivial
  · refine .ofExcept_bind fun v => ?_
    refine (keeps_present _ _ _).bind fun _ _ => .modify fun lib h => hI.override _ _ h hA ?_
    exact fun n hn => ht n (dropLast_subset _ hn)

theorem keeps_statement (hI : Steady A I N) (hA : A here) (hs : s.Spelled N)
    (hcreate : ∀ n l, N.Holds n → Spelled N l → Guards I (create (here.addInstance n) l)) :
    Guards I (statement extension create here d s) := by
  cases s with
  | assign target mark value =>
    cases value with
    | new word block =>
      unfold statement
      dsimp only
      split
      · next n hn =>
          exact (keeps_chosen (hI.layer extension) d _ _ _).bind fun l hl =>
            hcreate n l (hs n (by simp [hn])) hl
      · exact .throw _
    | _ =>
      rw [statement_value]
      · exact hI.keeps_setAttribute hA (fun n hn => N.isName (hs n hn)) _
      · exact fun _ _ h => by cases h
  | connect left mark right =>
    refine (hI.keeps_side hA hs.1 d.path).bind fun source hsource =>
      (hI.keeps_side hA hs.2 d.path).bind fun target htarget => ?_
    obtain ⟨x, hx, rfl⟩ := hsource
    obtain ⟨y, hy, rfl⟩ := htarget
    exact (keeps_present _ _ _).bind fun _ _ => (keeps_present _ _ _).bind fun _ _ =>
      .modify fun lib h => hI.link _ h hA hx hy
  | pin p =>
    exact (Keeps.ofExcept fun _ => PinDef.holds_of_read hs).bind fun n hn =>
      (hI.keeps_placeLeaf hA hn .pin).discard
  | signal t => exact (hI.keeps_placeLeaf hA hs .signal).discard
  | _ => exact .pure trivial

end Steady

namespace Stable

theorem keeps_askReplacements (hI : Stable A I N) (hA : A here)
    {rs : List (Definition × Reference × Replacement)} (hrs : ∀ r ∈ rs, AreNames r.2.1) :
    Keeps I (fun asked => ∀ x ∈ asked, ∃ q, AreNames q ∧ x = here.addInstances q)
      (askReplacements here rs) := by
  induction rs with
  | nil => exact .pure (by simp)
  | cons r rs ih =>
    rw [forall_mem_cons] at hrs
    refine Keeps.get.bind fun lib _ => ?_
    split
    · exact ih hrs.2
    · refine .ofExcept_bind fun b => ?_
      refine (Keeps.modify fun lib h => hI.ask b h hA hrs.1).bind fun _ _ =>
        (ih hrs.2).bind fun asked hasked => .pure ?_
      exact forall_mem_cons.2 ⟨⟨_, hrs.1, rfl⟩, hasked⟩

theorem dropReplacements (hI : Stable A I N) (hA : A here)
    (hasked : ∀ x ∈ asked, ∃ q, AreNames q ∧ x = here.addInstances q) (hlib : I lib) :
    I (dropReplacements asked lib) := by
  induction asked generalizing lib with
  | nil => exact hlib
  | cons x asked ih =>
    rw [forall_mem_cons] at hasked
    obtain ⟨⟨q, hq, rfl⟩, hasked⟩ := hasked
    exact ih hasked (hI.drop hlib hA hq)

theorem keeps_visit (hI : Stable A I N) (hA : A here) {v : Level}
    (hv : ∀ d, v.definition = some d → d.Spelled N)
    (hcreate : ∀ n l, N.Holds n → Spelled N l → Guards I (create (here.addInstance n) l)) :
    Guards I (visit extension create here v) := by
  unfold visit
  split
  · exact .pure trivial
  · next d hd =>
      exact (Keeps.each fun s hs =>
        hI.keeps_statement hA ((hv d hd).statements s hs) hcreate).discard

theorem keeps_fill (hI : Stable A I N) (hA : A here) (hl : Spelled N levels)
    (hcreate : ∀ n l, N.Holds n → Spelled N l → Guards I (create (here.addInstance n) l)) :
    Guards I (fill extension create here levels) := by
  refine (hI.keeps_askReplacements hA fun r hr =>
    (areNames_of_mem_replacementsIn hl hr).1).bind fun asked hasked => ?_
  refine Keeps.finally_ (.forM fun v hv => ?_) fun lib h => hI.dropReplacements hA hasked h
  exact hI.keeps_visit hA (hl v (mem_reverse.1 hv)) hcreate

/-- Making a child keeps what each step keeps. -/
theorem keeps_createWithin (hI : Stable A I N) (extension depth : Nat) {p : Address} (hA : A p)
    (hn : N.Holds n) (hl : Spelled N levels) :
    Guards I (createWithin extension depth (some p) (p.addInstance n) levels) := by
  induction depth generalizing p n levels with
  | zero => exact .throw _
  | succ depth ih =>
    have hchild := hI.below hA hn
    rw [createWithin_succ]
    refine (Keeps.modify fun lib h => hI.place levels h hA hn).bind fun _ _ => ?_
    refine Keeps.onFailure ?_ fun lib h => hI.forget h hA hn
    exact hI.keeps_fill hchild hl fun m l hm hl' => ih hchild hm hl'

theorem keeps_fillWithin (hI : Stable A I N) (extension depth : Nat) (hA : A a)
    (hl : Spelled N levels) :
    Guards I (fill extension (createWithin extension depth (some a)) a levels) :=
  hI.keeps_fill hA hl fun _ _ hn hl' => hI.keeps_createWithin extension depth hA hn hl'

theorem keeps_createRoot (hI : Stable A I N) (extension depth : Nat) (hA : A a)
    (hl : Spelled N levels) (hplace : ∀ lib, I lib → I (lib.place none a ⟨levels, ∅, [], []⟩))
    (hforget : ∀ lib, I lib → I (lib.forget a)) :
    Guards I (createWithin extension depth none a levels) := by
  cases depth with
  | zero => exact .throw _
  | succ depth =>
    rw [createWithin_succ]
    refine (Keeps.modify hplace).bind fun _ _ => .onFailure ?_ hforget
    exact hI.keeps_fillWithin extension depth hA hl

/-- What holds once an instance is placed holds after it could be made. -/
theorem of_createWithin (hI : Stable A I N) (hA : A a) (hl : Spelled N levels)
    (hplaced : I (lib.place parent a ⟨levels, ∅, [], []⟩))
    (h : (createWithin extension depth parent a levels).outcome lib = (.ok (), lib')) : I lib' := by
  cases depth with
  | zero => cases h
  | succ depth =>
    rw [createWithin_succ, outcome_modify_bind, onFailure_eq_ok] at h
    exact (hI.keeps_fillWithin extension depth hA hl).state hplaced h

end Stable

theorem keeps_treeWithin (hlayer : Keeps I P (layerWithin extension a))
    (hcreate : ∀ l, P l → Guards I (createWithin extension nesting none a l)) :
    Guards I (treeWithin extension nesting a) := by
  unfold treeWithin
  split
  · exact .throw _
  · refine Keeps.get.bind fun lib _ => ?_
    split
    · exact .pure trivial
    · exact hlayer.bind hcreate

end Library

/-! ### Sound libraries -/

variable {files : Files} {searched : List Route} {a : Address}

/-- An address that is made of a file or a block and of names. -/
def Address.IsPlace (a : Address) : Prop :=
  ∃ r : Address, ∃ q, r.IsRoot ∧ AreNames q ∧ a = r.addInstances q

theorem Address.IsRoot.isPlace (ha : a.IsRoot) : a.IsPlace :=
  ⟨a, [], ha, areNames_nil, rfl⟩

theorem Address.IsPlace.addInstance (ha : a.IsPlace) (hn : IsName n) :
    (a.addInstance n).IsPlace := by
  obtain ⟨r, q, hr, hq, rfl⟩ := ha
  refine ⟨r, q ++ [n], hr, hq.concat hn, ?_⟩
  rw [addInstances_concat]

theorem Address.IsPlace.not_isRoot_addInstance (ha : a.IsPlace) (hn : IsName n) :
    ¬(a.addInstance n).IsRoot := by
  obtain ⟨r, q, hr, hq, rfl⟩ := ha
  exact hr.not_isRoot_addInstances hq hn

/-- An instance whose children have names and whose links are between instances below
it. -/
structure Instance.SoundAt (i : Instance) (a : Address) : Prop where
  children : AreNames i.children
  links : ∀ k ∈ i.links, ∃ x y, AreNames x ∧ AreNames y ∧ k.source = a.addInstances x ∧
    k.target = a.addInstances y

theorem Builtin.address_of_ofAddress? {b : Builtin}
    (h : Builtin.ofAddress? a = some b) : b.address = a := by
  simpa using find?_some h

theorem Builtin.isRoot_address (b : Builtin) : b.address.IsRoot := by
  refine Or.inr ⟨"<Built-in>".toList, (b.address.text.toList.splitOn ':')[1]?.getD [], ?_⟩
  cases b <;> decide

namespace Library

variable {a : Address} {l levels : Layer} {lib lib' : Library} {extension : Nat}

theorem IsLayer.isRoot (h : IsLayer files searched a l) : a.IsRoot := by
  cases h with
  | @builtin _ b hb =>
    rw [← Builtin.address_of_ofAddress? hb]
    exact b.isRoot_address
  | block _ hd _ _ _ =>
    obtain ⟨hsound, rfl⟩ := sound_of_defined hd
    exact hsound.address

theorem Settled.place (hs : Settled files searched lib) (parent : Option Address) (a : Address)
    (i : Instance) : Settled files searched (lib.place parent a i) := by
  cases parent with
  | none => exact hs.congr _ _
  | some p => exact hs.congr _ _

/-- A property of settled libraries that depends on nothing but the replacements that they know is
kept by each step of a statement. -/
theorem steady_of_replaced (hsettled : ∀ {lib}, I lib → Settled files searched lib)
    (hI : ∀ {lib lib'}, I lib → Settled files searched lib' → lib'.replaced = lib.replaced →
      I lib') : Steady (fun _ => True) I where
  layer depth x := (Settled.keeps_layerWithin_of hsettled (fun h hs _ => hI h hs) depth x).imp
    fun _ h => h.sound
  place _ h _ _ := hI h ((hsettled h).place _ _ _) rfl
  override _ _ h _ _ := hI h ((hsettled h).congr _ _) rfl
  link _ h _ _ _ := hI h ((hsettled h).congr _ _) rfl

/-- A settled library whose instances are sound. Roots are made of what the files say, and all
other instances have words as names. -/
structure Sound (files : Files) (searched : List Route) (lib : Library) : Prop where
  settled : Settled files searched lib
  instances : ∀ a i, lib.instances.get? a = some i → a.IsPlace ∧ i.SoundAt a
  origin : ∀ a i, lib.instances.get? a = some i →
    IsLayer files searched a i.levels ∨ ¬a.IsRoot ∧ IsWord a.name

theorem sound_fresh : Sound files searched { files, searched } := ⟨settled_fresh, nofun, nofun⟩

theorem Sound.congr (hs : Sound files searched lib) (h : Settled files searched lib')
    (hinstances : lib'.instances = lib.instances) : Sound files searched lib' :=
  ⟨h, hinstances ▸ hs.instances, hinstances ▸ hs.origin⟩

/-- A change of what is known of one instance. -/
theorem Sound.modify (hs : Sound files searched lib) (hlevels : ∀ i, (f i).levels = i.levels)
    (hf : ∀ i, i.SoundAt a → (f i).SoundAt a) :
    Sound files searched { lib with instances := lib.instances.modify a f } := by
  have hget : ∀ k i, (lib.instances.modify a f).get? k = some i →
      ∃ j, lib.instances.get? k = some j ∧ i.levels = j.levels ∧ (j.SoundAt k → i.SoundAt k) := by
    intro k i hk
    by_cases hka : k = a
    · subst hka
      rw [get?_modify_self] at hk
      obtain ⟨j, hj, rfl⟩ := Option.map_eq_some_iff.1 hk
      exact ⟨j, hj, hlevels j, hf j⟩
    · rw [get?_modify_of_ne _ _ hka] at hk
      exact ⟨i, hk, rfl, id⟩
  refine ⟨hs.settled.congr _ lib.replaced, fun k i hk => ?_, fun k i hk => ?_⟩
  · obtain ⟨j, hj, -, hsound⟩ := hget k i hk
    exact ⟨(hs.instances k j hj).1, hsound (hs.instances k j hj).2⟩
  · obtain ⟨j, hj, hl, -⟩ := hget k i hk
    exact hl ▸ hs.origin k j hj

theorem Sound.placeAlone (hs : Sound files searched lib) (ha : a.IsPlace)
    (horigin : IsLayer files searched a levels ∨ ¬a.IsRoot ∧ IsWord a.name) :
    Sound files searched (lib.place none a ⟨levels, ∅, [], []⟩) := by
  have hget : ∀ k i, (lib.instances.set a ⟨levels, ∅, [], []⟩).get? k = some i →
      (k = a ∧ i = ⟨levels, ∅, [], []⟩) ∨ lib.instances.get? k = some i := by
    intro k i hk
    by_cases hka : k = a
    · subst hka
      rw [get?_set_self] at hk
      exact Or.inl ⟨rfl, (Option.some.inj hk).symm⟩
    · rw [get?_set_of_ne _ _ hka] at hk
      exact Or.inr hk
  refine ⟨hs.settled.congr _ lib.replaced, fun k i hk => ?_, fun k i hk => ?_⟩
  · rcases hget k i hk with ⟨rfl, rfl⟩ | hk
    · exact ⟨ha, areNames_nil, fun _ h => absurd h not_mem_nil⟩
    · exact hs.instances k i hk
  · rcases hget k i hk with ⟨rfl, rfl⟩ | hk
    · exact horigin
    · exact hs.origin k i hk

theorem Sound.forget (hs : Sound files searched lib) (a : Address) :
    Sound files searched (lib.forget a) := by
  have hget : ∀ k i, (lib.instances.erase a).get? k = some i →
      lib.instances.get? k = some i := by
    intro k i hk
    rw [get?_erase] at hk
    split at hk
    · cases hk
    · exact hk
  exact ⟨hs.settled.congr _ lib.replaced, fun k i hk => hs.instances k i (hget k i hk),
    fun k i hk => hs.origin k i (hget k i hk)⟩

theorem Sound.keeps_layerWithin (files : Files) (searched : List Route) (depth : Nat)
    (a : Address) :
    Keeps (Sound files searched) (IsLayer files searched a) (Library.layerWithin depth a) :=
  Settled.keeps_layerWithin_of (·.settled) (fun h hs hi _ => h.congr hs hi) depth a

theorem stable_sound (files : Files) (searched : List Route) :
    Stable IsPlace (Sound files searched) .words where
  below hp hn := hp.addInstance hn.isName
  layer depth x := (Sound.keeps_layerWithin files searched depth x).imp fun _ h => h.spelled id
  place {lib p n} levels hs hp hn := by
    have hname := name_addInstance p hn.isName
    have horigin := And.intro (hp.not_isRoot_addInstance hn.isName) (hname.symm ▸ hn)
    refine (hs.placeAlone (hp.addInstance hn.isName) (.inr horigin)).modify (fun i => ?_)
      fun i hi => ?_
    · split <;> rfl
    · split
      · exact hi
      · refine ⟨areNames_append.2 ⟨hi.children, ?_⟩, hi.links⟩
        rw [hname]
        exact areNames_singleton.2 hn.isName
  forget hs _ _ := hs.forget _
  override name value hs _ _ := hs.modify (fun _ => rfl) fun i hi => ⟨hi.children, hi.links⟩
  link pos hs _ hx hy := by
    refine hs.modify (fun _ => rfl) fun i hi => ⟨hi.children, fun k hk => ?_⟩
    rcases mem_append.1 hk with hk | hk
    · exact hi.links k hk
    · cases mem_singleton.1 hk
      exact ⟨_, _, hx, hy, rfl, rfl⟩
  ask b hs _ _ := hs.congr (hs.settled.congr _ _) rfl
  drop hs _ _ := hs.congr (hs.settled.congr _ _) rfl

theorem Sound.keeps_treeWithin (extension nesting : Nat) (a : Address) :
    Guards (Sound files searched) (treeWithin extension nesting a) := by
  refine Library.keeps_treeWithin (Sound.keeps_layerWithin files searched extension a) fun l hl => ?_
  exact (stable_sound files searched).keeps_createRoot extension nesting hl.isRoot.isPlace
    (hl.spelled id) (fun lib hs => hs.placeAlone hl.isRoot.isPlace (.inl hl))
    fun lib hs => hs.forget a

/-! ### What an instance is made of -/

theorem levels_get?_modify (hf : ∀ i, (f i).levels = i.levels) (t : Table Address Instance)
    (a k : Address) :
    ((t.modify a f).get? k).map Instance.levels = (t.get? k).map Instance.levels := by
  rw [get?_modify]
  split
  · rw [Option.map_map]
    congr 1
    exact funext hf
  · rfl

theorem levels_get?_place (lib : Library) (parent : Option Address) (a k : Address) (i : Instance) :
    ((lib.place parent a i).instances.get? k).map Instance.levels =
      ((lib.instances.set a i).get? k).map Instance.levels := by
  cases parent with
  | none => rfl
  | some p =>
    refine levels_get?_modify (fun q => ?_) _ _ _
    split <;> rfl

theorem replaced_place (lib : Library) (parent : Option Address) (a : Address) (i : Instance) :
    (lib.place parent a i).replaced = lib.replaced := by
  cases parent <;> rfl

/-- What an instance is made of stays while instances are made whose addresses are
longer. -/
theorem stable_levels (files : Files) (searched : List Route) (k : Address) (l : Option Layer) :
    Stable (fun p => k.text.toList.length ≤ p.text.toList.length) fun lib =>
      Settled files searched lib ∧ (lib.instances.get? k).map Instance.levels = l where
  below hp _ := Nat.le_of_lt (Nat.lt_of_le_of_lt hp (length_lt_addInstance _ _))
  layer depth x := by
    refine (Settled.keeps_layerWithin_of And.left ?_ depth x).imp fun _ h => h.sound
    exact fun h hs hi _ => ⟨hs, hi ▸ h.2⟩
  place {lib p n} levels h hp _ := by
    refine ⟨h.1.congr _ lib.replaced, ?_⟩
    have hne : k ≠ p.addInstance n := by
      rintro rfl
      exact absurd hp (Nat.not_le_of_lt (length_lt_addInstance p n))
    rw [levels_get?_place, get?_set_of_ne _ _ hne, h.2]
  forget {lib p n} h hp _ := by
    refine ⟨h.1.congr _ lib.replaced, ?_⟩
    have hne : k ≠ p.addInstance n := by
      rintro rfl
      exact absurd hp (Nat.not_le_of_lt (length_lt_addInstance p n))
    rw [Library.forget, get?_erase_of_ne _ hne, h.2]
  override {lib p q} name value h _ _ := by
    refine ⟨h.1.congr _ lib.replaced, Eq.trans ?_ h.2⟩
    refine levels_get?_modify (fun i => ?_) _ _ _
    rfl
  link {lib p x y} pos h _ _ _ := by
    refine ⟨h.1.congr _ lib.replaced, Eq.trans ?_ h.2⟩
    refine levels_get?_modify (fun i => ?_) _ _ _
    rfl
  ask {lib _ _} b h _ _ := ⟨h.1.congr lib.instances _, h.2⟩
  drop {lib _ _} h _ _ := ⟨h.1.congr lib.instances _, h.2⟩

theorem levels_of_createWithin {depth : Nat} (hs : Settled files searched lib)
    (hl : Layer.Sound levels)
    (h : (createWithin extension depth parent a levels).outcome lib = (.ok (), lib')) :
    (lib'.instances.get? a).map Instance.levels = some levels := by
  have hlevels : ((lib.place parent a ⟨levels, ∅, [], []⟩).instances.get? a).map
      Instance.levels = some levels := by
    rw [levels_get?_place, get?_set_self]
    rfl
  exact ((stable_levels files searched a (some levels)).of_createWithin (Nat.le_refl _) hl
    ⟨hs.place _ _ _, hlevels⟩ h).2

theorem treeWithin_eq_ok (h : (treeWithin extension nesting a).outcome lib = (.ok (), lib')) :
    lib.instances.contains a ∧ lib' = lib ∨
      ¬lib.instances.contains a ∧ ∃ l lib₁, (layerWithin extension a).outcome lib = (.ok l, lib₁) ∧
        (createWithin extension nesting none a l).outcome lib₁ = (.ok (), lib') := by
  unfold treeWithin at h
  split at h
  · cases h
  · rw [outcome_get_bind] at h
    split at h
    · next hc =>
        cases h
        exact .inl ⟨hc, rfl⟩
    · next hc => exact .inr ⟨hc, bind_eq_ok.1 h⟩

theorem contains_of_treeWithin (hs : Settled files searched lib)
    (h : (treeWithin extension nesting a).outcome lib = (.ok (), lib')) :
    (lib'.instances.get? a).isSome := by
  obtain ⟨hc, rfl⟩ | ⟨-, l, lib₁, hl, hcreate⟩ := treeWithin_eq_ok h
  · rwa [contains_eq_isSome] at hc
  · have hkeep := Settled.keeps_layerWithin files searched extension a
    have hlevels := levels_of_createWithin (hkeep.state hs hl) (hkeep.result hs hl).sound hcreate
    rw [← Option.isSome_map, hlevels]
    rfl

end Library

end Boardwright
