import Boardwright.Proofs.Syntax.Unplaced
import Boardwright.Proofs.Work.InStep

/-!
# What statements do

A statement does something for an instance: it makes a child, sets an attribute, links two
instances, or makes a pin or a signal. This is the `Deed` of the statement, and it is all that is
needed to carry it out: `statement_eq`. Statements whose deeds are `Alike` differ only in how they
fail. Those that are the same but for their positions have such deeds: `Simple.deed_alike`.
-/

namespace Boardwright

open Syntax Failure

variable {X : Failure → Prop} {file file' : String} {m : Failure → Failure} {α : Type}
  {g : Pos → Pos}

theorem Accord.and_ok {γ : Type} {E : Failure → Failure → Prop} {Q : α → γ → Prop} {K : α → Prop}
    {r : Except Failure α} {r' : Except Failure γ} (h : Accord X E Q r r')
    (hK : ∀ x, r = .ok x → K x) : Accord X E (fun x y => Q x y ∧ K x) r r' := by
  cases h with
  | ok hxy => exact .ok ⟨hxy, hK _ rfl⟩
  | failed he => exact .failed he
  | excused he => exact .excused he

theorem Accord.same (r : Except Failure α) : Accord X Eq Eq r r := by
  cases r with
  | ok x => exact .ok rfl
  | error e => exact .failed rfl

theorem SameOk.accord {r r' : Except Failure α} (h : SameOk r r') (hX : ∀ e, X e) :
    Accord X Eq Eq r r' := by
  cases r with
  | error e => exact .excused (hX e)
  | ok x =>
    rw [h.ok rfl]
    exact .ok rfl

/-! ### The sides of a connection -/

def Link.ends (l : Link) : Address × Address := (l.source, l.target)

/-- What a side of a connection says: names of an instance, or a pin or a signal that it makes. -/
inductive Side
  | path (names : List String)
  | leaf (b : Builtin) (hb : b = .pin ∨ b = .signal) (name : String)

namespace Side

def names : Side → List String
  | .path names => names
  | .leaf _ _ name => [name]

def address (here : Address) (x : Side) : Address := here.addInstances x.names

end Side

def Syntax.Connectable.read (file : String) : Connectable → Except Failure Side
  | .path p => .ok (.path p.names)
  | .numbered p _ number => (number.integer file).map fun n => .path (p.names ++ [n])
  | .signal s => .ok (.leaf .signal (.inr rfl) s.name.text)
  | .pin p => (p.label.read file).map (.leaf .pin (.inl rfl))

theorem Syntax.Connectable.read_carry (hm : Moves m file file' g) (k : Connectable) :
    Moved m (k.read file) ((k.carry g).read file') := by
  cases k with
  | path p =>
    rw [carry, read, read, Path.names_carry]
    exact .ok _
  | numbered p dot number =>
    rw [carry, read, read, Path.names_carry]
    exact (number.integer_carry hm).map _
  | signal s => exact .ok _
  | pin p => exact (p.label.read_carry hm).map _

theorem Syntax.Connectable.read_sameOk {k k' : Connectable} (h : k.unplaced = k'.unplaced)
    (file file' : String) : SameOk (k.read file) (k'.read file') := by
  have hk := (k.read_carry (moves_moved file "" default)).sameOk
  have hk' := (k'.read_carry (moves_moved file' "" default)).sameOk
  exact (hk.trans (congrArg (·.read "") h ▸ .refl _)).trans hk'.symm

theorem Syntax.Connectable.Sound.names {k : Connectable} (hk : k.Sound) {x : Side}
    (hx : k.read file = .ok x) : AreNames x.names := by
  cases k with
  | path p =>
    cases hx
    exact hk
  | numbered p dot number =>
    rw [read] at hx
    cases hn : number.integer file with
    | error e => rw [hn] at hx; cases hx
    | ok n =>
      rw [hn] at hx
      cases hx
      have hp : AreNames p.names := hk
      exact hp.concat (Token.holds_of_integer .names hn)
  | signal s =>
    cases hx
    exact areNames_singleton.2 hk
  | pin p =>
    rw [read] at hx
    cases hn : p.label.read file with
    | error e => rw [hn] at hx; cases hx
    | ok n =>
      rw [hn] at hx
      cases hx
      exact areNames_singleton.2 (PinDef.holds_of_read hk hn)

/-! ### Deeds -/

/-- What a statement does for an instance, as far as it can be read. -/
inductive Deed
  | nothing
  | new (names : List String) (block : Reference)
  | set (names : List String) (value : Except Failure Value)
  | connect (left right : Except Failure Side)
  | leaf (x : Except Failure Side)

def Syntax.Simple.deed (file : String) : Simple → Deed
  | .assign target _ (.new _ block) => .new target.names block.names
  | .assign target _ value =>
    if target.tail.isEmpty then .nothing else .set target.names (value.read file)
  | .connect left _ right => .connect (left.read file) (right.read file)
  | .pin p => .leaf ((Connectable.pin p).read file)
  | .signal s => .leaf ((Connectable.signal s).read file)
  | _ => .nothing

namespace Deed

/-- Deeds that differ only in how they fail. -/
inductive Alike (X : Failure → Prop) (E : Failure → Failure → Prop) : Deed → Deed → Prop
  | nothing : Alike X E .nothing .nothing
  | new (names : List String) (block : Reference) : Alike X E (.new names block) (.new names block)
  | set (names : List String) {v v' : Except Failure Value} (hv : Accord X E Eq v v') :
    Alike X E (.set names v) (.set names v')
  | connect {x x' y y' : Except Failure Side} (hx : Accord X E Eq x x')
    (hy : Accord X E Eq y y') : Alike X E (.connect x y) (.connect x' y')
  | leaf {x x' : Except Failure Side} (hx : Accord X E Eq x x') : Alike X E (.leaf x) (.leaf x')

theorem alike_self (a : Deed) : Alike X Eq a a := by
  cases a with
  | nothing => exact .nothing
  | new names block => exact .new names block
  | set names v => exact .set names (.same v)
  | connect x y => exact .connect (.same x) (.same y)
  | leaf x => exact .leaf (.same x)

def mapError (m : Failure → Failure) : Deed → Deed
  | .set names value => .set names (value.mapError m)
  | .connect left right => .connect (left.mapError m) (right.mapError m)
  | .leaf x => .leaf (x.mapError m)
  | a => a

theorem alike_of_mapError (hX : ∀ e, X e) {a a' : Deed} (h : a.mapError m = a'.mapError m) :
    a.Alike X Eq a' := by
  have hsame : ∀ {α : Type} {r r' : Except Failure α}, r.mapError m = r'.mapError m →
      Accord X Eq Eq r r' := fun {_ r r'} hr =>
    SameOk.accord ((SameOk.mapError r m).trans (hr ▸ (SameOk.mapError r' m).symm)) hX
  cases a <;> cases a' <;> first | cases h | skip
  case nothing.nothing => exact .nothing
  case new.new => exact .new _ _
  case set.set =>
    obtain ⟨rfl, hv⟩ := Deed.set.inj h
    exact .set _ (hsame hv)
  case connect.connect =>
    obtain ⟨hx, hy⟩ := Deed.connect.inj h
    exact .connect (hsame hx) (hsame hy)
  case leaf.leaf => exact .leaf (hsame (Deed.leaf.inj h))

def Named (N : String → Prop) : Deed → Prop
  | .nothing => True
  | .new names _ => ∀ n ∈ names, N n
  | .set names _ => ∀ n ∈ names, N n
  | .connect left right =>
    (∀ x, left = .ok x → ∀ n ∈ x.names, N n) ∧ ∀ x, right = .ok x → ∀ n ∈ x.names, N n
  | .leaf x => ∀ y, x = .ok y → ∀ n ∈ y.names, N n

theorem named_true (a : Deed) : a.Named fun _ => True := by
  cases a <;> simp [Named]

end Deed

namespace Syntax.Simple

/-- A statement that stands elsewhere does the same, and fails elsewhere. -/
theorem deed_carry {m : Failure → Failure} {file : String}
    (hm : Moves m file file' g) (s : Simple) :
    (s.carry g).deed file' = (s.deed file).mapError m := by
  cases s with
  | assign target mark value =>
    have hread : (value.carry g).read file' = (value.read file).mapError m := value.read_carry hm
    cases value with
    | new word block => simp [carry, Assignable.carry, deed, Deed.mapError]
    | _ =>
      rw [Assignable.carry] at hread
      simp only [carry, Assignable.carry, deed, Path.isEmpty_tail_carry, Path.names_carry, hread]
      split <;> rfl
  | connect left mark right =>
    exact congrArg₂ Deed.connect (left.read_carry hm) (right.read_carry hm)
  | pin p => exact congrArg Deed.leaf ((Connectable.pin p).read_carry hm)
  | _ => rfl

/-- Statements that are the same but for their positions do the same, if they succeed. -/
theorem deed_alike (hX : ∀ e, X e) {s s' : Simple} (h : s.unplaced = s'.unplaced)
    (file file' : String) : (s.deed file).Alike X Eq (s'.deed file') := by
  refine Deed.alike_of_mapError hX (?_ : Deed.mapError (Failure.moved "" default) _ = _)
  rw [← deed_carry (moves_moved file "" default), ← deed_carry (moves_moved file' "" default)]
  exact congrArg (deed "") h

theorem Sound.named {s : Simple} (hs : s.Sound) (file : String) : (s.deed file).Named IsName := by
  cases s with
  | assign target mark value =>
    cases value with
    | new word block => exact hs
    | _ =>
      rw [deed]
      · split
        · trivial
        · exact hs
      · exact fun _ _ h => by cases h
  | connect left mark right => exact ⟨fun _ => Connectable.Sound.names hs.1, fun _ => Connectable.Sound.names hs.2⟩
  | pin p => exact fun _ hx => Connectable.Sound.names (k := .pin p) hs hx
  | signal p => exact fun _ hx => Connectable.Sound.names (k := .signal p) hs hx
  | _ => trivial

end Syntax.Simple

namespace Library

def withSide (here : Address) : Side → Library → Library
  | .path _, lib => lib
  | .leaf b _ name, lib => lib.place (some here) (here.addInstance name) ⟨b.layer, ∅, [], []⟩

def make (here : Address) (x : Except Failure Side) : Work Library Address := do
  let x ← Work.ofExcept x
  modify (withSide here x)
  return x.address here

theorem side_eq (file : String) (here : Address) (k : Connectable) :
    side file here k = make here (k.read file) := by
  cases k with
  | path p => rfl
  | numbered p dot number =>
    rw [side, Connectable.read]
    cases number.integer file <;> rfl
  | signal p => rfl
  | pin p =>
    rw [side, Connectable.read]
    cases p.label.read file <;> rfl

def perform (extension : Nat) (create : Address → Layer → Work Library Unit) (here : Address)
    (d : Definition) (pos : Pos) : Deed → Work Library Unit
  | .nothing => return ()
  | .new names block =>
    match names with
    | [name] => do
      create (here.addInstance name) (← chosen extension d pos (here.addInstance name) block)
    | _ => throw (.general "Cannot assign a new object to a multi-part reference")
  | .set names value => do
    let v ← Work.ofExcept value
    present d.path pos (here.addInstances names.dropLast)
    modify fun lib => { lib with
      instances := lib.instances.modify (here.addInstances names.dropLast) fun i =>
        { i with override := i.override.set (names.getLastD "") v } }
  | .connect left right => do
    let source ← make here left
    let target ← make here right
    present d.path pos source
    present d.path pos target
    modify fun lib => { lib with instances := lib.instances.modify here fun i =>
      { i with links := i.links ++ [⟨source, target, pos⟩] } }
  | .leaf x => discard (make here x)

theorem statement_eq (extension : Nat) (create : Address → Layer → Work Library Unit)
    (here : Address) (d : Definition) (s : Simple) :
    statement extension create here d s =
      perform extension create here d s.start.pos (s.deed d.path) := by
  cases s with
  | assign target mark value =>
    cases value with
    | new word block => rfl
    | _ =>
      rw [statement_value, setAttribute, Simple.deed]
      · split <;> rfl
      all_goals exact fun _ _ h => by cases h
  | connect left mark right =>
    rw [Simple.deed, perform, ← side_eq, ← side_eq]
    rfl
  | pin p =>
    rw [statement, Simple.deed, perform, Connectable.read]
    cases p.label.read d.path <;> rfl
  | signal p => rfl
  | _ => rfl

end Library

end Boardwright
