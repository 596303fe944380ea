import Boardwright.Proofs.Design.Assignments

/-!
# Statements without their positions

A statement says the same wherever it stands. `carry` puts the tokens of a statement elsewhere, and
`unplaced` forgets where they stand; what a statement that can be read says does not change by
this, and neither does it depend on the file that failures are reported for. Only failures tell
positions and files apart, and they move along with the tokens: `Assignable.read_carry`.
-/

namespace Boardwright

theorem eq_ok_of_toOption {ε α : Type} {r : Except ε α} {x : α} (h : r.toOption = some x) :
    r = .ok x := by
  cases r with
  | error e => cases h
  | ok y =>
    cases h
    rfl

/-- Results that are the same, or both missing. -/
def SameOk {α : Type} (r r' : Except Failure α) : Prop := r.toOption = r'.toOption

namespace SameOk

variable {α β : Type} {r r' : Except Failure α} {k k' : α → Except Failure β}

theorem refl (r : Except Failure α) : SameOk r r := rfl

theorem trans {r'' : Except Failure α} (h : SameOk r r') (h' : SameOk r' r'') : SameOk r r'' :=
  Eq.trans h h'

theorem symm (h : SameOk r r') : SameOk r' r := Eq.symm h

theorem ok {x : α} (h : SameOk r r') (hr : r = .ok x) : r' = .ok x := by
  subst hr
  exact eq_ok_of_toOption (Eq.symm h)

theorem bind (h : SameOk r r') (hk : ∀ x, SameOk (k x) (k' x)) :
    SameOk (r >>= k) (r' >>= k') := by
  cases r with
  | error e =>
    cases r' with
    | error e' => rfl
    | ok y => cases h
  | ok x =>
    rw [h.ok rfl]
    exact hk x

theorem mapError (r : Except Failure α) (m : Failure → Failure) : SameOk r (r.mapError m) := by
  cases r <;> rfl

end SameOk

/-- Results that are the same, or failures of which the second one is the first one changed by
`m`. -/
def Moved {α : Type} (m : Failure → Failure) (r r' : Except Failure α) : Prop := r' = r.mapError m

namespace Moved

variable {α β : Type} {m : Failure → Failure} {r r' : Except Failure α}
  {k k' : α → Except Failure β}

theorem ok (x : α) : Moved m (.ok x) (.ok x) := rfl

theorem sameOk (h : Moved m r r') : SameOk r r' := h ▸ .mapError r m

theorem bind (h : Moved m r r') (hk : ∀ x, Moved m (k x) (k' x)) :
    Moved m (r >>= k) (r' >>= k') := by
  subst h
  cases r with
  | error e => rfl
  | ok x => exact hk x

theorem map (h : Moved m r r') (f : α → β) : Moved m (r.map f) (r'.map f) :=
  h.bind fun _ => .ok _

theorem ite {b b' : Bool} {x x' y y' : Except Failure α} (hb : b = b') (hx : Moved m x x')
    (hy : Moved m y y') : Moved m (if b then x else y) (if b' then x' else y') := by
  subst hb
  cases b with
  | true => exact hx
  | false => exact hy

end Moved

/-- What changes a failure if the file and the positions that it is reported for change. -/
structure Failure.Moves (m : Failure → Failure) (file file' : String) (g : Pos → Pos) : Prop where
  located : ∀ kind pos message, m (.report (.located kind file pos message)) =
    .report (.located kind file' (g pos) message)
  fault : ∀ f, m (.fault f) = .fault f

namespace Failure.Moves

variable {α : Type} {m : Failure → Failure} {file file' : String} {g : Pos → Pos}

theorem moved_located (hm : Moves m file file' g) (kind : Report.Kind) (pos : Pos)
    (message : String) : Moved m (.error (.report (.located kind file pos message)) : Except Failure α)
      (.error (.report (.located kind file' (g pos) message))) :=
  congrArg Except.error (hm.located kind pos message).symm

theorem moved_fault (hm : Moves m file file' g) (f : Fault) :
    Moved m (.error (.fault f) : Except Failure α) (.error (.fault f)) :=
  congrArg Except.error (hm.fault f).symm

end Failure.Moves

def Failure.moved (file : String) (pos : Pos) : Failure → Failure
  | .report r => .report (r.moved file pos)
  | e => e

theorem Failure.moves_moved (file file' : String) (pos : Pos) :
    Moves (moved file' pos) file file' fun _ => pos := ⟨fun _ _ _ => rfl, fun _ => rfl⟩

namespace Syntax

/-! ### Positions that change -/

section

variable (g : Pos → Pos)

def Token.carry (t : Token) : Token := { t with pos := g t.pos }

def Path.carry (p : Path) : Path :=
  ⟨p.head.carry g, p.tail.map fun n => (n.1.carry g, n.2.carry g)⟩

def PinLabel.carry : PinLabel → PinLabel
  | .name t => .name (t.carry g)
  | .number t => .number (t.carry g)

def PinDef.carry (p : PinDef) : PinDef := ⟨p.word.carry g, p.label.carry g⟩

def SignalDef.carry (s : SignalDef) : SignalDef := ⟨s.word.carry g, s.name.carry g⟩

/-- One side of a connection with other positions. -/
def Connectable.carry : Connectable → Connectable
  | .path p => .path (p.carry g)
  | .numbered p dot number => .numbered (p.carry g) (dot.carry g) (number.carry g)
  | .signal s => .signal (s.carry g)
  | .pin p => .pin (p.carry g)

/-- A number with a unit with other positions. -/
def Measure.carry (m : Measure) : Measure := ⟨m.number.carry g, m.unit.map (Token.carry g)⟩

def Tolerance.carry (t : Tolerance) : Tolerance := ⟨t.number.carry g, t.unit.map (Token.carry g)⟩

/-- A quantity with other positions. -/
def Physical.carry : Physical → Physical
  | .bound low word high => .bound (low.carry g) (word.carry g) (high.carry g)
  | .bilateral nominal mark tolerance =>
    .bilateral (nominal.carry g) (mark.carry g) (tolerance.carry g)
  | .implicit m => .implicit (m.carry g)

def Assignable.carry : Assignable → Assignable
  | .string t => .string (t.carry g)
  | .new word block => .new (word.carry g) (block.carry g)
  | .physical p => .physical (p.carry g)

/-- A statement with other positions. -/
def Simple.carry : Simple → Simple
  | .importing word what source file =>
    .importing (word.carry g) (what.carry g) (source.carry g) (file.carry g)
  | .assign target mark value => .assign (target.carry g) (mark.carry g) (value.carry g)
  | .connect left mark right => .connect (left.carry g) (mark.carry g) (right.carry g)
  | .retype target mark block => .retype (target.carry g) (mark.carry g) (block.carry g)
  | .pin p => .pin (p.carry g)
  | .signal s => .signal (s.carry g)
  | .doc t => .doc (t.carry g)
  | .equation t => .equation (t.carry g)

def Header.carry (h : Header) : Header :=
  ⟨h.word.carry g, h.name.carry g, h.parent.map fun p => (p.1.carry g, p.2.carry g),
    h.colon.carry g⟩

end

/-! ### Positions forgotten -/

abbrev Token.unplaced (t : Token) : Token := t.carry fun _ => default

abbrev Path.unplaced (p : Path) : Path := p.carry fun _ => default

abbrev PinDef.unplaced (p : PinDef) : PinDef := p.carry fun _ => default

abbrev SignalDef.unplaced (s : SignalDef) : SignalDef := s.carry fun _ => default

/-- One side of a connection without its positions. -/
abbrev Connectable.unplaced (k : Connectable) : Connectable := k.carry fun _ => default

abbrev Assignable.unplaced (v : Assignable) : Assignable := v.carry fun _ => default

/-- A statement without its positions. -/
abbrev Simple.unplaced (s : Simple) : Simple := s.carry fun _ => default

abbrev Header.unplaced (h : Header) : Header := h.carry fun _ => default

/-! ### What is read -/

section

variable {α : Type} {g : Pos → Pos} {m : Failure → Failure} {file file' : String}

@[simp]
theorem Token.text_carry (t : Token) : (t.carry g).text = t.text := rfl

@[simp]
theorem Token.kind_carry (t : Token) : (t.carry g).kind = t.kind := rfl

@[simp]
theorem Path.names_carry (p : Path) : (p.carry g).names = p.names := by
  simp [names, carry]

@[simp]
theorem Path.isEmpty_tail_carry (p : Path) : (p.carry g).tail.isEmpty = p.tail.isEmpty := by
  simp [carry]

variable (hm : Failure.Moves m file file' g)

include hm

theorem Token.integer_carry (t : Token) : Moved m (t.integer file) ((t.carry g).integer file') :=
  .ite rfl (.ok _) (hm.moved_located _ _ _)

theorem PinLabel.read_carry (l : PinLabel) : Moved m (l.read file) ((l.carry g).read file') := by
  cases l with
  | name t => rfl
  | number t => exact t.integer_carry hm

theorem Token.unit_carry (t : Token) : Moved m (t.unit file) ((t.carry g).unit file') := by
  unfold Token.unit
  rw [text_carry]
  split
  · rfl
  · exact hm.moved_located _ _ _

variable (ar : Arithmetic α)

theorem Token.number_carry (t : Token) : Moved m (t.number ar) ((t.carry g).number ar) := by
  unfold Token.number
  rw [text_carry]
  split
  · rfl
  · exact hm.moved_fault _

theorem Measure.read_carry (x : Measure) :
    Moved m (x.read ar file) ((x.carry g).read ar file') := by
  refine (x.number.number_carry hm ar).bind fun value => ?_
  obtain ⟨number, unit⟩ := x
  cases unit with
  | none => rfl
  | some t => exact ((t.unit_carry hm).map some).bind fun _ => .ok _

theorem converted_carry (t : Token) (u v : MeasureUnit) (x : α) :
    Moved m (converted ar file t u v x) (converted ar file' (t.carry g) u v x) := by
  unfold converted
  split
  · rfl
  · exact hm.moved_fault _
  · exact hm.moved_located _ _ _

theorem Physical.spread_carry [OfNat α 100] [OfNat α 1000000] (p : Physical) :
    Moved m (p.spread ar file) ((p.carry g).spread ar file') := by
  cases p with
  | implicit x => exact (x.read_carry hm ar).bind fun _ => .ok _
  | bilateral x mark tolerance =>
    refine (x.read_carry hm ar).bind fun nominal => ?_
    refine (tolerance.number.number_carry hm ar).bind fun size => ?_
    obtain ⟨number, unit⟩ := tolerance
    cases unit with
    | none => rfl
    | some t =>
      refine .ite rfl (.ok _) (.ite rfl (.ok _) ?_)
      exact (t.unit_carry hm).bind fun own =>
        (converted_carry hm ar t own _ size).bind fun _ => .ok _
  | bound x mark y =>
    refine (x.read_carry hm ar).bind fun low => (y.read_carry hm ar).bind fun high => ?_
    rcases low with ⟨low, _ | u⟩ <;> rcases high with ⟨high, _ | v⟩
    · rfl
    · rfl
    · rfl
    · exact (converted_carry hm ar x.number v u high).bind fun _ => .ok _

theorem Assignable.read_carry (v : Assignable) :
    Moved m (v.read file) ((v.carry g).read file') := by
  cases v with
  | string t => rfl
  | new word block => exact hm.moved_fault _
  | physical p => exact ((p.spread_carry hm _).bind fun _ => .ok _).map _

end

theorem Simple.sets_unplaced (s : Simple) (file file' : String) (path : List String)
    (key : String) : s.unplaced.sets file' path key = s.sets file path key := by
  cases s with
  | assign target mark value =>
    have hread := (value.read_carry (Failure.moves_moved file file' default)).sameOk
    cases value with
    | new word block => rfl
    | string t => simp [Simple.sets, Simple.carry, Assignable.carry, Assignable.read, Token.content]
    | physical p =>
      simp only [Simple.sets, Simple.carry, Assignable.carry, Path.names_carry]
      rw [← Assignable.carry, hread]
  | _ => rfl

/-! ### Statements that say the same -/

theorem Path.names_eq {p p' : Path} (h : p.unplaced = p'.unplaced) : p.names = p'.names := by
  simpa using congrArg names h

end Syntax

end Boardwright
