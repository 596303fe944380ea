import Boardwright.Proofs.Design.Deed

/-!
# Instances made side by side

An instance is made in one library and another one in a second library. A relation `R` of the two
libraries is `Coupled` to this if each single step that the making of instances consists of keeps
it, when the step is done at places that correspond to each other. Then the making of an instance
goes along in both: `Coupled.along_createWithin`.

The places may differ, as `P` says, and so may what the instances are made of, as `L` says, as long
as the deeds of the statements are alike. Failures may be excused or reported elsewhere: `Leeway`.
-/

namespace Boardwright

open Syntax Library List Work

variable {X X' : Failure → Prop} {E : Failure → Failure → Prop}
  {T : String × Pos → String × Pos → Prop} {l l' : Layer} {α : Type}

theorem Accord.imp {r r' : Except Failure α} (h : Accord X' E Eq r r')
    (hX : ∀ e, X' e → X e) : Accord X E Eq r r' := by
  cases h with
  | ok hxy => exact .ok hxy
  | failed he => exact .failed he
  | excused he => exact .excused (hX _ he)

theorem Accord.mapError {r r' : Except Failure α} {m m' : Failure → Failure}
    (h : Accord X' E Eq r r') (hX : ∀ e, X' e → X (m e))
    (hm : ∀ e e', E e e' → X (m e) ∨ E (m e) (m' e')) :
    Accord X E Eq (r.mapError m) (r'.mapError m') := by
  cases h with
  | ok hxy => exact .ok hxy
  | failed he => exact (hm _ _ he).elim .excused .failed
  | excused he => exact .excused (hX _ he)

/-- What two pieces of work may differ in when they fail: failures are excused by `X` or related by
`E`, and reported at places that are related by `T`. -/
structure Leeway (X : Failure → Prop) (E : Failure → Failure → Prop)
    (T : String × Pos → String × Pos → Prop) : Prop where
  lasting : Lasting X
  tracks : Failure.Tracks E
  located : ∀ {p p'} kind message, T p p' → X (.report (.located kind p.1 p.2 message)) ∨
    E (.report (.located kind p.1 p.2 message)) (.report (.located kind p'.1 p'.2 message))
  relocated : ∀ {d d' pos pos' e e'}, T (d.path, pos) (d'.path, pos') → E e e' →
    X (relocated d pos e) ∨ E (relocated d pos e) (relocated d' pos' e')

/-- All failures are excused. -/
theorem Leeway.all (T : String × Pos → String × Pos → Prop) : Leeway (fun _ => True) Eq T :=
  ⟨.inl fun _ => trivial, Failure.tracks_eq, fun _ _ _ => .inl trivial, fun _ _ => .inl trivial⟩

/-- Failures that are not excused are the same. -/
theorem Leeway.exact (hX : Lasting X) : Leeway X Eq Eq where
  lasting := hX
  tracks := Failure.tracks_eq
  located _ _ h := .inr (by rw [h])
  relocated h he := by
    obtain ⟨hpath, rfl⟩ := Prod.mk.inj h
    subst he
    refine .inr ?_
    cases ‹Failure› <;> simp only [Library.relocated, hpath]

/-- Definitions whose statements are alike, and which look up the same names and replace the same
types in the same order. -/
structure Definition.Coupled (X : Failure → Prop) (E : Failure → Failure → Prop)
    (T : String × Pos → String × Pos → Prop) (N : String → Prop) (d d' : Definition) : Prop where
  place : T (d.path, d.pos) (d'.path, d'.pos)
  lookup : ∀ r, Accord (fun _ => ∀ e, X e) E Eq (d.lookup r) (d'.lookup r)
  statements : Forall₂ (fun s s' => T (d.path, s.start.pos) (d'.path, s'.start.pos) ∧
    (s.deed d.path).Alike X E (s'.deed d'.path) ∧ (s.deed d.path).Named N)
    (simplesOf d.body) (simplesOf d'.body)
  replacements : Forall₂ (fun r r' => r.1 = r'.1 ∧ r.2.block = r'.2.block ∧ r.1 ≠ [] ∧
    ∀ n ∈ r.1, N n) d.replacements.entries d'.replacements.entries

def Layer.Coupled (X : Failure → Prop) (E : Failure → Failure → Prop)
    (T : String × Pos → String × Pos → Prop) (N : String → Prop) (l l' : Layer) : Prop :=
  Forall₂ (fun v v' => Option.Rel (Definition.Coupled X E T N) v.definition v'.definition) l l'

theorem Definition.Sound.coupled {d : Definition} (hd : d.Sound) (hT : ∀ p, T p p) :
    Definition.Coupled X Eq T IsName d d where
  place := hT _
  lookup _ := .same _
  statements := forall₂_same.2 fun s hs =>
    ⟨hT _, Deed.alike_self _, Simple.Sound.named (hd.statements s hs) _⟩
  replacements := forall₂_same.2 fun r hr =>
    have hnames := hd.replacements r.1 (mem_map_of_mem hr)
    ⟨rfl, rfl, hnames.2, hnames.1⟩

abbrev Layer.Same (l l' : Layer) : Prop := l = l' ∧ l.Sound

theorem Builtin.layer_same (b : Builtin) : Layer.Same b.layer b.layer := by
  refine ⟨rfl, fun v hv d hd => ?_⟩
  rw [Builtin.definition_of_mem_layer hv] at hd
  cases hd

theorem Layer.Same.coupled (hT : ∀ p, T p p) (hl : Layer.Same l l') :
    Layer.Coupled X Eq T IsName l l' := by
  obtain ⟨rfl, hl⟩ := hl
  refine forall₂_same.2 fun v hv => ?_
  cases hd : v.definition with
  | none => exact .none
  | some d => exact .some (Definition.Sound.coupled (hl v hv d hd) hT)

theorem Layer.Coupled.replacementsIn {N : String → Prop} {l l' : Layer}
    (hl : Layer.Coupled X E T N l l') :
    Forall₂ (fun r r' => r.2.1 = r'.2.1 ∧ r.2.1 ≠ [] ∧ (∀ n ∈ r.2.1, N n) ∧
      Accord X E Eq (r.1.lookup r.2.2.block) (r'.1.lookup r'.2.2.block))
      (replacementsIn l) (replacementsIn l') := by
  refine rel_flatMap hl fun v v' hv => ?_
  obtain ⟨_, o, _⟩ := v
  obtain ⟨_, o', _⟩ := v'
  dsimp only at hv ⊢
  cases hv with
  | none => exact .nil
  | @some d d' hd =>
    rw [forall₂_map_left_iff, forall₂_map_right_iff]
    refine hd.replacements.imp fun r r' hr => ⟨hr.1, hr.2.2.1, hr.2.2.2, ?_⟩
    rw [← hr.2.1]
    exact (hd.lookup r.2.block).imp fun e he => he e

namespace Library

variable {N : String → Prop} {P : Address → Address → Prop} {L : Layer → Layer → Prop}
  {R : Library → Library → Prop} {extension extension' : Nat} {x y : Address} {d d' : Definition}
  {q : List String} {n : String} {pos pos' : Pos}

def SamePlace (c a x y : Address) : Prop :=
  ∃ q, AreNames q ∧ x = c.addInstances q ∧ y = a.addInstances q

theorem SamePlace.below {c a : Address} (h : SamePlace c a x y) (hn : IsName n) :
    SamePlace c a (x.addInstance n) (y.addInstance n) := by
  obtain ⟨q, hq, rfl, rfl⟩ := h
  exact ⟨q ++ [n], hq.concat hn, (Address.addInstances_concat ..).symm,
    (Address.addInstances_concat ..).symm⟩

/-- A relation of two libraries that each step of making instances keeps, done at places that `P`
relates, with layers that `L` relates. -/
structure Coupled (X : Failure → Prop) (E : Failure → Failure → Prop)
    (T : String × Pos → String × Pos → Prop) (N : String → Prop) (P : Address → Address → Prop)
    (L : Layer → Layer → Prop) (R : Library → Library → Prop) (extension extension' : Nat) :
    Prop where
  leeway : Leeway X E T
  below : ∀ {x y n}, P x y → N n → P (x.addInstance n) (y.addInstance n)
  builtin : ∀ b : Builtin, L b.layer b.layer
  layer : ∀ x, Along X E R L (layerWithin extension x) (layerWithin extension' x)
  place : ∀ {s t x y n l l'}, R s t → P x y → N n → L l l' →
    R (s.place (some x) (x.addInstance n) ⟨l, ∅, [], []⟩)
      (t.place (some y) (y.addInstance n) ⟨l', ∅, [], []⟩)
  present : ∀ {x y p p'}, P x y → T p p' →
    Along X E R (fun _ _ => True) (present p.1 p.2 x) (present p'.1 p'.2 y)
  override : ∀ {s t x y} name value, R s t → P x y →
    R { s with instances := s.instances.modify x fun i =>
        { i with override := i.override.set name value } }
      { t with instances := t.instances.modify y fun i =>
        { i with override := i.override.set name value } }
  link : ∀ {s t x y u u' v v' p p'}, R s t → P x y → P u u' → P v v' → T p p' →
    R { s with instances := s.instances.modify x fun i =>
        { i with links := i.links ++ [⟨u, v, p.2⟩] } }
      { t with instances := t.instances.modify y fun i =>
        { i with links := i.links ++ [⟨u', v', p'.2⟩] } }
  forget : ∀ {s t x y e}, ¬X e → R s t → P x y → R (s.forget x) (t.forget y)
  replaced : ∀ {s t x y q}, R s t → P x y → q ≠ [] → (∀ n ∈ q, N n) →
    s.replaced.get? (x.addInstances q) = t.replaced.get? (y.addInstances q)
  ask : ∀ {s t x y} b, R s t → P x y →
    R { s with replaced := s.replaced.set x b } { t with replaced := t.replaced.set y b }
  drop : ∀ {s t x y}, R s t → P x y →
    R { s with replaced := s.replaced.erase x } { t with replaced := t.replaced.erase y }

def unfound (d : Definition) (block : Reference) : Failure → Failure
  | .fault .missingKey =>
    .report (.located .unknownName d.path d.pos ("Couldn't find ref " ++ block.text))
  | e => e

theorem chosen_eq_unfound (extension : Nat) (d : Definition) (pos : Pos) (a : Address)
    (block : Reference) :
    chosen extension d pos a block = (do
      match (← get).replaced.get? a with
      | some r => layerWithin extension r
      | none =>
        let found ← Work.ofExcept ((d.lookup block).mapError (unfound d block))
        atStatement d pos (layerWithin extension found)) := by
  rw [chosen_eq]
  refine bind_congr fun lib => ?_
  cases lib.replaced.get? a with
  | some r => rfl
  | none =>
    rcases d.lookup block with (r | f | ⟨m, fs⟩ | c) | b
    · rfl
    · cases f <;> rfl
    all_goals rfl

theorem unfound_of_ne {e : Failure} (he : e ≠ .fault .missingKey) (d : Definition)
    (block : Reference) : unfound d block e = e := by
  cases e with
  | fault f => cases f <;> first | rfl | exact absurd rfl he
  | _ => rfl

theorem along_atStatement (hX : Leeway X E T) {w w' : Work Library Layer}
    (h : Along X E R L w w') (hpos : T (d.path, pos) (d'.path, pos')) :
    Along X E R L (atStatement d pos w) (atStatement d' pos' w') := by
  have hexcused : ∀ e, X e → X (relocated d pos e) := by
    intro e he
    rcases hX.lasting with hX | hX
    · exact hX _
    · obtain ⟨f, rfl⟩ := hX e he
      exact he
  intro s t hst
  rw [outcome_atStatement, outcome_atStatement]
  have hmeet := h s t hst
  generalize w.outcome s = o at hmeet
  generalize w'.outcome t = o' at hmeet
  cases hmeet with
  | ok hxy hst' => exact .ok hxy hst'
  | failed he hst' => exact (hX.relocated hpos he).elim .excused fun he => .failed he hst'
  | excused he => exact .excused (hexcused _ he)

namespace Coupled

variable (hR : Coupled X E T N P L R extension extension') {depth : Nat}

include hR

theorem belowAll (hP : P x y) (hq : ∀ n ∈ q, N n) : P (x.addInstances q) (y.addInstances q) := by
  induction q generalizing x y with
  | nil => exact hP
  | cons n q ih =>
    rw [forall_mem_cons] at hq
    exact ih (hR.below hP hq.1) hq.2

theorem unfound (hplace : T (d.path, d.pos) (d'.path, d'.pos)) (block : Reference)
    {e e' : Failure} (he : E e e') :
    X (unfound d block e) ∨ E (unfound d block e) (unfound d' block e') := by
  by_cases hkey : e = .fault .missingKey
  · rw [hkey, (hR.leeway.tracks.fault_iff _ he).1 hkey]
    exact hR.leeway.located _ _ hplace
  · rw [unfound_of_ne hkey, unfound_of_ne (mt (hR.leeway.tracks.fault_iff _ he).2 hkey)]
    exact .inr he

theorem along_chosen (hP : P x y) (hn : N n) (hplace : T (d.path, d.pos) (d'.path, d'.pos))
    (hlookup : ∀ r, Accord (fun _ => ∀ e, X e) E Eq (d.lookup r) (d'.lookup r))
    (hpos : T (d.path, pos) (d'.path, pos')) (block : Reference) :
    Along X E R L (chosen extension d pos (x.addInstance n) block)
      (chosen extension' d' pos' (y.addInstance n) block) := by
  rw [chosen_eq_unfound, chosen_eq_unfound]
  refine Along.get.bind fun s t hst => ?_
  have hsame : s.replaced.get? (x.addInstance n) = t.replaced.get? (y.addInstance n) :=
    hR.replaced (q := [n]) hst hP (cons_ne_nil _ _) (forall_mem_singleton.2 hn)
  rw [hsame]
  cases t.replaced.get? (y.addInstance n) with
  | some r => exact hR.layer r
  | none =>
    have hfound := (hlookup block).mapError (fun e he => he _) fun e e' he =>
      hR.unfound hplace block he
    refine (Along.accord hfound).bind fun b b' hb => ?_
    subst hb
    exact along_atStatement hR.leeway (hR.layer b) hpos

theorem along_make (hP : P x y) {a a' : Except Failure Side} (ha : Accord X E Eq a a')
    (hN : ∀ b, a = .ok b → ∀ n ∈ b.names, N n) :
    Along X E R P (make x a) (make y a') := by
  refine (Along.accord (ha.and_ok hN)).bind fun b b' hb => ?_
  obtain ⟨rfl, hb⟩ := hb
  refine (Along.modify fun s t h => ?_).bind fun _ _ _ => .pure (hR.belowAll hP hb)
  cases b with
  | path names => exact h
  | leaf b _ n => exact hR.place h hP (hb n (mem_singleton.2 rfl)) (hR.builtin b)

theorem along_statement (hP : P x y) (hplace : T (d.path, d.pos) (d'.path, d'.pos))
    (hlookup : ∀ r, Accord (fun _ => ∀ e, X e) E Eq (d.lookup r) (d'.lookup r))
    {create create' : Address → Layer → Work Library Unit} {v v' : Simple}
    (hpos : T (d.path, v.start.pos) (d'.path, v'.start.pos))
    (hv : (v.deed d.path).Alike X E (v'.deed d'.path)) (hN : (v.deed d.path).Named N)
    (hcreate : ∀ n l l', N n → L l l' → Along X E R (fun _ _ => True)
      (create (x.addInstance n) l) (create' (y.addInstance n) l')) :
    Along X E R (fun _ _ => True) (statement extension create x d v)
      (statement extension' create' y d' v') := by
  rw [statement_eq, statement_eq]
  generalize v.deed d.path = a at hv hN
  generalize v'.deed d'.path = a' at hv
  cases hv with
  | nothing => exact .pure trivial
  | new names block =>
    rcases names with _ | ⟨n, _ | ⟨m, names⟩⟩
    · exact .failed (hR.leeway.tracks.general _)
    · have hn := hN n (mem_singleton.2 rfl)
      exact (hR.along_chosen hP hn hplace hlookup hpos block).bind fun l l' hl =>
        hcreate _ l l' hn hl
    · exact .failed (hR.leeway.tracks.general _)
  | set names hv =>
    have hbelow := hR.belowAll hP fun n hn => hN n (dropLast_subset _ hn)
    refine (Along.accord hv).bind fun b b' hb => (hR.present hbelow hpos).bind
      fun _ _ _ => .modify fun s t h => ?_
    subst hb
    exact hR.override _ b h hbelow
  | connect ha hb =>
    refine (hR.along_make hP ha hN.1).bind fun u u' hu =>
      (hR.along_make hP hb hN.2).bind fun w w' hw => ?_
    exact (hR.present hu hpos).bind fun _ _ _ => (hR.present hw hpos).bind fun _ _ _ =>
      .modify fun s t h => hR.link h hP hu hw hpos
  | leaf ha => exact (hR.along_make hP ha hN).discard

theorem along_askReplacements (hP : P x y) {rs rs' : List (Definition × Reference × Replacement)}
    (hrs : Forall₂ (fun r r' => r.2.1 = r'.2.1 ∧ r.2.1 ≠ [] ∧ (∀ n ∈ r.2.1, N n) ∧
      Accord X E Eq (r.1.lookup r.2.2.block) (r'.1.lookup r'.2.2.block)) rs rs') :
    Along X E R (Forall₂ P) (askReplacements x rs) (askReplacements y rs') := by
  induction hrs with
  | nil => exact .pure .nil
  | @cons r r' rs rs' hr _ ih =>
    obtain ⟨htarget, hne, hnames, hlookup⟩ := hr
    have hbelow := hR.belowAll hP hnames
    unfold askReplacements
    dsimp only
    rw [← htarget]
    refine Along.get.bind fun s t hst => ?_
    rw [Table.contains_eq_isSome, Table.contains_eq_isSome, hR.replaced hst hP hne hnames]
    split
    · exact ih
    · refine (Along.accord hlookup).bind fun b b' hb => ?_
      subst hb
      exact (Along.modify fun s t h => hR.ask b h hbelow).bind fun _ _ _ =>
        ih.bind fun as as' has => .pure (.cons hbelow has)

theorem dropReplacements {as as' : List Address} (has : Forall₂ P as as') {s t : Library}
    (hst : R s t) : R (Library.dropReplacements as s) (Library.dropReplacements as' t) := by
  induction has generalizing s t with
  | nil => exact hst
  | cons ha _ ih => exact ih (hR.drop hst ha)

theorem along_visit (hP : P x y) {v v' : Level}
    (hv : Option.Rel (Definition.Coupled X E T N) v.definition v'.definition)
    (hcreate : ∀ n l l', N n → L l l' → Along X E R (fun _ _ => True)
      (createWithin extension depth (some x) (x.addInstance n) l)
      (createWithin extension' depth (some y) (y.addInstance n) l')) :
    Along X E R (fun _ _ => True) (visit extension (createWithin extension depth (some x)) x v)
      (visit extension' (createWithin extension' depth (some y)) y v') := by
  unfold visit
  generalize v.definition = o at hv
  generalize v'.definition = o' at hv
  cases hv with
  | none => exact .pure trivial
  | @some d d' hd =>
    refine Along.each hR.leeway.lasting hR.leeway.tracks (fun s _ => ?_)
      (hd.statements.imp fun s s' hs => ?_)
    · exact raises_statement (raises_createWithin extension depth _) _ d s
    · exact hR.along_statement hP hd.place hd.lookup hs.1 hs.2.1 hs.2.2 hcreate

theorem along_fill (hP : P x y) (hl : Layer.Coupled X E T N l l')
    (hcreate : ∀ n l l', N n → L l l' → Along X E R (fun _ _ => True)
      (createWithin extension depth (some x) (x.addInstance n) l)
      (createWithin extension' depth (some y) (y.addInstance n) l')) :
    Along X E R (fun _ _ => True) (fill extension (createWithin extension depth (some x)) x l)
      (fill extension' (createWithin extension' depth (some y)) y l') := by
  refine (hR.along_askReplacements hP ?_).bind fun as as' has =>
    .finally_ (.forM₂ ((rel_reverse hl).imp fun v v' hv => hR.along_visit hP hv hcreate))
      fun s t h => hR.dropReplacements has h
  exact hl.replacementsIn

/-- The making of an instance goes along, if the placing of it does. -/
theorem along_createWithin (hL : ∀ l l', L l l' → Layer.Coupled X E T N l l') (depth : Nat)
    (hP : P x y) (hl : L l l') {parent parent' : Option Address} (hplace : ∀ s t, R s t →
      R (s.place parent x ⟨l, ∅, [], []⟩) (t.place parent' y ⟨l', ∅, [], []⟩)) :
    Along X E R (fun _ _ => True) (createWithin extension depth parent x l)
      (createWithin extension' depth parent' y l') := by
  induction depth generalizing x y l l' parent parent' with
  | zero => exact .failed (hR.leeway.tracks.fault _)
  | succ depth ih =>
    rw [createWithin_succ, createWithin_succ]
    refine (Along.modify hplace).bind fun _ _ _ =>
      .onFailure (hR.along_fill hP (hL l l' hl) fun n m m' hn hm => ?_)
        fun e he s t h => hR.forget he h hP
    exact ih (hR.below hP hn) hm fun s t h => hR.place h hP hn hm

end Coupled

end Library

end Boardwright
