import Boardwright.Proofs.Design.Rearranged

/-!
# Definitions of bodies side by side

Files whose bodies are `Paired` make as many definitions, in the same order. If the definitions of
paired blocks in related scopes are related, all definitions of the two files are, one by one:
`Source.Pairs.definitionsIn`.
-/

namespace Boardwright

open Syntax List

/-! ### Tables made from lists that go side by side -/

namespace Table

variable {κ ν μ : Type} [BEq κ] {R : ν → μ → Prop} {es : List (κ × ν)} {es' : List (κ × μ)}

theorem forall₂_setEntry {v : ν} {w : μ}
    (h : Forall₂ (fun e e' => e.1 = e'.1 ∧ R e.2 e'.2) es es') (k : κ) (hvw : R v w) :
    Forall₂ (fun e e' => e.1 = e'.1 ∧ R e.2 e'.2) (setEntry k v es) (setEntry k w es') := by
  induction h with
  | nil => exact .cons ⟨rfl, hvw⟩ .nil
  | cons he hes ih =>
    rw [setEntry, setEntry, he.1]
    split
    · exact .cons ⟨rfl, hvw⟩ hes
    · exact .cons he ih

theorem forall₂_ofList (h : Forall₂ (fun e e' => e.1 = e'.1 ∧ R e.2 e'.2) es es') :
    Forall₂ (fun e e' => e.1 = e'.1 ∧ R e.2 e'.2) (ofList es).entries (ofList es').entries := by
  have hfold : ∀ (t : Table κ ν) (t' : Table κ μ),
      Forall₂ (fun e e' => e.1 = e'.1 ∧ R e.2 e'.2) t.entries t'.entries →
        Forall₂ (fun e e' => e.1 = e'.1 ∧ R e.2 e'.2)
          (es.foldl (fun t e => t.set e.1 e.2) t).entries
          (es'.foldl (fun t e => t.set e.1 e.2) t').entries := by
    induction h with
    | nil => exact fun _ _ ht => ht
    | cons he _ ih =>
      intro t t' ht
      refine ih _ _ ?_
      dsimp only
      rw [he.1]
      exact forall₂_setEntry ht _ he.2
  exact hfold ∅ ∅ .nil

end Table

/-! ### Definitions -/

namespace Source

variable {src src' : Source} {S : Simple → Simple → Prop} {H : Header → Header → Prop}
  {C : Scope → Scope → Prop} {D : Definition → Definition → Prop} {d d' : Definition}
  {ps ps' : List Piece}

/-- Definitions with paired bodies are related by `D`, and their scopes by `C`, if those of blocks
are in related scopes. -/
structure Pairs (src src' : Source) (S : Simple → Simple → Prop) (H : Header → Header → Prop)
    (C : Scope → Scope → Prop) (D : Definition → Definition → Prop) : Prop where
  name : ∀ {h h'}, H h h' → h.name.text = h'.name.text
  address : ∀ {s s'}, C s s' → s.address = s'.address
  scopes : ∀ {d d'}, D d d' → Forall₂ C (d.toScope :: d.closure) (d'.toScope :: d'.closure)
  body : ∀ {d d'}, D d d' → Paired S H (pieces d.body) (pieces d'.body)
  block : ∀ {closure closure' h h' b b'} a, Forall₂ C closure closure' → H h h' →
    Paired S H (pieces b.stmts) (pieces b'.stmts) →
      D (src.blockDefinition a closure h b) (src'.blockDefinition a closure' h' b')

namespace Pairs

theorem definitionsIn_of (hp : Pairs src src' S H C D) (h : D d d')
    (hblocks : ∀ a closure closure', Forall₂ C closure closure' →
      Forall₂ (fun e e' => e.1 = e'.1 ∧ Forall₂ D e.2 e'.2)
        ((pieces d.body).filterMap (src.pieceDefinitions a closure))
        ((pieces d'.body).filterMap (src'.pieceDefinitions a closure'))) :
    Forall₂ D (src.definitionsIn d) (src'.definitionsIn d') := by
  have hscopes := hp.scopes h
  have haddress := hp.address (forall₂_cons.1 hscopes).1
  refine .cons h (rel_flatten ?_)
  rw [bodyDefinitions_eq, bodyDefinitions_eq, Table.values, Table.values,
    forall₂_map_left_iff, forall₂_map_right_iff, haddress]
  exact (Table.forall₂_ofList (hblocks _ _ _ hscopes)).imp fun _ _ he => he.2

theorem pieceDefinitions (hp : Pairs src src' S H C D) (h : Paired S H ps ps') (a : Address)
    {closure closure' : List Scope} (hclosure : Forall₂ C closure closure') :
    Forall₂ (fun e e' => e.1 = e'.1 ∧ Forall₂ D e.2 e'.2)
      (ps.filterMap (src.pieceDefinitions a closure))
      (ps'.filterMap (src'.pieceDefinitions a closure')) := by
  induction h generalizing a closure closure' with
  | nil => exact .nil
  | simple _ _ ih => exact ih a hclosure
  | @block header header' b b' _ _ hh hb _ ihb ih =>
    refine .cons ⟨hp.name hh, ?_⟩ (ih a hclosure)
    rw [blockDefinitions_eq, blockDefinitions_eq, hp.name hh]
    exact hp.definitionsIn_of (hp.block _ hclosure hh hb) fun a _ _ hscopes => ihb a hscopes

/-- The same definitions are made known, in the same order. -/
theorem definitionsIn (hp : Pairs src src' S H C D) (h : D d d') :
    Forall₂ D (src.definitionsIn d) (src'.definitionsIn d') :=
  hp.definitionsIn_of h fun a _ _ => hp.pieceDefinitions (hp.body h) a

end Pairs

end Source

/-- Related definitions that become known are related. -/
theorem Library.matches_register {D : Definition → Definition → Prop} {s t : Library}
    {ds ds' : List Definition} (hD : ∀ d d', D d d' → d.address = d'.address)
    (h : s.definitions.Matches (fun _ => D) t.definitions) (hds : Forall₂ D ds ds') :
    (s.register ds).definitions.Matches (fun _ => D) (t.register ds').definitions := by
  induction hds generalizing s t with
  | nil => exact h
  | cons hd _ ih =>
    refine ih (s := s.register [_]) (t := t.register [_]) ?_
    dsimp only [register, foldl_cons, foldl_nil]
    rw [hD _ _ hd]
    exact h.set hd

end Boardwright
