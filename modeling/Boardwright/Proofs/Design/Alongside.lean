import Boardwright.Proofs.Design.Library
import Boardwright.Proofs.Work.InStep

/-!
# Libraries side by side

Two libraries of the same files find the same definitions and layers. They are `Alongside` while
both are settled and hold the same under some addresses. One of them may know layers that the
other one has to look for, which takes as many steps as the layer has levels. So a limit on how
many blocks extend one another is met later by a library that knows more, and this is the only
difference there is: `Alongside.inStep_layerWithin`.
-/

namespace Boardwright

namespace Library

variable {files : Files} {searched : List Route} {A : Address → Prop} {more depth : Nat}
  {lib s s' t t' : Library} {a r x : Address} {l : Layer}

/-! ### Definitions and layers that are looked for -/

def found (files : Files) (searched : List Route) (a : Address) : Except Failure Definition :=
  match defined files searched a with
  | some d => .ok d
  | none => match read { files, searched } a.file with
    | .error e => .error e
    | .ok _ => .error (noBlock a)

theorem Settled.outcome_definition (hs : Settled files searched s) (a : Address) :
    ((Library.definition a).outcome s).1 = found files searched a := by
  unfold Library.definition
  rw [Work.outcome_get_bind, found]
  cases hget : s.definitions.get? a with
  | some d =>
    rw [hs.definitions a d hget]
    rfl
  | none =>
    dsimp only
    rw [Work.outcome_get_bind, read_eq, hs.files_eq, hs.searched_eq]
    cases hds : read { files, searched } a.file with
    | error e =>
      rw [Work.outcome_ofExcept_error_bind, defined, hds]
    | ok ds =>
      rw [Work.outcome_ofExcept_ok_bind, Work.outcome_modify_bind, Work.outcome_get_bind,
        get?_register, hget, Option.or_none, ← defined_of_read_eq_ok hds]
      cases defined files searched a <;> rfl

/-- A layer is found if it is not longer than the limit. -/
theorem IsLayer.layerWithin (h : IsLayer files searched a l) (hs : Settled files searched s) (hdepth : l.length ≤ depth) :
    ∃ s', (Library.layerWithin depth a).outcome s = (.ok l, s') := by
  induction h generalizing s depth with
  | @builtin a b hb =>
    obtain ⟨depth, rfl⟩ : ∃ n, depth = n + 1 :=
      Nat.exists_eq_succ_of_ne_zero (by rintro rfl; cases hdepth)
    exact ⟨s, layerWithin_of_hasLayer (by simp [HasLayer, hb])⟩
  | @block a base d data rest ha hd hbase hdata hrest ih =>
    obtain ⟨depth, rfl⟩ : ∃ n, depth = n + 1 :=
      Nat.exists_eq_succ_of_ne_zero (by rintro rfl; cases hdepth)
    by_cases hknown : ∃ l, s.HasLayer a l
    · obtain ⟨l, hl⟩ := hknown
      obtain rfl := (hs.isLayer hl).unique (.block ha hd hbase hdata hrest)
      exact ⟨s, layerWithin_of_hasLayer hl⟩
    · obtain ⟨-, hget⟩ := not_hasLayer hknown
      rcases hfound : (Library.definition a).outcome s with ⟨found, s₁⟩
      obtain ⟨hs₁, -, hdef⟩ := hs.definition hfound
      obtain rfl := (hdef d).2 hd
      obtain ⟨s₂, hs₂⟩ := ih hs₁ (Nat.le_of_succ_le_succ hdepth)
      rw [outcome_layerWithin ha hget, Work.outcome_bind_ok _ hfound, hbase,
        Work.outcome_bind_ok _ (Work.outcome_ofExcept _ _), Work.outcome_bind_ok _ hs₂, hdata,
        Work.outcome_bind_ok _ (Work.outcome_ofExcept _ _)]
      exact ⟨_, rfl⟩

/-! ### Libraries side by side -/

/-- Two settled libraries that hold the same under the addresses of `A`. A layer that the first
one knows and the second one does not know has no more than `more` levels. -/
structure Alongside (files : Files) (searched : List Route) (A : Address → Prop) (more : Nat)
    (s t : Library) : Prop where
  settled : Settled files searched s
  settled' : Settled files searched t
  layers : ∀ x l, s.layers.get? x = some l → t.layers.get? x = some l ∨ l.length ≤ more
  instances : s.instances.AgreeOn A t.instances
  replaced : s.replaced.AgreeOn A t.replaced

abbrev Endless (e : Failure) : Prop := e = .fault .endlessRecursion

namespace Alongside

section

variable (h : Alongside files searched A more s t)

include h

theorem congr {i i' : Table Address Instance}
    {b b' : Table Address Address} (hi : i.AgreeOn A i') (hb : b.AgreeOn A b') :
    Alongside files searched A more { s with instances := i, replaced := b }
      { t with instances := i', replaced := b' } :=
  ⟨h.settled.congr i b, h.settled'.congr i' b', h.layers, hi, hb⟩

theorem right (ht : Settled files searched t')
    (hknows : t.KnowsLayers t') (hinstances : t'.instances = t.instances)
    (hreplaced : t'.replaced = t.replaced) : Alongside files searched A more s t' := by
  refine ⟨h.settled, ht, fun y v hv => (h.layers y v hv).imp_left (hknows y v), ?_, ?_⟩
  · rw [hinstances]
    exact h.instances
  · rw [hreplaced]
    exact h.replaced

/-- The first library may come to know a layer that the second one knows. -/
theorem left (hs : Settled files searched { s with layers := s.layers.set x l })
    (hx : t.layers.get? x = some l) :
    Alongside files searched A more { s with layers := s.layers.set x l } t := by
  refine ⟨hs, h.settled', fun y v hv => ?_, h.instances, h.replaced⟩
  by_cases hyx : y = x
  · subst hyx
    exact .inl (hx.trans ((Table.get?_set_self ..).symm.trans hv))
  · exact h.layers y v ((Table.get?_set_of_ne _ _ hyx).symm.trans hv)

theorem definitions {o o' : Except Failure Definition}
    (hs : (definition x).outcome s = (o, s')) (ht : (definition x).outcome t = (o', t')) :
    Alongside files searched A more s' t ∧ Alongside files searched A more s' t' := by
  obtain ⟨hs', hlayers, -⟩ := h.settled.definition hs
  obtain ⟨ht', hlayers', -⟩ := h.settled'.definition ht
  have hleft : Alongside files searched A more s' t := by
    refine ⟨hs', h.settled', ?_, ?_, ?_⟩
    · rw [hlayers]
      exact h.layers
    · rw [(frame_definition hs).1]
      exact h.instances
    · rw [(frame_definition hs).2]
      exact h.replaced
  refine ⟨hleft, hleft.right ht' ?_ (frame_definition ht).1 (frame_definition ht).2⟩
  exact fun y v hv => hlayers' ▸ hv

theorem meets_definition (x : Address) : Work.Meets Endless Eq (Alongside files searched A more)
      (fun d d' => d = d' ∧ defined files searched x = some d)
      ((definition x).outcome s) ((definition x).outcome t) := by
  have hsame := (h.settled.outcome_definition x).trans (h.settled'.outcome_definition x).symm
  rcases hs : (definition x).outcome s with ⟨o, s'⟩
  rcases ht : (definition x).outcome t with ⟨o', t'⟩
  rw [hs, ht] at hsame
  have hst := (h.definitions hs ht).2
  cases hsame with
  | refl => cases o with
    | error e => exact .error hst
    | ok d => exact .ok ⟨rfl, ((h.settled.definition hs).2.2 d).1 rfl⟩ hst

/-- The second library knows the layer, or finds it because it is not too long. -/
theorem meets_known (hl : s.HasLayer x l) :
    Work.Meets Endless Eq (Alongside files searched A more) (fun l l' => l = l' ∧ IsLayer files searched x l)
      ((layerWithin (depth + 1) x).outcome s) ((layerWithin (depth + 1 + more) x).outcome t) := by
  have hlayer := h.settled.isLayer hl
  have ht : ∃ t', (layerWithin (depth + 1 + more) x).outcome t = (.ok l, t') := by
    have hknown : t.HasLayer x l ∨ l.length ≤ more := by
      unfold HasLayer at hl ⊢
      split
      · next hb => exact .inl (by simpa only [hb] using hl)
      · next hb => exact h.layers x l (by simpa only [hb] using hl)
    rcases hknown with hl' | hshort
    · rw [Nat.add_right_comm]
      exact ⟨t, layerWithin_of_hasLayer hl'⟩
    · exact hlayer.layerWithin h.settled' (Nat.le_add_left_of_le hshort)
  obtain ⟨t', ht⟩ := ht
  obtain ⟨ht', hknows, -⟩ := h.settled'.layerWithin ht
  rw [layerWithin_of_hasLayer hl, ht]
  exact .ok ⟨rfl, hlayer⟩ (h.right ht' hknows (frame_layerWithin ht).1 (frame_layerWithin ht).2)

theorem meets_looked (ih : ∀ x, Work.InStep Endless (Alongside files searched A more)
      (fun l l' => l = l' ∧ IsLayer files searched x l) (layerWithin depth x) (layerWithin (depth + more) x))
    (hb : Builtin.ofAddress? x = none) (hget : s.layers.get? x = none)
    (hl : t.layers.get? x = some l) :
    Work.Meets Endless Eq (Alongside files searched A more) (fun l l' => l = l' ∧ IsLayer files searched x l)
      ((layerWithin (depth + 1) x).outcome s) ((layerWithin (depth + 1 + more) x).outcome t) := by
  have hhas : t.HasLayer x l := by simpa [HasLayer, hb] using hl
  have hlayer := h.settled'.isLayer hhas
  obtain ⟨d, base, data, rest, -, hd, hbase, hdata, rfl, hrest⟩ := h.settled'.layers x l hl
  rw [Nat.add_right_comm, layerWithin_of_hasLayer hhas, outcome_layerWithin hb hget]
  rcases hfound : (definition x).outcome s with ⟨o, s₁⟩
  obtain ⟨hs₁, -, hdef⟩ := h.settled.definition hfound
  obtain rfl := (hdef d).2 hd
  have h₁ := (h.definitions hfound rfl).1
  rw [Work.outcome_bind_ok _ hfound, hbase, Work.outcome_bind_ok _ (Work.outcome_ofExcept _ _)]
  cases depth with
  | zero => exact .excused rfl
  | succ depth =>
    have hmeet := ih base s₁ t h₁
    rw [Nat.add_right_comm, layerWithin_of_hasLayer hrest] at hmeet
    rcases hr : (layerWithin (depth + 1) base).outcome s₁ with ⟨e | rest', s₂⟩
    · rw [hr] at hmeet
      rw [Work.outcome_bind_error _ hr]
      cases hmeet with
      | excused he => exact .excused he
    · rw [hr] at hmeet
      rw [Work.outcome_bind_ok _ hr, hdata, Work.outcome_bind_ok _ (Work.outcome_ofExcept _ _)]
      cases hmeet with
      | ok hxy h₂ =>
        obtain ⟨rfl, -⟩ := hxy
        have hs₃ := h₂.settled.setLayer hb hd hbase hdata ((hs₁.layerWithin hr).2.2 _ rfl)
        exact .ok ⟨rfl, hlayer⟩ (h₂.left hs₃.1 hl)

end

theorem inStep_layerWithin (depth : Nat) (x : Address) :
    Work.InStep Endless (Alongside files searched A more) (fun l l' => l = l' ∧ IsLayer files searched x l)
      (layerWithin depth x) (layerWithin (depth + more) x) := by
  induction depth generalizing x with
  | zero => exact fun _ _ _ => .excused rfl
  | succ depth ih =>
    intro s t h
    by_cases hknown : ∃ l, s.HasLayer x l
    · obtain ⟨l, hl⟩ := hknown
      exact h.meets_known hl
    obtain ⟨hb, hget⟩ := not_hasLayer hknown
    cases hget' : t.layers.get? x with
    | some l => exact h.meets_looked ih hb hget hget'
    | none =>
      rw [Nat.add_right_comm, outcome_layerWithin hb hget, outcome_layerWithin hb hget']
      refine (h.meets_definition x).bind fun d d' s₁ t₁ _ _ hd h₁ => ?_
      obtain ⟨rfl, hd⟩ := hd
      cases hbase : d.lookup d.base with
      | error e => exact .error h₁
      | ok base =>
        refine (ih base s₁ t₁ h₁).bind fun rest rest' s₂ t₂ hs₂ ht₂ hrest h₂ => ?_
        obtain ⟨rfl, -⟩ := hrest
        cases hdata : d.values with
        | error e => exact .error h₂
        | ok data =>
          have hs₃ := h₂.settled.setLayer hb hd hbase hdata
            ((h₁.settled.layerWithin hs₂).2.2 rest rfl)
          have ht₃ := h₂.settled'.setLayer hb hd hbase hdata
            ((h₁.settled'.layerWithin ht₂).2.2 rest rfl)
          exact .ok ⟨rfl, ht₃.1.isLayer ht₃.2.2⟩
            ((h₂.right ht₃.1 ht₃.2.1 rfl rfl).left hs₃.1 (Table.get?_set_self ..))

/-- A library that needs no more steps than another one knows all layers that the other one
knows. -/
theorem knowsLayers (h : Alongside files searched A 0 s t) : s.KnowsLayers t := by
  intro x l hl
  refine (h.layers x l hl).resolve_right fun hnil => ?_
  obtain ⟨d, base, data, rest, -, -, -, -, rfl, -⟩ := h.settled.layers x l hl
  simp at hnil

end Alongside

end Library

end Boardwright
