import Boardwright.Component.Attribute
import Boardwright.Proofs.Number.Order
import Boardwright.Proofs.Work

/-!
# The choice of a part

Of the parts that a wish accepts the first of the cheapest is chosen, `IsFirstCheapest`, or the first
of all if none of them has a price. No part is found only if the wish accepts none. For a component
of a generic sort this says which part it stands for: `genericOf_cheapest`.

What is compared are prices, and these are numbers: of a part without a price there is none.
-/

open List

namespace Boardwright

namespace PartWish

/-! ### The cheapest of a list -/

section Cheapest

variable {α β : Type} [LinearOrder β] {key : α → β} {lt : α → α → Bool} {P : α → Prop}
  {p q x : Part α} {ps : List (Part α)} {c : α}

/-- The first of the cheapest parts of a list, where prices are compared by a key: it has a price,
those before it cost more, if they have a price, and those after it do not cost less. -/
def IsFirstCheapest (key : α → β) (ps : List (Part α)) (p : Part α) : Prop :=
  ∃ c before after, p.price = some c ∧ ps = before ++ p :: after ∧
    (∀ r ∈ before, ∀ d ∈ r.price, key c < key d) ∧ ∀ r ∈ after, ∀ d ∈ r.price, key c ≤ key d

namespace IsFirstCheapest

theorem cons (h : IsFirstCheapest key ps x)
    (hp : ∀ c ∈ x.price, ∀ d ∈ p.price, key c < key d) : IsFirstCheapest key (p :: ps) x := by
  obtain ⟨c, before, after, hc, rfl, hbefore, hafter⟩ := h
  exact ⟨c, p :: before, after, hc, rfl, forall_mem_cons.2 ⟨hp c hc, hbefore⟩, hafter⟩

theorem le_head (h : IsFirstCheapest key (p :: ps) x) :
    ∀ c ∈ x.price, ∀ d ∈ p.price, key c ≤ key d := by
  obtain ⟨c, before, after, hc, he, hbefore, -⟩ := h
  intro c' hc' d hd
  obtain rfl : c' = c := Option.some.inj (hc'.symm.trans hc)
  cases before with
  | nil =>
    obtain ⟨rfl, -⟩ := List.cons.inj he
    rw [Option.some.inj (hd.symm.trans hc)]
  | cons r before =>
    obtain ⟨rfl, -⟩ := List.cons.inj he
    exact le_of_lt (hbefore p mem_cons_self d hd)

theorem insert (h : IsFirstCheapest key (p :: ps) x) (hp : p.price = some c)
    (hq : ∀ d ∈ q.price, key c ≤ key d) : IsFirstCheapest key (p :: q :: ps) x := by
  obtain ⟨c', before, after, hc', he, hbefore, hafter⟩ := h
  cases before with
  | nil =>
    obtain ⟨rfl, rfl⟩ := List.cons.inj he
    obtain rfl : c' = c := Option.some.inj (hc'.symm.trans hp)
    exact ⟨c', [], q :: ps, hp, rfl, forall_mem_nil _,
      forall_mem_cons.2 ⟨hq, hafter⟩⟩
  | cons r before =>
    obtain ⟨rfl, rfl⟩ := List.cons.inj he
    rw [forall_mem_cons] at hbefore
    have hless : ∀ d ∈ q.price, key c' < key d := fun d hd =>
      lt_of_lt_of_le (hbefore.1 c hp) (hq d hd)
    exact ⟨c', p :: q :: before, after, hc', rfl,
      forall_mem_cons.2 ⟨hbefore.1, forall_mem_cons.2 ⟨hless, hbefore.2⟩⟩, hafter⟩

end IsFirstCheapest

variable (hlt : ∀ c d, P c → P d → (lt c d = true ↔ key c < key d))
include hlt

theorem cheapestFrom_isFirstCheapest (hp : p.price = some c) (hc : P c)
    (hps : ∀ q ∈ ps, ∀ d ∈ q.price, P d) :
    IsFirstCheapest key (p :: ps) (cheapestFrom lt (p, c) ps) := by
  induction ps generalizing p c with
  | nil => exact ⟨c, [], [], hp, rfl, forall_mem_nil _, forall_mem_nil _⟩
  | cons q ps ih =>
    rw [forall_mem_cons] at hps
    rw [cheapestFrom]
    split
    · next d hd =>
        have hiff := hlt d c (hps.1 d hd) hc
        split
        · next hless =>
            have hrest := ih hd (hps.1 d hd) hps.2
            refine hrest.cons fun e he f hf => ?_
            obtain rfl : f = c := Option.some.inj (hf.symm.trans hp)
            exact lt_of_le_of_lt (hrest.le_head e he d hd) (hiff.1 hless)
        · next hnot =>
            refine (ih hp hc hps.2).insert hp fun e he => ?_
            obtain rfl : e = d := Option.some.inj (he.symm.trans hd)
            exact not_lt.1 (mt hiff.2 hnot)
    · next hnone =>
        refine (ih hp hc hps.2).insert hp fun e he => ?_
        rw [hnone] at he
        cases he

theorem cheapest?_eq_some (hps : ∀ q ∈ ps, ∀ d ∈ q.price, P d) (h : cheapest? lt ps = some x) :
    IsFirstCheapest key ps x := by
  induction ps with
  | nil => cases h
  | cons p ps ih =>
    rw [forall_mem_cons] at hps
    rw [cheapest?] at h
    split at h
    · next c hc =>
        cases h
        exact cheapestFrom_isFirstCheapest hlt hc (hps.1 c hc) hps.2
    · next hnone =>
        refine (ih hps.2 h).cons fun c _ d hd => ?_
        rw [hnone] at hd
        cases hd

omit hlt in
theorem cheapest?_eq_none (h : cheapest? lt ps = none) : ∀ p ∈ ps, p.price = none := by
  induction ps with
  | nil => exact forall_mem_nil _
  | cons p ps ih =>
    rw [cheapest?] at h
    split at h
    · cases h
    · next hnone => exact forall_mem_cons.2 ⟨hnone, ih h⟩

end Cheapest

/-! ### Wishes -/

variable {w : PartWish Float} {p : Part Float} {parts : List (Part Float)}

def Fits (w : PartWish Float) (p : Part Float) : Prop :=
  p.kind = w.kind.label ∧ p.package = w.package ∧ (∃ x, p.low = some x ∧ w.low ≤ x) ∧
    ∃ x, p.high = some x ∧ x ≤ w.high

theorem accepts_iff_fits : w.accepts (fun x y => x ≤ y) p = true ↔ w.Fits p := by
  simp only [accepts, Fits, Bool.and_eq_true, beq_iff_eq, Option.any_eq_true, decide_eq_true_eq]
  tauto

def pick (w : PartWish Float) (parts : List (Part Float)) : Option (Part Float) :=
  w.choose (fun x y => x ≤ y) (fun x y => x < y) parts

theorem pick_eq_none_iff : w.pick parts = none ↔ ∀ p ∈ parts, ¬w.Fits p := by
  constructor
  · intro h p hp hfits
    obtain ⟨-, hhead⟩ := Option.or_eq_none_iff.1 h
    rw [head?_eq_none_iff, filter_eq_nil_iff] at hhead
    exact hhead p hp (accepts_iff_fits.2 hfits)
  · intro h
    have hnone : parts.filter (w.accepts fun x y => x ≤ y) = [] :=
      filter_eq_nil_iff.2 fun p hp => mt accepts_iff_fits.1 (h p hp)
    simp only [pick, choose, hnone]
    rfl

/-- What is found among the parts that a wish accepts stands among all parts as it does among these:
those before it that fit are the ones before it there. -/
theorem exists_cut {before after : List (Part Float)}
    (h : parts.filter (w.accepts fun x y => x ≤ y) = before ++ p :: after) :
    ∃ bs as, parts = bs ++ p :: as ∧ w.Fits p ∧ (∀ r ∈ bs, w.Fits r → r ∈ before) ∧
      ∀ r ∈ as, w.Fits r → r ∈ after := by
  obtain ⟨bs, rest, rfl, rfl, hrest⟩ := filter_eq_append_iff.1 h
  obtain ⟨cs, as, rfl, hcs, hp, rfl⟩ := filter_eq_cons_iff.1 hrest
  refine ⟨bs ++ cs, as, (append_assoc ..).symm, accepts_iff_fits.1 hp, ?_, ?_⟩
  · intro r hr hfits
    rcases mem_append.1 hr with hr | hr
    · exact mem_filter.2 ⟨hr, accepts_iff_fits.2 hfits⟩
    · exact absurd (accepts_iff_fits.2 hfits) (hcs r hr)
  · exact fun r hr hfits => mem_filter.2 ⟨hr, accepts_iff_fits.2 hfits⟩

/-- A part is the right one for a wish: it fits, and it is the first of those that cost least, or
the first of all that fit if none of these has a price. -/
def IsBest (w : PartWish Float) (parts : List (Part Float)) (p : Part Float) : Prop :=
  ∃ before after, parts = before ++ p :: after ∧ w.Fits p ∧
    ((∃ c, p.price = some c ∧ (∀ r ∈ parts, w.Fits r → ∀ d ∈ r.price, c ≤ d) ∧
        ∀ r ∈ before, w.Fits r → ∀ d ∈ r.price, c < d) ∨
      (∀ r ∈ parts, w.Fits r → r.price = none) ∧ ∀ r ∈ before, ¬w.Fits r)

theorem isBest_of_pick (hparts : ∀ p ∈ parts, ∀ c ∈ p.price, c.isNaN = false)
    (h : w.pick parts = some p) : w.IsBest parts p := by
  have hlt : ∀ c d : Float, c.isNaN = false → d.isNaN = false →
      (decide (c < d) = true ↔ Number.place c < Number.place d) := fun c d hc hd => by
    rw [decide_eq_true_iff, Number.lt_iff_place hc hd]
  have hfitting : ∀ q ∈ parts.filter (w.accepts fun x y => x ≤ y), ∀ d ∈ q.price,
      d.isNaN = false := fun q hq => hparts q (mem_filter.1 hq).1
  rcases Option.or_eq_some_iff.1 h with hsome | ⟨hnone, hhead⟩
  · obtain ⟨c, before, after, hc, he, hbefore, hafter⟩ := cheapest?_eq_some hlt hfitting hsome
    obtain ⟨bs, as, rfl, hfits, hbs, has⟩ := exists_cut he
    have hnumber : c.isNaN = false := hparts p (by simp) c hc
    refine ⟨bs, as, rfl, hfits, .inl ⟨c, hc, fun r hr hr' d hd => ?_, fun r hr hr' d hd => ?_⟩⟩
    · rw [Number.le_iff_place hnumber (hparts r hr d hd)]
      rcases mem_append.1 hr with hr | hr
      · exact le_of_lt (hbefore r (hbs r hr hr') d hd)
      · rcases mem_cons.1 hr with rfl | hr
        · rw [Option.some.inj (hc.symm.trans hd)]
        · exact hafter r (has r hr hr') d hd
    · rw [Number.lt_iff_place hnumber (hparts r (mem_append_left _ hr) d hd)]
      exact hbefore r (hbs r hr hr') d hd
  · obtain ⟨rest, he⟩ := head?_eq_some_iff.1 hhead
    obtain ⟨bs, as, hcut, hfits, hbs, -⟩ := exists_cut (he.trans (nil_append _).symm)
    refine ⟨bs, as, hcut, hfits, .inr ⟨fun r hr hr' => ?_, fun r hr hr' => ?_⟩⟩
    · exact cheapest?_eq_none hnone r (mem_filter.2 ⟨hr, accepts_iff_fits.2 hr'⟩)
    · exact not_mem_nil (hbs r hr hr')

end PartWish

/-! ### Components -/

namespace Component

variable {a : Address} {kind : PartKind} {i : Instance} {w : PartWish Float}
  {parts : List (Part Float)} {lib lib' : Library}

theorem wish_eq_ok {q : Quantity Float} {lo hi : Float} {footprint package : String}
    (hvalue : i.get? "value" = some (.quantity q))
    (hlo : q.unit.convert kind.unit q.low = .ok lo)
    (hhi : q.unit.convert kind.unit q.high = .ok hi)
    (hfootprint : i.get? "footprint" = some (.text footprint))
    (hpackage : packages.lookup footprint = some package) :
    wish a kind i = .ok ⟨kind, lo, hi, package⟩ := by
  simp only [wish, hvalue, inUnit, hlo, hhi, hfootprint, packageOf, hpackage]
  rfl

theorem outcome_genericOf (hdata : (Library.dataOf a).outcome lib = (.ok i, lib'))
    (hwish : wish a kind i = .ok w) :
    (genericOf parts a kind).outcome lib =
      ((w.pick parts).elim (.error (w.unmet a)) .ok, lib') := by
  rw [genericOf, Work.outcome_bind_ok _ hdata, hwish, Work.outcome_ofExcept_ok_bind,
    ← PartWish.pick]
  cases w.pick parts <;> rfl

/-- A component of a generic sort that has a range of values, which can be given in the unit of its
sort, and a footprint that has a package. For any list of parts whose prices are numbers: that no
part matches is raised exactly if no part fits; and if one fits, the part that is found is the best
one. -/
theorem genericOf_cheapest {q : Quantity Float} {lo hi : Float} {footprint package : String}
    (hdata : (Library.dataOf a).outcome lib = (.ok i, lib'))
    (hvalue : i.get? "value" = some (.quantity q))
    (hlo : q.unit.convert kind.unit q.low = .ok lo)
    (hhi : q.unit.convert kind.unit q.high = .ok hi)
    (hfootprint : i.get? "footprint" = some (.text footprint))
    (hpackage : packages.lookup footprint = some package)
    (hparts : ∀ p ∈ parts, ∀ c ∈ p.price, c.isNaN = false) :
    let w : PartWish Float := ⟨kind, lo, hi, package⟩
    ((genericOf parts a kind).outcome lib = (.error (w.unmet a), lib') ↔
      ∀ p ∈ parts, ¬w.Fits p) ∧
    ((∃ p ∈ parts, w.Fits p) →
      ∃ p, (genericOf parts a kind).outcome lib = (.ok p, lib') ∧ w.IsBest parts p) := by
  intro w
  have houtcome : (genericOf parts a kind).outcome lib =
      ((w.pick parts).elim (.error (w.unmet a)) .ok, lib') :=
    outcome_genericOf hdata (wish_eq_ok hvalue hlo hhi hfootprint hpackage)
  rw [houtcome, ← PartWish.pick_eq_none_iff]
  cases hpick : w.pick parts with
  | none =>
    refine ⟨⟨fun _ => rfl, fun _ => rfl⟩, ?_⟩
    rintro ⟨p, hp, hfits⟩
    exact absurd hfits (PartWish.pick_eq_none_iff.1 hpick p hp)
  | some p =>
    exact ⟨by simp, fun _ => ⟨p, rfl, PartWish.isBest_of_pick hparts hpick⟩⟩

def resistors : List (Part Float) :=
  [⟨"A", some 100, "Resistor", some 95, some 105, "0402", none, "Ohms"⟩,
   ⟨"B", some 100, "Resistor", some 95, some 105, "0402", some 3, "Ohms"⟩,
   ⟨"C", some 100, "Resistor", some 80, some 120, "0402", some 1, "Ohms"⟩,
   ⟨"D", some 100, "Resistor", some 99, some 101, "0402", some 2, "Ohms"⟩,
   ⟨"E", some 100, "Resistor", some 99, some 101, "0402", some 2, "Ohms"⟩]

def genericResistor : Instance :=
  { levels := []
    override := ⟨[("value", .quantity ⟨.ohm, 90, 110⟩), ("footprint", .text "R0402")]⟩ }

theorem genericOf_cheapest_resistors :
    let lib : Library := { instances := ⟨[(⟨"f:A"⟩, { levels := [], children := ["r"] }),
      (⟨"f:A::r"⟩, genericResistor)]⟩ }
    ∃ p, (genericOf resistors ⟨"f:A::r"⟩ .resistor).outcome lib = (.ok p, lib) ∧
      PartWish.IsBest ⟨.resistor, 90, 110, "0402"⟩ resistors p := by
  intro lib
  have hparts : ∀ p ∈ resistors, ∀ c ∈ p.price, c.isNaN = false := by decide +kernel
  have hfits : PartWish.Fits ⟨.resistor, 90, 110, "0402"⟩
      ⟨"A", some 100, "Resistor", some 95, some 105, "0402", none, "Ohms"⟩ :=
    ⟨rfl, rfl, ⟨95, rfl, by decide +kernel⟩, 105, rfl, by decide +kernel⟩
  have hdata : (Library.dataOf ⟨"f:A::r"⟩).outcome lib = (.ok genericResistor, lib) := rfl
  have hvalue : genericResistor.get? "value" = some (.quantity ⟨.ohm, 90, 110⟩) := rfl
  have hlo : MeasureUnit.ohm.convert PartKind.resistor.unit 90 = .ok 90 := rfl
  have hhi : MeasureUnit.ohm.convert PartKind.resistor.unit 110 = .ok 110 := rfl
  exact (genericOf_cheapest hdata hvalue hlo hhi rfl rfl hparts).2 ⟨_, List.mem_cons_self, hfits⟩

end Component

end Boardwright
