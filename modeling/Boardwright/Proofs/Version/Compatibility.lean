import Boardwright.Proofs.Version.Specifier

/-!
# Compatible compilers

A compiler builds what an older one was used for, as long as no breaking release came between the
two: a major one, or before the first major release a minor one. Asking for it by a specifier comes
to this relation: `supports_eq`. A compiler before its release stands for a later version, which
supports it as well: `compatible_standsFor`.
-/

namespace Boardwright.Version

/-- A release can build what an older version with the same major number built; before the first
major release the minor numbers are the same too. -/
def Compatible (b c : Version) : Prop :=
  b.le c = true ∧ b.major = c.major ∧ (c.major = 0 → b.minor = c.minor)

instance (b c : Version) : Decidable (Compatible b c) :=
  inferInstanceAs (Decidable (_ ∧ _ ∧ (_ → _)))

/-! ### Releases -/

theorem order_self (v : Version) : v.order v = .eq := by
  have hswap := order_swap v v
  cases h : v.order v <;> simp_all

theorem released_clean (v : Version) : v.clean.Released := rfl

theorem Released.order_clean {v : Version} (hv : v.Released) (x : Version) :
    v.clean.order x = v.order x := by
  rw [order_eq, order_eq, hv]
  rfl

theorem released_standsFor (c : Version) : c.standsFor.Released := by
  unfold standsFor
  split
  · next h => exact String.isEmpty_iff.1 h
  · split <;> rfl

theorem standsFor_of_released {c : Version} (hc : c.Released) : c.standsFor = c := by
  rw [standsFor, if_pos (String.isEmpty_iff.2 hc)]

theorem compatible_standsFor (c : Version) : Compatible c c.standsFor := by
  by_cases hc : c.Released
  · rw [standsFor_of_released hc]
    exact ⟨by rw [le, order_self]; rfl, rfl, fun _ => rfl⟩
  · have hempty : ¬(c.prerelease.getD "").isEmpty := fun h => hc (String.isEmpty_iff.1 h)
    have hreleased := c.released_standsFor
    rw [Compatible, le_iff, ne_eq, hreleased.order_eq_lt_iff, orderNumbers_eq_lt_iff]
    rw [standsFor, if_neg hempty]
    by_cases hmajor : c.major = 0
    · rw [if_pos hmajor]
      simp [bumpPatch, clean]
    · rw [if_neg hmajor]
      simp [bumpMinor, clean, hmajor]

/-! ### Support -/

theorem Released.holds_caret_iff {b c : Version} (hc : c.Released) (hmajor : c.major ≠ 0) :
    Operator.Holds c.clean b .caret ↔ Compatible b c := by
  rw [Operator.Holds, c.released_clean.caret_iff, hc.order_clean, ← le_iff, Compatible]
  simp [hmajor, clean]

theorem Released.holds_tilde_iff {b c : Version} (hc : c.Released) (hmajor : c.major = 0) :
    Operator.Holds c.clean b .tilde ↔ Compatible b c := by
  rw [Operator.Holds, c.released_clean.tilde_iff, hc.order_clean, ← le_iff, Compatible]
  simp [hmajor, clean]

theorem supports_eq {b : Version} (hb : parse b.text = .ok b) (c : Version) :
    c.supports b = .ok (decide (Compatible b c.standsFor)) := by
  have hreleased := c.released_standsFor
  rw [supports]
  by_cases hmajor : c.standsFor.major = 0
  · have hsatisfies := c.standsFor.satisfies_mark .tilde hb
    simp only [hreleased.holds_tilde_iff hmajor] at hsatisfies
    rw [if_pos hmajor]
    exact hsatisfies
  · have hsatisfies := c.standsFor.satisfies_mark .caret hb
    simp only [hreleased.holds_caret_iff hmajor] at hsatisfies
    rw [if_neg hmajor]
    exact hsatisfies

/-- A release supports what an older version with the same major number was used for, if before the
first major release the minor numbers are the same too; and every compiler supports what it was
itself used for. -/
theorem supports_of_parse {s t : String} {b c : Version} (hb : parse s = .ok b)
    (hc : parse t = .ok c) :
    (c.prerelease = none → c.supports b =
      .ok (decide (b.le c = true ∧ b.major = c.major ∧ (c.major = 0 → b.minor = c.minor)))) ∧
    c.supports c = .ok true := by
  constructor
  · intro hrelease
    have hreleased : c.Released := by rw [Released, hrelease]; rfl
    rw [supports_eq (parse_text_of_parse hb), standsFor_of_released hreleased]
    rfl
  · rw [supports_eq (parse_text_of_parse hc), decide_eq_true c.compatible_standsFor]

/-- A released compiler, and one before its release. -/
theorem supports_of_parse_dev :
    (⟨0, 2, 3, none, none⟩ : Version).supports ⟨0, 2, 1, some "dev4", some "g01"⟩ = .ok true ∧
    (⟨0, 2, 1, some "dev4", some "g01"⟩ : Version).supports ⟨0, 2, 1, some "dev4", some "g01"⟩ =
      .ok true := by
  have hdev : parse "v0.2.1.dev4+g01" = .ok ⟨0, 2, 1, some "dev4", some "g01"⟩ := by decide +kernel
  have hrelease : parse "0.2.3" = .ok ⟨0, 2, 3, none, none⟩ := by decide +kernel
  exact ⟨(supports_of_parse hdev hrelease).1 rfl, (supports_of_parse hrelease hdev).2⟩

end Boardwright.Version
