import Boardwright.Proofs.Version.Order
import Boardwright.Proofs.Version.Reading
import Mathlib.Data.Nat.Log

/-!
# Versions in a row

The prereleases of two versions are compared part by part, and then by the lengths of their texts.
Of texts that can be prereleases, equal parts have equal lengths, so that the longer text is the one
with more parts: the order of prereleases is the lexicographic one of their parts, and the order of
versions that have been read is the lexicographic one of their pieces: `order_eq_compareRank`. In
particular it is transitive: `Proper.order_trans`.
-/

open List

namespace Boardwright

variable {p q : String} {s : List Char} {v : Version}

namespace Text

/-! ### How long a number is -/

theorem digit?_getD_lt (c : Char) : (digit? c).getD 0 < 10 := by
  unfold digit?
  cases hfind : zeros.find? fun z => z ≤ c.toNat && c.toNat < z + 10 with
  | none => exact Nat.succ_pos 9
  | some z =>
    have hz := find?_some hfind
    simp only [Bool.and_eq_true, decide_eq_true_eq] at hz
    simp only [Option.map_some, Option.getD_some]
    omega

theorem foldl_digits_bounds (m : Nat) (s : List Char) :
    m * 10 ^ s.length ≤ s.foldl (fun n c => n * 10 + (digit? c).getD 0) m ∧
      s.foldl (fun n c => n * 10 + (digit? c).getD 0) m < (m + 1) * 10 ^ s.length := by
  induction s generalizing m with
  | nil => simp
  | cons c s ih =>
    obtain ⟨hlow, hhigh⟩ := ih (m * 10 + (digit? c).getD 0)
    have hdigit := digit?_getD_lt c
    rw [foldl_cons, length_cons, pow_succ', ← mul_assoc, ← mul_assoc]
    constructor
    · exact (Nat.mul_le_mul_right _ (Nat.le_add_right _ _)).trans hlow
    · exact hhigh.trans_le (Nat.mul_le_mul_right _ (by omega))

end Text

namespace Version

/-- A number without a zero before it has as many digits as its value needs. -/
theorem length_of_isNumber (hs : isNumber s = true) :
    s.length = Nat.log 10 (Text.number s) + 1 := by
  unfold isNumber at hs
  split at hs
  · have hzero : Text.number ['0'] = 0 := by decide +kernel
    rw [hzero, Nat.log_zero_right]
    rfl
  · next c r _ =>
      simp only [Bool.and_eq_true, decide_eq_true_eq] at hs
      have hlow : 49 ≤ c.toNat := hs.1.1
      have hhigh : c.toNat ≤ 57 := hs.1.2
      have hdigit : Text.digit? c = some (c.toNat - 48) :=
        Text.digit?_of_isDigit (Char.isDigit_iff_toNat.2 ⟨Nat.le_of_succ_le hlow, hhigh⟩)
      obtain ⟨hle, hlt⟩ := Text.foldl_digits_bounds (c.toNat - 48) r
      have hnumber : Text.number (c :: r) =
          r.foldl (fun n c => n * 10 + (Text.digit? c).getD 0) (c.toNat - 48) := by
        simp [Text.number, hdigit]
      rw [length_cons, hnumber, Nat.log_eq_of_pow_le_of_lt_pow]
      · exact (Nat.le_mul_of_pos_left _ (by omega)).trans hle
      · rw [pow_succ']
        exact hlt.trans_le (Nat.mul_le_mul_right _ (by omega))
  · cases hs

/-! ### Parts of prereleases -/

theorem compareChars_eq (s t : List Char) :
    compareChars s t = List.compareLex compare (s.map Char.toNat) (t.map Char.toNat) := by
  induction s generalizing t with
  | nil => cases t <;> rfl
  | cons c s ih =>
    cases t with
    | nil => rfl
    | cons d t => rw [compareChars, ih, map_cons, map_cons, List.compareLex_cons_cons]

theorem transCmp_comap {α β : Type} (cmp : β → β → Ordering) [Std.TransCmp cmp] (f : α → β) :
    Std.TransCmp fun x y => cmp (f x) (f y) where
  eq_swap := Std.OrientedCmp.eq_swap
  isLE_trans := Std.TransCmp.isLE_trans

/-- A part is ranked as a number or, after all numbers, as a word. -/
def partRank (s : List Char) : Bool × Nat × List Nat :=
  if isNumeral s then (false, Text.number s, []) else (true, 0, s.map Char.toNat)

def comparePartRank : Bool × Nat × List Nat → Bool × Nat × List Nat → Ordering :=
  compareLex (compareOn (·.1)) (compareLex (compareOn (·.2.1)) fun x y =>
    List.compareLex compare x.2.2 y.2.2)

instance : Std.TransCmp comparePartRank :=
  have := transCmp_comap (List.compareLex compare) fun x : Bool × Nat × List Nat => x.2.2
  inferInstanceAs (Std.TransCmp (compareLex _ _))

theorem comparePart_eq (s t : List Char) :
    comparePart s t = comparePartRank (partRank s) (partRank t) := by
  unfold comparePart comparePartRank partRank
  cases isNumeral s <;> cases isNumeral t
  · simp [compareLex, compareOn, compareChars_eq]
  · rfl
  · rfl
  · simp [compareLex, compareOn, List.compareLex]

instance : Std.TransCmp comparePart := by
  rw [funext fun s => funext (comparePart_eq s)]
  exact transCmp_comap comparePartRank partRank

theorem isNumber_of_isNumeral (hs : isPrereleasePart s = true) (hnumeral : isNumeral s = true) :
    isNumber s = true := by
  rw [isPrereleasePart, Bool.or_eq_true] at hs
  refine hs.resolve_right fun hword => ?_
  have hdigits : s.dropWhile Text.isDigit = [] := by
    simp only [isNumeral, Bool.and_eq_true, all_eq_true] at hnumeral
    exact dropWhile_eq_nil_iff.2 hnumeral.2
  rw [hdigits] at hword
  cases hword

theorem length_eq_of_comparePart {t : List Char} (hs : isPrereleasePart s = true)
    (ht : isPrereleasePart t = true) (h : comparePart s t = .eq) : s.length = t.length := by
  unfold comparePart at h
  split at h
  · next hsn htn =>
      rw [length_of_isNumber (isNumber_of_isNumeral hs hsn),
        length_of_isNumber (isNumber_of_isNumeral ht htn), Nat.compare_eq_eq.1 h]
  · cases h
  · cases h
  · rw [compareChars_eq] at h
    simpa using congrArg List.length (Std.LawfulEqCmp.eq_of_compare h)

theorem compareParts_then {ss ts : List (List Char)} (hss : ∀ s ∈ ss, isPrereleasePart s = true)
    (hts : ∀ t ∈ ts, isPrereleasePart t = true) (hs : ss ≠ []) (ht : ts ≠ []) :
    (compareParts ss ts).then
        (compare (['.'].intercalate ss).length (['.'].intercalate ts).length) =
      List.compareLex comparePart ss ts := by
  induction ss generalizing ts with
  | nil => exact absurd rfl hs
  | cons s ss ih =>
    cases ts with
    | nil => exact absurd rfl ht
    | cons t ts =>
      rw [forall_mem_cons] at hss hts
      rw [compareParts, Ordering.then_assoc, List.compareLex_cons_cons]
      cases hpart : comparePart s t with
      | lt | gt => rfl
      | eq =>
        have hlength := length_eq_of_comparePart hss.1 hts.1 hpart
        cases ss with
        | nil =>
          cases ts with
          | nil => simp [compareParts, hlength, List.compareLex]
          | cons t' ts =>
            have hlonger : s.length < (['.'].intercalate (t :: t' :: ts)).length := by
              simp [intercalate_cons_cons, hlength]
            simpa [compareParts, List.compareLex] using Nat.compare_eq_lt.2 hlonger
        | cons s' ss =>
          cases ts with
          | nil =>
            have hlonger : t.length < (['.'].intercalate (s :: s' :: ss)).length := by
              simp [intercalate_cons_cons, hlength]
            simpa [compareParts, List.compareLex] using Nat.compare_eq_gt.2 hlonger
          | cons t' ts =>
            rw [← ih hss.2 hts.2 (by simp) (by simp)]
            simp [intercalate_cons_cons, hlength, Nat.compare_eq_ite_lt]

/-! ### Versions that have been read -/

def Proper (v : Version) : Prop :=
  ∀ p ∈ v.prerelease, ∀ s ∈ p.toList.splitOn '.', isPrereleasePart s = true

theorem proper_of_parse {s : String} (h : parse s = .ok v) : v.Proper := by
  obtain ⟨f, rfl⟩ := exists_form_of_parse h
  intro p hp s hs
  obtain ⟨t, ht, rfl⟩ := Option.map_eq_some_iff.1 hp
  rw [String.toList_ofList] at hs
  exact all_eq_true.1 (f.isPart_prerelease t ht) s hs

def parts (v : Version) : List (List Char) := (v.prerelease.getD "").toList.splitOn '.'

/-- The lexicographic order of the pieces of versions: the numbers, then prereleases before
releases, then the parts of the prereleases. -/
def compareRank : Version → Version → Ordering :=
  compareLex (compareLex (compareLex (compareOn major) (compareOn minor)) (compareOn patch))
    (compareLex (compareOn fun v => (v.prerelease.getD "").isEmpty)
      fun v w => List.compareLex comparePart v.parts w.parts)

instance : Std.TransCmp compareRank :=
  have := transCmp_comap (List.compareLex comparePart) parts
  inferInstanceAs (Std.TransCmp (compareLex _ _))

theorem comparePrerelease_ne_eq (h : p.isEmpty ≠ q.isEmpty) : comparePrerelease p q ≠ .eq := by
  intro heq
  rw [comparePrerelease, Ordering.then_eq_eq, Nat.compare_eq_eq] at heq
  rw [ne_eq, Bool.eq_iff_iff, String.isEmpty_iff, String.isEmpty_iff, ← String.length_eq_zero_iff,
    ← String.length_eq_zero_iff, heq.2] at h
  exact h Iff.rfl

theorem comparePrerelease_eq (hp : ∀ s ∈ p.toList.splitOn '.', isPrereleasePart s = true)
    (hq : ∀ s ∈ q.toList.splitOn '.', isPrereleasePart s = true) :
    comparePrerelease p q =
      List.compareLex comparePart (p.toList.splitOn '.') (q.toList.splitOn '.') := by
  rw [← compareParts_then hp hq (splitOn_ne_nil _ _) (splitOn_ne_nil _ _),
    intercalate_splitOn, intercalate_splitOn, String.length_toList, String.length_toList]
  rfl

theorem orderPrerelease_eq
    (hp : p.isEmpty = false → ∀ s ∈ p.toList.splitOn '.', isPrereleasePart s = true)
    (hq : q.isEmpty = false → ∀ s ∈ q.toList.splitOn '.', isPrereleasePart s = true) :
    orderPrerelease p q = (compare p.isEmpty q.isEmpty).then
      (List.compareLex comparePart (p.toList.splitOn '.') (q.toList.splitOn '.')) := by
  by_cases hsame : p.isEmpty = q.isEmpty
  · cases hempty : p.isEmpty with
    | true =>
      obtain rfl := String.isEmpty_iff.1 hempty
      obtain rfl := String.isEmpty_iff.1 (hsame.symm.trans hempty)
      decide +kernel
    | false =>
      have hempty' : q.isEmpty = false := hsame.symm.trans hempty
      rw [← comparePrerelease_eq (hp hempty) (hq hempty'), orderPrerelease, hempty, hempty']
      cases comparePrerelease p q <;> rfl
  · unfold orderPrerelease
    cases hcompare : comparePrerelease p q with
    | eq => exact absurd hcompare (comparePrerelease_ne_eq hsame)
    | lt | gt =>
      cases hempty : p.isEmpty with
      | true =>
        have hempty' : q.isEmpty = false := by simpa [hempty] using hsame
        rw [hempty']
        rfl
      | false =>
        have hempty' : q.isEmpty = true := by simpa [hempty] using hsame
        rw [hempty']
        rfl

theorem Proper.order_eq_compareRank {w : Version} (hv : v.Proper) (hw : w.Proper) :
    v.order w = compareRank v w := by
  have hproper : ∀ {x : Version}, x.Proper → (x.prerelease.getD "").isEmpty = false →
      ∀ s ∈ (x.prerelease.getD "").toList.splitOn '.', isPrereleasePart s = true := by
    intro x hx hne
    cases hpre : x.prerelease with
    | none => simp [hpre] at hne
    | some p => exact hx p hpre
  rw [order_eq, orderPrerelease_eq (hproper hv) (hproper hw)]
  rfl

theorem Proper.order_trans {u w : Version} (hu : u.Proper) (hv : v.Proper) (hw : w.Proper)
    (huv : u.order v ≠ .gt) (hvw : v.order w ≠ .gt) : u.order w ≠ .gt := by
  rw [hu.order_eq_compareRank hv] at huv
  rw [hv.order_eq_compareRank hw] at hvw
  rw [hu.order_eq_compareRank hw]
  rw [ne_eq, Ordering.ne_gt_iff_isLE] at *
  exact Std.TransCmp.isLE_trans huv hvw

end Version

end Boardwright
