import Boardwright.Proofs.Text
import Boardwright.Text.Blank
import Boardwright.Version.Basic
import Mathlib.Data.List.Basic
import Mathlib.Data.List.TakeWhile
import Mathlib.Tactic.IntervalCases

/-!
# The strict form of versions

A `Form` holds the pieces of a version in the strict form. A text is read as a version exactly if it
is the text of a form, but for the end of a line behind it: `strict_eq_some_iff`. The text of a
version that has been read is the text of a form too, so that it is read as the same version again:
`Form.exists_text_eq`.
-/

open List

namespace Boardwright

variable {c : Char} {s : List Char}

namespace Text

/-! ### Digits -/

theorem isDigit_iff : isDigit c = true ↔ ∃ z ∈ zeros, z ≤ c.toNat ∧ c.toNat < z + 10 := by
  simp [isDigit, digit?]

theorem digit?_of_isDigit (h : c.isDigit = true) : digit? c = some (c.toNat - 48) := by
  obtain ⟨hlow, hhigh⟩ : 48 ≤ c.toNat ∧ c.toNat ≤ 57 := Char.isDigit_iff_toNat.1 h
  have hzero : zeros = 0x30 :: zeros.tail := rfl
  have hfind : (0x30 ≤ c.toNat && c.toNat < 0x30 + 10) = true := by
    simp only [Bool.and_eq_true, decide_eq_true_eq]
    omega
  rw [digit?, hzero, find?_cons, hfind]
  rfl

theorem isDigit_of_isDigit (h : c.isDigit = true) : isDigit c = true := by
  rw [isDigit, digit?_of_isDigit h]
  rfl

theorem number_toDigits (n : Nat) : number (Nat.toDigits 10 n) = n := by
  have hfold (m : Nat) {s : List Char} (hs : ∀ c ∈ s, c.isDigit = true) :
      s.foldl (fun n c => n * 10 + (digit? c).getD 0) m = Nat.ofDigitChars 10 s m := by
    induction s generalizing m with
    | nil => rfl
    | cons c s ih =>
      rw [forall_mem_cons] at hs
      rw [foldl_cons, ih _ hs.2, digit?_of_isDigit hs.1, Nat.mul_comm]
      rfl
  rw [number, hfold 0 fun c hc => Nat.isDigit_of_mem_toDigits (by decide) (by decide) hc,
    Nat.ofDigitChars_ten_toDigits]

theorem mem_splitOn {s : List Char} {a c : Char} (h : c ∈ s) : c = a ∨ ∃ t ∈ s.splitOn a, c ∈ t := by
  by_cases ha : a ∈ s
  · obtain ⟨u, v, rfl, hu⟩ := eq_append_cons_of_mem ha
    rw [splitOn_append_cons_self_of_not_mem hu]
    rcases mem_append.1 h with h | h
    · exact .inr ⟨u, mem_cons_self, h⟩
    · rcases mem_cons.1 h with h | h
      · exact .inl h
      · exact (mem_splitOn h).imp_right fun ⟨t, ht, hc⟩ => ⟨t, mem_cons_of_mem u ht, hc⟩
  · exact .inr ⟨s, by rw [splitOn_eq_singleton ha, mem_singleton], h⟩
termination_by s.length

end Text

namespace Version

/-! ### Pieces -/

def sectionOf (mark : Char) : Option (List Char) → List Char
  | none => []
  | some s => mark :: s

theorem cutAt_append (hs : c ∉ s) (o : Option (List Char)) :
    cutAt c (s ++ sectionOf c o) = (s, o) := by
  rw [cutAt, Text.cut_append [] hs]
  cases o <;> simp [sectionOf, Text.cut]

variable {o : Option (List Char)} {ok : List Char → Bool}

theorem eq_append_of_cutAt {before : List Char}
    (h : cutAt c s = (before, o)) : s = before ++ sectionOf c o := by
  rw [cutAt] at h
  split at h
  · next hcut =>
      obtain ⟨rfl, rfl⟩ := Prod.mk.inj h
      simpa [sectionOf] using Text.eq_append_of_cut hcut
  · obtain ⟨rfl, rfl⟩ := Prod.mk.inj h
    simp [sectionOf]

theorem parts?_eq_some_iff {p : Option String} :
    parts? ok o = some p ↔
      (∀ s ∈ o, (s.splitOn '.').all ok = true) ∧ o.map String.ofList = p := by
  cases o with
  | none => simp [parts?]
  | some s => by_cases hs : (s.splitOn '.').all ok = true <;> simp_all [parts?]

def isPartChar (c : Char) : Bool := Text.isDigit c || isIdentChar c || c == '.'

def isVersionChar (c : Char) : Bool := isPartChar c || c == '+'

theorem isNumber_eq_cons (hs : isNumber s = true) :
    ∃ c r, s = c :: r ∧ c.isDigit = true ∧ ∀ d ∈ r, Text.isDigit d = true := by
  unfold isNumber at hs
  split at hs
  · exact ⟨'0', [], rfl, rfl, nofun⟩
  · next c r _ =>
      simp only [Bool.and_eq_true, decide_eq_true_eq, all_eq_true] at hs
      obtain ⟨⟨hlow, hhigh⟩, hr⟩ := hs
      have hlow' : '1'.toNat ≤ c.toNat := hlow
      refine ⟨c, r, rfl, Char.isDigit_iff_toNat.2 ⟨?_, hhigh⟩, hr⟩
      exact Nat.le_trans (by decide) hlow'
  · cases hs

theorem isDigit_of_isNumber (hs : isNumber s = true) : ∀ c ∈ s, Text.isDigit c = true := by
  obtain ⟨c, r, rfl, hc, hr⟩ := isNumber_eq_cons hs
  exact forall_mem_cons.2 ⟨Text.isDigit_of_isDigit hc, hr⟩

theorem isPartChar_of_isPrereleasePart (hs : isPrereleasePart s = true) :
    ∀ c ∈ s, isPartChar c = true := by
  intro c hc
  rw [isPrereleasePart, Bool.or_eq_true] at hs
  rcases hs with hs | hs
  · simp [isPartChar, isDigit_of_isNumber hs c hc]
  · rw [← takeWhile_append_dropWhile (p := Text.isDigit) (l := s), mem_append] at hc
    rcases hc with hc | hc
    · simp [isPartChar, mem_takeWhile_imp hc]
    · split at hs
      · next d r hdrop =>
          rw [hdrop] at hc
          simp only [Bool.and_eq_true, Bool.or_eq_true, all_eq_true] at hs
          have hident : isIdentChar c = true := by
            rcases mem_cons.1 hc with rfl | hc
            · rcases hs.1 with h | h <;> simp [isIdentChar, Char.isAlphanum, h]
            · exact hs.2 c hc
          simp [isPartChar, hident]
      · cases hs

theorem isPartChar_of_isBuildPart (hs : isBuildPart s = true) : ∀ c ∈ s, isPartChar c = true := by
  simp only [isBuildPart, Bool.and_eq_true, all_eq_true] at hs
  intro c hc
  simp [isPartChar, hs.2 c hc]

theorem isPartChar_of_splitOn
    (hok : ∀ {s}, ok s = true → ∀ c ∈ s, isPartChar c = true) (hs : (s.splitOn '.').all ok = true) :
    ∀ c ∈ s, isPartChar c = true := by
  intro c hc
  rcases Text.mem_splitOn (a := '.') hc with rfl | ⟨t, ht, hc⟩
  · rfl
  · exact hok (all_eq_true.1 hs t ht) c hc

/-! ### Forms -/

/-- The pieces of a version in the strict form. -/
structure Form where
  major : List Char
  minor : List Char
  patch : List Char
  prerelease : Option (List Char)
  build : Option (List Char)
  isNumber_major : isNumber major = true
  isNumber_minor : isNumber minor = true
  isNumber_patch : isNumber patch = true
  isPart_prerelease : ∀ s ∈ prerelease, (s.splitOn '.').all isPrereleasePart = true
  isPart_build : ∀ s ∈ build, (s.splitOn '.').all isBuildPart = true

namespace Form

variable (f : Form)

def numbers : List Char := ['.'].intercalate [f.major, f.minor, f.patch]

/-- What stands before the build. -/
def front : List Char := f.numbers ++ sectionOf '-' f.prerelease

def text : List Char := f.front ++ sectionOf '+' f.build

def version : Version where
  major := Text.number f.major
  minor := Text.number f.minor
  patch := Text.number f.patch
  prerelease := f.prerelease.map String.ofList
  build := f.build.map String.ofList

theorem mem_numbers (hc : c ∈ f.numbers) : Text.isDigit c = true ∨ c = '.' := by
  have hc' : c ∈ f.major ∨ c = '.' ∨ c ∈ f.minor ∨ c = '.' ∨ c ∈ f.patch := by
    simpa [numbers, intercalate_cons_cons] using hc
  rcases hc' with hc | hc | hc | hc | hc
  · exact .inl (isDigit_of_isNumber f.isNumber_major c hc)
  · exact .inr hc
  · exact .inl (isDigit_of_isNumber f.isNumber_minor c hc)
  · exact .inr hc
  · exact .inl (isDigit_of_isNumber f.isNumber_patch c hc)

theorem isPartChar_front (hc : c ∈ f.front) : isPartChar c = true := by
  rcases mem_append.1 hc with hc | hc
  · rcases f.mem_numbers hc with hc | rfl
    · simp [isPartChar, hc]
    · rfl
  · cases hpre : f.prerelease with
    | none => simp [hpre, sectionOf] at hc
    | some s =>
      rw [hpre] at hc
      rcases mem_cons.1 hc with rfl | hc
      · decide
      · exact isPartChar_of_splitOn isPartChar_of_isPrereleasePart (f.isPart_prerelease s hpre) c hc

theorem isVersionChar_text (hc : c ∈ f.text) : isVersionChar c = true := by
  rcases mem_append.1 hc with hc | hc
  · simp [isVersionChar, f.isPartChar_front hc]
  · cases hbuild : f.build with
    | none => simp [hbuild, sectionOf] at hc
    | some s =>
      rw [hbuild] at hc
      rcases mem_cons.1 hc with rfl | hc
      · decide
      · have hpart := isPartChar_of_splitOn isPartChar_of_isBuildPart (f.isPart_build s hbuild) c hc
        simp [isVersionChar, hpart]

theorem exists_head_text : ∃ c ∈ f.text.head?, c.isDigit = true := by
  obtain ⟨c, r, hmajor, hc, -⟩ := isNumber_eq_cons f.isNumber_major
  exact ⟨c, by simp [text, front, numbers, intercalate_cons_cons, hmajor], hc⟩

end Form

/-- A text without the end of its last line. -/
def chomp (s : List Char) : List Char :=
  match s.reverse with
  | '\n' :: r => r.reverse
  | _ => s

def strict (s : List Char) : Option Version :=
  let (front, build) := cutAt '+' s
  let (numbers, prerelease) := cutAt '-' front
  match numbers.splitOn '.' with
  | [a, b, c] =>
    if isNumber a && isNumber b && isNumber c then do
      let prerelease ← parts? isPrereleasePart prerelease
      let build ← parts? isBuildPart build
      pure ⟨Text.number a, Text.number b, Text.number c, prerelease, build⟩
    else none
  | _ => none

theorem readChars_eq (s : List Char) : readChars s = strict (chomp s) := rfl

theorem strict_text (f : Form) : strict f.text = some f.version := by
  have hplus : '+' ∉ f.front := fun h => absurd (f.isPartChar_front h) (by decide)
  have hminus : '-' ∉ f.numbers := by
    intro h
    rcases f.mem_numbers h with h | h
    · exact absurd h (by decide)
    · cases h
  have hsplit : f.numbers.splitOn '.' = [f.major, f.minor, f.patch] := by
    have hnumbers : ∀ s ∈ [f.major, f.minor, f.patch], isNumber s = true := by
      simp [f.isNumber_major, f.isNumber_minor, f.isNumber_patch]
    refine List.splitOn_intercalate '.' (fun s hs hdot => ?_) (by simp)
    exact absurd (isDigit_of_isNumber (hnumbers s hs) '.' hdot) (by decide)
  have hpre := parts?_eq_some_iff.2 ⟨f.isPart_prerelease, rfl⟩
  have hbuild := parts?_eq_some_iff.2 ⟨f.isPart_build, rfl⟩
  have hcut : cutAt '+' f.text = (f.front, f.build) := cutAt_append hplus _
  have hcut' : cutAt '-' f.front = (f.numbers, f.prerelease) := cutAt_append hminus _
  simp only [strict, hcut, hcut', hsplit, f.isNumber_major, f.isNumber_minor, f.isNumber_patch,
    hpre, hbuild]
  rfl

theorem strict_eq_some_iff {v : Version} :
    strict s = some v ↔ ∃ f : Form, s = f.text ∧ v = f.version := by
  constructor
  · intro h
    obtain ⟨front, build, hplus⟩ : ∃ front build, cutAt '+' s = (front, build) := ⟨_, _, rfl⟩
    obtain ⟨numbers, pre, hminus⟩ : ∃ numbers pre, cutAt '-' front = (numbers, pre) := ⟨_, _, rfl⟩
    simp only [strict, hplus, hminus] at h
    split at h
    · next a b c hsplit =>
        split at h
        · next hnumbers =>
            simp only [Bool.and_eq_true] at hnumbers
            obtain ⟨p, hp, h⟩ := Option.bind_eq_some_iff.1 h
            obtain ⟨q, hq, h⟩ := Option.bind_eq_some_iff.1 h
            obtain ⟨hpre, rfl⟩ := parts?_eq_some_iff.1 hp
            obtain ⟨hbuild, rfl⟩ := parts?_eq_some_iff.1 hq
            refine ⟨⟨a, b, c, pre, build, hnumbers.1.1, hnumbers.1.2, hnumbers.2, hpre, hbuild⟩, ?_,
              (Option.some.inj h).symm⟩
            rw [Form.text, Form.front, Form.numbers, ← hsplit, intercalate_splitOn,
              ← eq_append_of_cutAt hminus, ← eq_append_of_cutAt hplus]
        · cases h
    · cases h
  · rintro ⟨f, rfl, rfl⟩
    exact strict_text f

/-! ### Texts of versions -/

theorem isNumber_cons {r : List Char} (hlow : '1' ≤ c) (hhigh : c ≤ '9')
    (hr : ∀ d ∈ r, Text.isDigit d = true) : isNumber (c :: r) = true := by
  unfold isNumber
  split
  · rfl
  · next heq =>
      obtain ⟨rfl, rfl⟩ := List.cons.inj heq
      simpa [hlow, hhigh] using hr
  · next heq => cases heq

theorem exists_toDigits_eq_cons {n : Nat} (hn : 0 < n) :
    ∃ c r, Nat.toDigits 10 n = c :: r ∧ '1' ≤ c ∧ c ≤ '9' := by
  induction n using Nat.strong_induction_on with
  | _ n ih =>
    rw [Nat.toDigits_eq_if (by decide)]
    split
    · refine ⟨_, [], rfl, ?_⟩
      interval_cases n <;> decide
    · obtain ⟨c, r, hdigits, hc⟩ := ih (n / 10) (by omega) (by omega)
      exact ⟨c, r ++ [Nat.digitChar (n % 10)], by rw [hdigits]; rfl, hc⟩

theorem isNumber_toDigits (n : Nat) : isNumber (Nat.toDigits 10 n) = true := by
  rcases Nat.eq_zero_or_pos n with rfl | hn
  · rfl
  · obtain ⟨c, r, hdigits, hlow, hhigh⟩ := exists_toDigits_eq_cons hn
    have hdigit : ∀ d ∈ c :: r, d.isDigit = true := fun d hd =>
      Nat.isDigit_of_mem_toDigits (by decide) (by decide) (hdigits ▸ hd)
    rw [hdigits]
    exact isNumber_cons hlow hhigh fun d hd =>
      Text.isDigit_of_isDigit (hdigit d (mem_cons_of_mem c hd))

theorem Form.exists_text_eq (f : Form) :
    ∃ g : Form, g.text = f.version.text.toList ∧ g.version = f.version := by
  refine ⟨⟨Nat.toDigits 10 (Text.number f.major), Nat.toDigits 10 (Text.number f.minor),
    Nat.toDigits 10 (Text.number f.patch), f.prerelease, f.build, isNumber_toDigits _,
    isNumber_toDigits _, isNumber_toDigits _, f.isPart_prerelease, f.isPart_build⟩, ?_, ?_⟩
  · obtain ⟨major, minor, patch, prerelease, build, _, _, _, _, _⟩ := f
    cases prerelease <;> cases build <;>
      simp [Form.text, Form.front, Form.numbers, Form.version, Version.text, sectionOf,
        intercalate_cons_cons]
  · simp [Form.version, Text.number_toDigits]

end Version

end Boardwright
