import Boardwright.Proofs.Version.Form

/-!
# Reading versions

A version is read with or without a `v` before it, in the strict form or in a form with a dot
before the prerelease: `parse_eq_ok_iff`. Whatever is read consists of `isVersionChar`, begins with
a digit or a `v`, and may have the end of a line behind it that does not matter:
`exists_body_of_parse`. A version that has been read is read again from its text:
`parse_text_of_parse`.
-/

open List

open Option

namespace Boardwright.Version

variable {s : List Char} {v x : Version}

/-! ### The dot before the prerelease -/

/-- A text with a hyphen for the dot that comes after `n` others, or at its end if there is none. -/
def dashAt : Nat → List Char → List Char
  | _, [] => ['-']
  | 0, c :: s => if c = '.' then '-' :: s else c :: dashAt 0 s
  | n + 1, c :: s => c :: dashAt (if c = '.' then n else n + 1) s

/-- The text is cut at its dots and put together again. -/
theorem dashAt_splitOn (n : Nat) (s : List Char) :
    ['.'].intercalate ((s.splitOn '.').take (n + 1)) ++
      '-' :: ['.'].intercalate ((s.splitOn '.').drop (n + 1)) = dashAt n s := by
  induction s generalizing n with
  | nil => simp [dashAt]
  | cons c s ih =>
    obtain ⟨t, ts, hts⟩ := exists_cons_of_ne_nil (splitOn_ne_nil '.' s)
    rw [splitOn_cons_eq_if_modifyHead]
    by_cases hc : c = '.'
    · cases n with
      | zero => simp [dashAt, hc, intercalate_splitOn]
      | succ n =>
        have hrest := ih n
        simp only [hts, take_succ_cons, drop_succ_cons] at hrest
        simp [dashAt, hc, hts, intercalate_cons_cons, ← hrest]
    · have hrest := ih n
      simp only [hts, take_succ_cons, drop_succ_cons] at hrest
      have hdash : dashAt n (c :: s) = c :: dashAt n s := by cases n <;> simp [dashAt, hc]
      rw [hdash, if_neg (by simpa using hc), hts, ← hrest]
      cases h : ts.take n <;> simp [h, intercalate_cons_cons]

theorem hyphenated_eq (s : String) : hyphenated s = String.ofList (dashAt 2 s.toList) := by
  have hsplit : Text.split "." s = (s.toList.splitOn '.').map String.ofList := by
    rw [Text.split, ← Text.splitOn_singleton]
    rfl
  rw [← String.toList_inj, String.toList_ofList, ← dashAt_splitOn, hyphenated, hsplit]
  simp [Text.join, map_take, map_drop, Function.comp_def]

theorem mem_dashAt {n : Nat} {c : Char} (h : c ∈ s) : c = '.' ∨ c ∈ dashAt n s := by
  induction s generalizing n with
  | nil => cases h
  | cons d s ih =>
    cases n with
    | zero =>
      rw [dashAt]
      split <;> rcases mem_cons.1 h with rfl | h
      · next hd => exact .inl hd
      · exact .inr (mem_cons_of_mem _ h)
      · exact .inr mem_cons_self
      · exact (ih h).imp_right (mem_cons_of_mem _)
    | succ n =>
      rw [dashAt]
      rcases mem_cons.1 h with rfl | h
      · exact .inr mem_cons_self
      · exact (ih h).imp_right (mem_cons_of_mem _)

theorem dashAt_ne_nil (n : Nat) (s : List Char) : dashAt n s ≠ [] := by
  cases s with
  | nil => simp [dashAt]
  | cons c s =>
    cases n with
    | zero => by_cases hc : c = '.' <;> simp [dashAt, hc]
    | succ n => simp [dashAt]

theorem getLast?_dashAt {n : Nat} (h : s.getLast? ≠ some '\n') :
    (dashAt n s).getLast? ≠ some '\n' := by
  induction s generalizing n with
  | nil => simp [dashAt]
  | cons c s ih =>
    rw [getLast?_cons] at h
    have htail : s.getLast? ≠ some '\n' := fun hlast => h (by rw [hlast]; rfl)
    have hrest (n : Nat) : (c :: dashAt n s).getLast? ≠ some '\n' := by
      rw [getLast?_cons]
      cases hlast : (dashAt n s).getLast? with
      | none => simp [dashAt_ne_nil] at hlast
      | some d => simpa [hlast] using ih (n := n) htail
    cases n with
    | succ n => exact hrest _
    | zero =>
      rw [dashAt]
      split
      · rw [getLast?_cons]
        cases hlast : s.getLast? with
        | none => simp
        | some d => simpa [hlast] using htail
      · exact hrest 0

/-- The end of a line stays behind the hyphen. -/
theorem dashAt_append (n : Nat) (s : List Char) :
    dashAt n (s ++ ['\n']) = dashAt n s ++ ['\n'] ∨ dashAt n (s ++ ['\n']) = s ++ ['\n', '-'] := by
  induction s generalizing n with
  | nil => exact .inr (by cases n <;> rfl)
  | cons c s ih =>
    cases n with
    | zero =>
      rw [cons_append, dashAt, dashAt]
      split
      · exact .inl rfl
      · simpa using ih 0
    | succ n =>
      rw [cons_append, dashAt, dashAt]
      simpa using ih _

/-! ### The end of a line -/

theorem chomp_append (s : List Char) : chomp (s ++ ['\n']) = s := by simp [chomp]

theorem chomp_eq_self (h : s.getLast? ≠ some '\n') : chomp s = s := by
  unfold chomp
  split
  · next r hr =>
      rw [← head?_reverse, hr] at h
      exact absurd rfl h
  · rfl

theorem getLast?_ne_of_forall (hs : ∀ c ∈ s, isVersionChar c = true) : s.getLast? ≠ some '\n' :=
  fun h => absurd (hs '\n' (mem_of_getLast? h)) (by decide)

theorem Form.not_mem_text (f : Form) : '\n' ∉ f.text :=
  fun h => absurd (f.isVersionChar_text h) (by decide)

theorem readChars_eq_some_iff :
    readChars s = some v ↔ ∃ f : Form, (s = f.text ∨ s = f.text ++ ['\n']) ∧ v = f.version := by
  rw [readChars_eq]
  constructor
  · intro h
    obtain ⟨f, hf, rfl⟩ := strict_eq_some_iff.1 h
    refine ⟨f, ?_, rfl⟩
    by_cases hlast : s.getLast? = some '\n'
    · obtain ⟨r, rfl⟩ := getLast?_eq_some_iff.1 hlast
      rw [chomp_append] at hf
      exact .inr (by rw [hf])
    · exact .inl (by rwa [chomp_eq_self hlast] at hf)
  · rintro ⟨f, rfl | rfl, rfl⟩
    · rw [chomp_eq_self (getLast?_ne_of_forall fun c => f.isVersionChar_text)]
      exact strict_text f
    · rw [chomp_append]
      exact strict_text f

/-! ### Whatever can be read -/

/-- A text without the `v` before it. -/
def bare : List Char → List Char
  | 'v' :: s => s
  | s => s

/-- A text read as a version, with a hyphen or a dot before the prerelease. -/
def accept (s : List Char) : Option Version := (readChars s).or (readChars (dashAt 2 s))

theorem bare_eq_self {c : Char} (hc : c ∈ s.head?) (hdigit : c.isDigit = true) : bare s = s := by
  cases s with
  | nil => rfl
  | cons d s =>
    cases hc
    rw [bare.eq_2]
    rintro r heq
    cases heq
    cases hdigit

theorem accept_text (f : Form) : accept f.text = some f.version := by
  rw [accept, readChars_eq_some_iff.2 ⟨f, .inl rfl, rfl⟩, some_or]

theorem parse_eq_ok_iff {s : String} : parse s = .ok x ↔ accept (bare s.toList) = some x := by
  have hbare : (if Text.startsWith "v" s then Text.dropChars 1 s else s) =
      String.ofList (bare s.toList) := by
    rw [← String.toList_inj, String.toList_ofList, bare.eq_def]
    split
    · next hv =>
        obtain ⟨r, hr⟩ := isPrefixOf_iff_prefix.1 hv
        have hs : s.toList = 'v' :: r := hr.symm
        simp [Text.dropChars, hs]
    · next hv =>
        split
        · next r hs => exact absurd (by simp [Text.startsWith, hs, List.isPrefixOf]) hv
        · rfl
  delta parse
  rw [hbare]
  simp only [read, hyphenated_eq, String.toList_ofList, accept]
  cases readChars (bare s.toList) with
  | some v => simp
  | none => cases readChars (dashAt 2 (bare s.toList)) <;> simp

theorem of_dashAt_eq_text {f : Form} (h : dashAt 2 s = f.text) :
    (∀ c ∈ s, isVersionChar c = true) ∧ ∃ c ∈ s.head?, c.isDigit = true := by
  constructor
  · intro c hc
    rcases mem_dashAt (n := 2) hc with rfl | hc
    · rfl
    · exact f.isVersionChar_text (h ▸ hc)
  · obtain ⟨c, hc, hdigit⟩ := f.exists_head_text
    rw [← h] at hc
    cases s with
    | nil =>
      cases hc
      cases hdigit
    | cons d s =>
      cases hc
      exact ⟨c, rfl, hdigit⟩

/-- What is accepted consists of the characters of versions and begins with a digit. The end of a
line behind it does not matter. -/
theorem exists_body_of_accept (h : accept s = some x) :
    ∃ body, (s = body ∨ s = body ++ ['\n']) ∧ accept body = some x ∧
      (∀ c ∈ body, isVersionChar c = true) ∧ ∃ c ∈ body.head?, c.isDigit = true := by
  rw [accept, or_eq_some_iff] at h
  rcases h with h | ⟨hnone, h⟩
  · obtain ⟨f, hs, rfl⟩ := readChars_eq_some_iff.1 h
    exact ⟨f.text, hs, accept_text f, fun c => f.isVersionChar_text, f.exists_head_text⟩
  · obtain ⟨f, hd, rfl⟩ := readChars_eq_some_iff.1 h
    by_cases hlast : s.getLast? = some '\n'
    · obtain ⟨b, rfl⟩ := getLast?_eq_some_iff.1 hlast
      have hd' : dashAt 2 b = f.text := by
        rcases dashAt_append 2 b with hdash | hdash <;> rw [hdash] at hd
        · rcases hd with hd | hd
          · exact absurd (hd ▸ by simp) f.not_mem_text
          · exact (append_singleton_inj.1 hd).1
        · rw [append_cons] at hd
          rcases hd with hd | hd
          · exact absurd (hd ▸ by simp) f.not_mem_text
          · cases (append_singleton_inj.1 hd).2
      obtain ⟨hchars, hhead⟩ := of_dashAt_eq_text hd'
      have hstrict : readChars b = none := by
        rw [readChars_eq, chomp_append] at hnone
        rw [readChars_eq, chomp_eq_self (getLast?_ne_of_forall hchars), hnone]
      refine ⟨b, .inr rfl, ?_, hchars, hhead⟩
      rw [accept, hstrict, none_or, hd']
      exact readChars_eq_some_iff.2 ⟨f, .inl rfl, rfl⟩
    · have hd' : dashAt 2 s = f.text := by
        refine hd.resolve_right fun hd => getLast?_dashAt (n := 2) hlast ?_
        rw [hd, getLast?_concat]
      obtain ⟨hchars, hhead⟩ := of_dashAt_eq_text hd'
      refine ⟨s, .inl rfl, ?_, hchars, hhead⟩
      rw [accept, hnone, none_or, h]

/-- What can be read is a text of a version, and perhaps the end of a line behind it. -/
theorem exists_body_of_parse {s : String} (h : parse s = .ok x) :
    ∃ body tail, s.toList = body ++ tail ∧ (∀ c ∈ tail, c = '\n') ∧
      parse (String.ofList body) = .ok x ∧ (∀ c ∈ body, isVersionChar c = true) ∧
      ∃ c ∈ body.head?, c = 'v' ∨ c.isDigit = true := by
  rw [parse_eq_ok_iff] at h
  obtain ⟨body, hs, haccept, hchars, c, hc, hdigit⟩ := exists_body_of_accept h
  obtain ⟨tail, hs, htail⟩ : ∃ tail, bare s.toList = body ++ tail ∧ ∀ c ∈ tail, c = '\n' := by
    rcases hs with hs | hs
    · exact ⟨[], by simpa using hs, nofun⟩
    · exact ⟨['\n'], hs, by simp⟩
  -- the body with the `v` that stood before it
  rw [bare.eq_def] at hs
  split at hs
  · next r hr =>
      refine ⟨'v' :: body, tail, by rw [hr, hs]; rfl, htail, ?_, ?_, 'v', rfl, .inl rfl⟩
      · rwa [parse_eq_ok_iff, String.toList_ofList]
      · exact forall_mem_cons.2 ⟨by decide, hchars⟩
  · refine ⟨body, tail, hs, htail, ?_, hchars, c, hc, .inr hdigit⟩
    rwa [parse_eq_ok_iff, String.toList_ofList, bare_eq_self hc hdigit]

theorem exists_form_of_parse {s : String} (h : parse s = .ok v) : ∃ f : Form, v = f.version := by
  rw [parse_eq_ok_iff, accept, or_eq_some_iff] at h
  rcases h with h | ⟨-, h⟩
  all_goals
    obtain ⟨f, -, hf⟩ := readChars_eq_some_iff.1 h
    exact ⟨f, hf⟩

/-- A version that has been read is read again from its text. -/
theorem parse_text_of_parse {s : String} (h : parse s = .ok v) : parse v.text = .ok v := by
  rw [parse_eq_ok_iff]
  obtain ⟨f, rfl⟩ := exists_form_of_parse h
  obtain ⟨g, htext, hversion⟩ := f.exists_text_eq
  obtain ⟨c, hc, hdigit⟩ := g.exists_head_text
  rw [← htext, ← hversion, bare_eq_self hc hdigit, accept_text]

end Boardwright.Version
