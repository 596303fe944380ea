import Boardwright.Netlist.Render
import Mathlib.Algebra.BigOperators.Group.List.Basic
import Mathlib.Algebra.Ring.Int.Defs

/-!
# Reading nested lists

The text of nested lists is read one character at a time. What has been read so far is a
`Reading`: the items of the innermost list that is open, those of the lists around it, and
whether the next character goes on with a word or a quoted text. A text is one nested list if all
lists are closed at its end and there is one item.

Marks that put together are read as the items `xs`, wherever they stand, are said to write them:
`Writes`. This is closed under putting marks after one another and under brackets. A text that is
read has as many closing brackets as opening ones: `Climbs.eq_zero_of_read`.
-/

open List

open Option

namespace Boardwright

variable {name : String} {w : List Char}

/-- A word, a text in quotation marks, or a list of such in brackets. -/
inductive Nested
  | word (s : String)
  | quoted (s : String)
  | list (items : List Nested)

namespace Nested

/-- Where the next character stands: after the letters of a word, none between words, or in a
quoted text, where a backslash takes away the meaning of the character after it. -/
inductive Spot
  | plain (letters : List Char)
  | quoted (letters : List Char)
  | escaped (letters : List Char)

/-- What has been read of a text: the items of the innermost list that is open, and those of the
lists around it, from the inner ones out. -/
structure Reading where
  spot : Spot := .plain []
  items : List Nested := []
  around : List (List Nested) := []

namespace Reading

def ended (r : Reading) : Reading :=
  match r.spot with
  | .plain (c :: cs) =>
    { r with spot := .plain [], items := r.items ++ [.word (String.ofList (c :: cs))] }
  | _ => r

def opened (r : Reading) : Reading := ⟨.plain [], [], r.items :: r.around⟩

/-- The innermost list is closed, if one is open. -/
def closed (r : Reading) : Option Reading :=
  match r.around with
  | [] => none
  | outer :: around => some ⟨.plain [], outer ++ [.list r.items], around⟩

def step (r : Reading) (c : Char) : Option Reading :=
  match r.spot with
  | .plain letters =>
    if c = '(' then some r.ended.opened
    else if c = ')' then r.ended.closed
    else if c = '"' then some { r.ended with spot := .quoted [] }
    else if c.isWhitespace then some r.ended
    else some { r with spot := .plain (letters ++ [c]) }
  | .quoted letters =>
    if c = '"' then
      some { r with spot := .plain [], items := r.items ++ [.quoted (String.ofList letters)] }
    else if c = '\\' then some { r with spot := .escaped letters }
    else some { r with spot := .quoted (letters ++ [c]) }
  | .escaped letters => some { r with spot := .quoted (letters ++ [c]) }

end Reading

/-- The one item that has been read, if nothing is open. -/
def Reading.single? (r : Reading) : Option Nested :=
  match r.ended with
  | ⟨.plain [], [x], []⟩ => some x
  | _ => none

/-- The nested list that a text writes. -/
def read (s : String) : Option Nested := do (← s.toList.foldlM Reading.step {}).single?

end Nested

open Nested

/-! ### Text that is read mark by mark -/

/-- A text that can stand in quotation marks as it is. -/
def Nested.IsQuotable (s : String) : Prop := ∀ c ∈ s.toList, c ≠ '"' ∧ c ≠ '\\'

instance (s : String) : Decidable (IsQuotable s) :=
  decidable_of_iff (s.toList.all fun c => c ≠ '"' ∧ c ≠ '\\') (by simp [IsQuotable])

def Nested.IsLetter (c : Char) : Prop := c ≠ '(' ∧ c ≠ ')' ∧ c ≠ '"' ∧ ¬c.isWhitespace

instance (c : Char) : Decidable (IsLetter c) :=
  inferInstanceAs (Decidable (c ≠ '(' ∧ c ≠ ')' ∧ c ≠ '"' ∧ ¬c.isWhitespace))

namespace Mark

def Clear : Mark → Prop
  | opening | closing => True
  | word s => s.toList ≠ [] ∧ ∀ c ∈ s.toList, IsLetter c
  | quoted s => IsQuotable s
  | blank s => s.toList ≠ [] ∧ ∀ c ∈ s.toList, c.isWhitespace

instance : DecidablePred Clear
  | opening | closing => inferInstanceAs (Decidable True)
  | word s =>
    decidable_of_iff (s.toList ≠ [] ∧ s.toList.all fun c => IsLetter c) (by simp [Clear])
  | quoted s => inferInstanceAs (Decidable (IsQuotable s))
  | blank s =>
    decidable_of_iff (s.toList ≠ [] ∧ s.toList.all Char.isWhitespace) (by simp [Clear])

theorem toList_join_cons (m : Mark) (ms : List Mark) :
    (join (m :: ms)).toList = m.text.toList ++ (join ms).toList := by
  simp [join, String.toList_join]

end Mark

namespace Nested.Reading

variable {r r' : Reading} {s : List Char} {m : Mark} {ms : List Mark}

def take (r : Reading) : Mark → Option Reading
  | .opening => some r.ended.opened
  | .closing => r.ended.closed
  | .word w =>
    match r.spot with
    | .plain letters => some { r with spot := .plain (letters ++ w.toList) }
    | _ => none
  | .quoted s => some { r.ended with items := r.ended.items ++ [.quoted s] }
  | .blank _ => some r.ended

/-- Nothing is quoted at the place up to which a text has been read. -/
def IsPlain (r : Reading) : Prop := ∃ letters, r.spot = .plain letters

@[simp] theorem ended_between (items : List Nested) (around : List (List Nested)) :
    ended ⟨.plain [], items, around⟩ = ⟨.plain [], items, around⟩ := rfl

theorem isPlain_ended (h : r.IsPlain) : r.ended.spot = .plain [] := by
  obtain ⟨letters, h⟩ := h
  unfold ended
  cases letters <;> simp [h]

theorem ended_ended (h : r.IsPlain) : r.ended.ended = r.ended := by
  conv_lhs => rw [ended]
  simp [isPlain_ended h]

theorem isPlain_closed (h : r.closed = some r') : r'.IsPlain := by
  unfold closed at h
  split at h
  · cases h
  · cases h
    exact ⟨[], rfl⟩

theorem isPlain_take (hr : r.IsPlain) (h : r.take m = some r') : r'.IsPlain := by
  obtain ⟨letters, hs⟩ := hr
  cases m with
  | opening =>
    cases h
    exact ⟨[], rfl⟩
  | closing => exact isPlain_closed h
  | word w =>
    simp only [take, hs] at h
    cases h
    exact ⟨_, rfl⟩
  | quoted s =>
    cases h
    exact ⟨[], isPlain_ended ⟨letters, hs⟩⟩
  | blank s =>
    cases h
    exact ⟨[], isPlain_ended ⟨letters, hs⟩⟩

theorem foldlM_step_word (hw : ∀ c ∈ w, IsLetter c) (hr : r.spot = .plain s) :
    w.foldlM step r = some { r with spot := .plain (s ++ w) } := by
  induction w generalizing r s with
  | nil =>
    obtain ⟨_, items, around⟩ := r
    cases hr
    simp
  | cons c w ih =>
    rw [forall_mem_cons] at hw
    obtain ⟨⟨hopen, hclose, hquote, hblank⟩, hw⟩ := hw
    have hstep : r.step c = some { r with spot := .plain (s ++ [c]) } := by
      simp [step, hr, hopen, hclose, hquote, hblank]
    rw [foldlM_cons, hstep, bind_eq_bind, bind_some, ih hw rfl]
    simp

theorem foldlM_step_quoted (hw : ∀ c ∈ w, c ≠ '"' ∧ c ≠ '\\') (hr : r.spot = .quoted s) :
    w.foldlM step r = some { r with spot := .quoted (s ++ w) } := by
  induction w generalizing r s with
  | nil =>
    obtain ⟨_, items, around⟩ := r
    cases hr
    simp
  | cons c w ih =>
    rw [List.forall_mem_cons] at hw
    have hstep : r.step c = some { r with spot := .quoted (s ++ [c]) } := by
      simp [step, hr, hw.1]
    rw [List.foldlM_cons, hstep, Option.bind_eq_bind, Option.bind_some, ih hw.2 rfl]
    simp

theorem foldlM_step_blank (hw : ∀ c ∈ w, c.isWhitespace) (hne : w ≠ []) (hr : r.IsPlain) :
    w.foldlM step r = some r.ended := by
  induction w generalizing r with
  | nil => exact absurd rfl hne
  | cons c w ih =>
    rw [List.forall_mem_cons] at hw
    obtain ⟨letters, hs⟩ := hr
    have hopen : c ≠ '(' := by
      rintro rfl
      exact absurd hw.1 (by decide)
    have hclose : c ≠ ')' := by
      rintro rfl
      exact absurd hw.1 (by decide)
    have hquote : c ≠ '"' := by
      rintro rfl
      exact absurd hw.1 (by decide)
    have hstep : r.step c = some r.ended := by simp [step, hs, hopen, hclose, hquote, hw.1]
    rw [foldlM_cons, hstep, bind_eq_bind, bind_some]
    by_cases hw' : w = []
    · subst hw'
      rfl
    · rw [ih hw.2 hw' ⟨[], isPlain_ended ⟨letters, hs⟩⟩, ended_ended ⟨letters, hs⟩]

theorem foldlM_step_text (hm : m.Clear) (hr : r.IsPlain) :
    m.text.toList.foldlM step r = r.take m := by
  obtain ⟨letters, hs⟩ := hr
  cases m with
  | opening => simp [Mark.text, step, take, hs]
  | closing => simp [Mark.text, step, take, hs]
  | word w =>
    rw [Mark.text, foldlM_step_word hm.2 hs]
    simp [take, hs]
  | quoted q =>
    have hopens : r.step '"' = some { r.ended with spot := .quoted [] } := by
      simp [step, hs]
    have hcloses : step { r.ended with spot := .quoted ([] ++ q.toList) } '"' =
        some { r.ended with
          spot := .plain [], items := r.ended.items ++ [.quoted (String.ofList q.toList)] } := by
      simp [step]
    have htext : (Mark.quoted q).text.toList = '"' :: (q.toList ++ ['"']) := by simp [Mark.text]
    rw [htext, foldlM_cons, hopens, bind_eq_bind, bind_some,
      foldlM_append, foldlM_step_quoted hm rfl, bind_eq_bind, bind_some,
      foldlM_cons, hcloses]
    simp [take, ← isPlain_ended ⟨letters, hs⟩]
  | blank b => exact foldlM_step_blank hm.2 hm.1 ⟨letters, hs⟩

theorem foldlM_step_join (hms : ∀ m ∈ ms, m.Clear) (hr : r.IsPlain) :
    (Mark.join ms).toList.foldlM step r = ms.foldlM take r := by
  induction ms generalizing r with
  | nil => rfl
  | cons m ms ih =>
    rw [forall_mem_cons] at hms
    rw [Mark.toList_join_cons, foldlM_append, foldlM_step_text hms.1 hr, foldlM_cons]
    cases htake : r.take m with
    | none => rfl
    | some r' => exact ih hms.2 (isPlain_take hr htake)

end Nested.Reading

theorem Nested.read_join {ms : List Mark} (hms : ∀ m ∈ ms, m.Clear) :
    read (Mark.join ms) = (ms.foldlM Reading.take {}).bind Reading.single? := by
  rw [read, Reading.foldlM_step_join hms ⟨[], rfl⟩]
  rfl

/-! ### What marks write -/

namespace Mark

variable {ms ns : List Mark} {xs ys : List Nested} {α : Type} {f : α → List Mark} {l : List α}
  {s : String} {x : Nested}

/-- Marks that write some items: these are added wherever the marks are read. -/
structure Writes (ms : List Mark) (xs : List Nested) : Prop where
  clear : ∀ m ∈ ms, m.Clear
  taken : ∀ items around, ms.foldlM Reading.take ⟨.plain [], items, around⟩ =
    some ⟨.plain [], items ++ xs, around⟩

theorem writes_nil : Writes [] [] := ⟨by simp, fun items around => by simp⟩

theorem Writes.append (hms : Writes ms xs) (hns : Writes ns ys) :
    Writes (ms ++ ns) (xs ++ ys) where
  clear := forall_mem_append.2 ⟨hms.clear, hns.clear⟩
  taken items around := by
    rw [foldlM_append, hms.taken, bind_eq_bind, bind_some, hns.taken,
      append_assoc]

theorem Writes.flatMap {g : α → Nested}
    (h : ∀ x ∈ l, Writes (f x) [g x]) : Writes (l.flatMap f) (l.map g) := by
  induction l with
  | nil => exact writes_nil
  | cons x l ih =>
    rw [forall_mem_cons] at h
    exact h.1.append (ih h.2)

theorem writes_space : Writes [space] [] :=
  ⟨by decide, fun items around => by simp [Reading.take, space]⟩

theorem writes_line (indentation : Nat) : Writes [line indentation] [] where
  clear := by
    intro m hm
    obtain rfl := mem_singleton.1 hm
    constructor
    · simp
    · intro c hc
      simp only [String.toList_append, String.toList_ofList, mem_append] at hc
      rcases hc with hc | hc
      · obtain rfl : c = '\n' := by simpa using hc
        rfl
      · obtain rfl := eq_of_mem_replicate hc
        rfl
  taken items around := by simp [Reading.take, line]

theorem writes_quoted (hs : IsQuotable s) : Writes [quoted s] [.quoted s] where
  clear := forall_mem_singleton.2 hs
  taken items around := by simp [Reading.take]

theorem Writes.word (h : Writes ms xs) (hms : ms.head? = some (.blank s))
    (hname : Clear (.word name)) :
    Writes (.word name :: ms) (.word name :: xs) where
  clear := forall_mem_cons.2 ⟨hname, h.clear⟩
  taken items around := by
    obtain ⟨ms, rfl⟩ : ∃ ns, ms = .blank s :: ns := ⟨_, eq_cons_of_mem_head? hms⟩
    obtain ⟨c, cs, hcs⟩ := exists_cons_of_ne_nil hname.1
    have hended : Reading.ended ⟨.plain name.toList, items, around⟩ =
        ⟨.plain [], items ++ [.word name], around⟩ := by
      rw [Reading.ended, hcs]
      dsimp only
      rw [← hcs, String.ofList_toList]
    have hrest := h.taken (items ++ [.word name]) around
    simpa [Reading.take, hended] using hrest

theorem Writes.list (h : Writes ms xs) : Writes ([opening] ++ ms ++ [closing]) [.list xs] where
  clear := forall_mem_append.2
    ⟨forall_mem_cons.2 ⟨trivial, h.clear⟩, forall_mem_singleton.2 trivial⟩
  taken items around := by
    have hopen : Reading.take ⟨.plain [], items, around⟩ opening =
        some ⟨.plain [], [], items :: around⟩ := rfl
    rw [append_assoc, singleton_append, foldlM_cons, hopen, bind_eq_bind,
      bind_some, foldlM_append, h.taken]
    rfl

theorem writes_field {value : String} (hname : Clear (.word name)) (hvalue : IsQuotable value) :
    Writes (field name value) [.list [.word name, .quoted value]] :=
  ((writes_space.append (writes_quoted hvalue)).word rfl hname).list

/-- A list on a line of its own, under a name. -/
theorem Writes.under (h : Writes ms xs) (hms : ms.head? = some (blank s))
    (indentation : Nat) (name : String) (hname : Clear (.word name) := by decide) :
    Writes (start indentation name ++ ms ++ [closing]) [.list (.word name :: xs)] :=
  (writes_line indentation).append (h.word hms hname).list

/-! ### Brackets that are opened and closed -/

/-- By how much the number of open lists grows at a mark. -/
def rise : Mark → ℤ
  | opening => 1
  | closing => -1
  | _ => 0

theorem around_ended (r : Reading) : r.ended.around = r.around := by
  unfold Reading.ended
  split <;> rfl

theorem length_around_take {m : Mark} {r r' : Reading} (h : r.take m = some r') :
    (r'.around.length : ℤ) = r.around.length + m.rise := by
  cases m with
  | opening =>
    cases h
    simp [Reading.opened, around_ended, rise]
  | closing =>
    replace h : r.ended.closed = some r' := h
    rw [Reading.closed, around_ended] at h
    split at h
    · cases h
    · next hr =>
        cases h
        simp [hr, rise]
  | word w =>
    rw [Reading.take] at h
    split at h
    · cases h
      simp [rise]
    · cases h
  | quoted s =>
    cases h
    simp [around_ended, rise]
  | blank s =>
    cases h
    simp [around_ended, rise]

theorem length_around_foldlM {r r' : Reading} (h : ms.foldlM Reading.take r = some r') :
    (r'.around.length : ℤ) = r.around.length + (ms.map rise).sum := by
  induction ms generalizing r with
  | nil =>
    cases h
    simp
  | cons m ms ih =>
    obtain ⟨r₁, hm, hms⟩ := bind_eq_some_iff.1 h
    rw [ih hms, length_around_take hm, map_cons, sum_cons, add_assoc]

/-- Clear marks at which the number of open lists grows by `k`. -/
structure Climbs (ms : List Mark) (k : ℤ) : Prop where
  clear : ∀ m ∈ ms, m.Clear
  rise : (ms.map rise).sum = k

theorem climbs_closing : Climbs [closing] (-1) := ⟨by decide, rfl⟩

theorem climbs_start (indentation : Nat) (hname : Clear (.word name)) :
    Climbs (start indentation name) 1 where
  clear := by
    have hline := (writes_line indentation).clear
    simp only [start, forall_mem_cons] at hline ⊢
    exact ⟨hline.1, trivial, hname, hline.2⟩
  rise := by simp [start, line, Mark.rise]

theorem Climbs.append {j k : ℤ} (hms : Climbs ms j) (hns : Climbs ns k) :
    Climbs (ms ++ ns) (j + k) where
  clear := forall_mem_append.2 ⟨hms.clear, hns.clear⟩
  rise := by rw [map_append, sum_append, hms.rise, hns.rise]

theorem Climbs.flatMap {k : α → ℤ}
    (h : ∀ x ∈ l, Climbs (f x) (k x)) : Climbs (l.flatMap f) (l.map k).sum := by
  induction l with
  | nil => exact ⟨by simp, rfl⟩
  | cons x l ih =>
    rw [forall_mem_cons] at h
    rw [flatMap_cons, map_cons, sum_cons]
    exact h.1.append (ih h.2)

/-- Marks that write something close each list that they open. -/
theorem Writes.climbs (h : Writes ms xs) : Climbs ms 0 :=
  ⟨h.clear, by simpa using (length_around_foldlM (h.taken [] [])).symm⟩

/-- In a text that is read each list that is opened is closed. -/
theorem Climbs.eq_zero_of_read {k : ℤ} (hms : Climbs ms k)
    (h : read (join ms) = some x) : k = 0 := by
  rw [read_join hms.clear] at h
  obtain ⟨r, hr, hx⟩ := bind_eq_some_iff.1 h
  have haround : r.around = [] := by
    rw [← around_ended]
    unfold Reading.single? at hx
    split at hx
    · next heq => rw [heq]
    · cases hx
  simpa [haround, hms.rise] using (length_around_foldlM hr).symm

theorem Writes.read_eq (h : Writes ms [x]) : read (join ms) = some x := by
  rw [read_join h.clear, h.taken [] []]
  rfl

end Mark

end Boardwright
