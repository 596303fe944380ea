import Boardwright.Proofs.Netlist.Nested
import Boardwright.Proofs.Work.Lists

/-!
# Netlists are read back from their text

What a nested list says of a netlist is read entry by entry, by the names under which its parts
stand: `Netlist.ofNested?`. The marks of a netlist write a nested list, `Netlist.nested`, from
which all that is written of the netlist is read back.

There is one exception. Two brackets end each library part, the first of which is that of its
list of pins. A library part without pins has no such list, so its second bracket closes a list
around it, and the text is not one nested list any more: each such library part takes one bracket
too many, `Netlist.climbs_marks`.
-/

namespace Boardwright

open Nested Mark List Work

variable {l : LibraryPart} {value outer : String} {α : Type} {f : α → List Mark}

namespace Nested

/-- A list of a word and a text. -/
def pair (name value : String) : Nested := .list [.word name, .quoted value]

def named (name : String) (xs : List Nested) : List (List Nested) :=
  xs.filterMap fun
    | .list (.word w :: ys) => if w = name then some ys else none
    | _ => none

def text? (name : String) (xs : List Nested) : Option String :=
  match (named name xs).head? with
  | some [.quoted s] => some s
  | _ => none

end Nested

/-- The component that a list describes. It does not say which pins the library part has. -/
def Placement.ofItems? (xs : List Nested) : Option Placement := do
  let source ← (named "libsource" xs).head?
  let sheet ← (named "sheetpath" xs).head?
  return {
    designator := ← text? "ref" xs
    value := ← text? "value" xs
    footprint := (text? "footprint" xs).getD ""
    library := ⟨← text? "part" source, ← text? "description" source, []⟩
    path := ← text? "names" sheet
    stamp := ← text? "tstamps" xs }

def LibraryPart.ofItems? (xs : List Nested) : Option LibraryPart := do
  return {
    part := ← text? "part" xs
    description := (text? "description" xs).getD ""
    pins := ← (named "pin" (named "pins" xs).flatten).mapM (text? "num") }

/-- The pin on a net that a list describes. -/
def Terminal.ofItems? (xs : List Nested) : Option Terminal := do
  return ⟨← text? "ref" xs, ← text? "pin" xs⟩

def Wire.ofItems? (xs : List Nested) : Option Wire := do
  return {
    code := Nat.ofDigitChars 10 (← text? "code" xs).toList 0
    name := ← text? "name" xs
    terminals := ← (named "node" xs).mapM Terminal.ofItems? }

def Netlist.ofNested? : Nested → Option Netlist
  | .list (.word "export" :: xs) => do
    return {
      placements := ← (named "comp" (named "components" xs).flatten).mapM Placement.ofItems?
      libraryParts := ← (named "libpart" (named "libparts" xs).flatten).mapM LibraryPart.ofItems?
      wires := ← (named "net" (named "nets" xs).flatten).mapM Wire.ofItems? }
  | _ => none

/-! ### Entries -/

namespace Nested

@[simp] theorem named_nil (name : String) : named name [] = [] := rfl

@[simp] theorem named_cons_list (name w : String) (ys xs : List Nested) :
    named name (.list (.word w :: ys) :: xs) =
      if w = name then ys :: named name xs else named name xs := by
  unfold named
  rw [filterMap_cons]
  split <;> simp_all

@[simp] theorem named_append (name : String) (xs ys : List Nested) :
    named name (xs ++ ys) = named name xs ++ named name ys := filterMap_append

@[simp] theorem named_map (name : String) (items : α → List Nested) (l : List α) :
    named name (l.map fun x => .list (.word name :: items x)) = l.map items := by
  induction l with
  | nil => rfl
  | cons x l ih => simp [ih]

end Nested

def Placement.items (p : Placement) : List Nested :=
  [pair "ref" p.designator, pair "value" p.value] ++
    (if p.footprint.isEmpty then [] else [pair "footprint" p.footprint]) ++
    [.list [.word "libsource", pair "lib" "lib", pair "part" p.library.part,
        pair "description" p.library.description],
      .list [.word "sheetpath", pair "names" p.path, pair "tstamps" p.stamp],
      pair "tstamps" p.stamp]

def LibraryPart.items (l : LibraryPart) : List Nested :=
  [pair "lib" "lib", pair "part" l.part] ++
    (if l.description.isEmpty then [] else [pair "description" l.description]) ++
    [pair "docs" "~", .list [.word "footprints", pair "fp" "*"],
      .list (.word "pins" :: l.pins.map fun pin => .list [.word "pin", pair "num" pin,
        pair "name" pin, pair "type" "stereo"])]

/-- What stands in the list of a pin on a net. -/
def Terminal.items (t : Terminal) : List Nested :=
  [pair "ref" t.designator, pair "pin" t.pin, pair "pintype" "stereo"]

def Wire.items (w : Wire) : List Nested :=
  [pair "code" (toString w.code), pair "name" w.name] ++
    w.terminals.map fun t => .list (.word "node" :: t.items)

/-- Entries under a name, and their list under another. -/
def Netlist.chapter {α : Type} (outer inner : String) (items : α → List Nested) (xs : List α) :
    List Nested :=
  if xs.isEmpty then [] else [.list (.word outer :: xs.map fun x => .list (.word inner :: items x))]

def Netlist.nested (n : Netlist) : Nested :=
  .list ([.word "export", pair "version" "E",
    .list [.word "design", pair "source" "unknown", pair "date" "", pair "tool" "atopile"]] ++
    Netlist.chapter "components" "comp" Placement.items n.placements ++
    Netlist.chapter "libparts" "libpart" LibraryPart.items n.libraryParts ++
    Netlist.chapter "nets" "net" Wire.items n.wires)

/-- A component as its entry tells it: the pins of its library part are not in it. -/
def Placement.outline (p : Placement) : Placement :=
  { p with library := { p.library with pins := [] } }

theorem mapM_comp_eq_some {β γ : Type} {f : β → Option γ} {items : α → β} {g : α → γ}
    (h : ∀ x, f (items x) = some (g x)) (l : List α) : l.mapM (f ∘ items) = some (l.map g) := by
  rw [show f ∘ items = fun x => some (g x) from funext h]
  exact mapM_pure

theorem Placement.ofItems?_items (p : Placement) : ofItems? p.items = some p.outline := by
  unfold ofItems? items outline
  by_cases hempty : p.footprint.isEmpty
  · have hfootprint : p.footprint = "" := by simpa using hempty
    simp [text?, pair, hfootprint]
  · simp [text?, pair, hempty]

theorem LibraryPart.ofItems?_items (l : LibraryPart) : ofItems? l.items = some l := by
  have hnum : ∀ pin, text? "num" [pair "num" pin, pair "name" pin, pair "type" "stereo"] =
      some pin := by simp [text?, pair]
  have hpins := mapM_comp_eq_some hnum l.pins
  obtain ⟨part, description, pins⟩ := l
  unfold ofItems? items
  by_cases hempty : description.isEmpty
  · have hdescription : description = "" := by simpa using hempty
    simp_all [text?, pair]
  · simp_all [text?, pair]

theorem Terminal.ofItems?_items (t : Terminal) : ofItems? t.items = some t := by
  simp [ofItems?, items, text?, pair]

theorem Wire.ofItems?_items (w : Wire) : ofItems? w.items = some w := by
  have hterminals := mapM_comp_eq_some Terminal.ofItems?_items w.terminals
  unfold ofItems? items
  simp [text?, pair, hterminals]

namespace Netlist

def outline (n : Netlist) : Netlist := { n with placements := n.placements.map Placement.outline }

theorem flatten_named_chapter (outer inner : String) (items : α → List Nested) (xs : List α) :
    named inner (named outer (chapter outer inner items xs)).flatten =
      xs.map items := by
  unfold chapter
  split
  · next hxs => simp_all
  · simp

theorem named_chapter_of_ne {name : String} (hne : outer ≠ name) (inner : String)
    (items : α → List Nested) (xs : List α) : named name (chapter outer inner items xs) = [] := by
  unfold chapter
  split <;> simp [hne]

theorem ofNested?_nested (n : Netlist) : ofNested? n.nested = some n.outline := by
  have hplacements := mapM_comp_eq_some Placement.ofItems?_items n.placements
  have hparts := mapM_comp_eq_some LibraryPart.ofItems?_items n.libraryParts
  have hwires := mapM_comp_eq_some Wire.ofItems?_items n.wires
  unfold ofNested? nested outline
  simp [pair, flatten_named_chapter, named_chapter_of_ne, hplacements, hparts, hwires]

end Netlist

/-! ### The marks of entries -/

/-- A pair on the same line. -/
theorem writes_spaced (name : String) (hvalue : IsQuotable value)
    (hname : Clear (.word name) := by decide) :
    Writes ([space] ++ field name value) [pair name value] :=
  writes_space.append (writes_field hname hvalue)

/-- A pair on a line of its own. -/
theorem writes_lined (indentation : Nat) (name : String) (hvalue : IsQuotable value)
    (hname : Clear (.word name) := by decide) :
    Writes ([line indentation] ++ field name value) [pair name value] :=
  (writes_line indentation).append (writes_field hname hvalue)

/-- A pair that is left out if its text is empty. -/
theorem writes_unless_empty (indentation : Nat) (name : String) (hvalue : IsQuotable value)
    (hname : Clear (.word name) := by decide) :
    Writes (if value.isEmpty then [] else [line indentation] ++ field name value)
      (if value.isEmpty then [] else [pair name value]) := by
  split
  · exact writes_nil
  · exact writes_lined indentation name hvalue hname

theorem head?_flatMap {m : Mark} {l : List α} (hl : l ≠ [])
    (hf : ∀ x, (f x).head? = some m) : (l.flatMap f).head? = some m := by
  obtain ⟨x, l, rfl⟩ := exists_cons_of_ne_nil hl
  simp [hf x]

namespace Placement

def texts (p : Placement) : List String :=
  [p.designator, p.value, p.footprint, p.library.part, p.library.description, p.path, p.stamp]

theorem head?_marks (p : Placement) : p.marks.head? = some (line 4) := by
  unfold marks
  simp [start]

theorem writes_marks {p : Placement} (hp : ∀ s ∈ p.texts, IsQuotable s) :
    Writes p.marks [.list (.word "comp" :: p.items)] := by
  simp only [texts, forall_mem_cons] at hp
  obtain ⟨hdesignator, hvalue, hfootprint, hpart, hdescription, hpath, hstamp, -⟩ := hp
  have hsource := ((writes_spaced "lib" (by decide : IsQuotable "lib")).append
    ((writes_spaced "part" hpart).append (writes_spaced "description" hdescription))).under rfl 6
      "libsource"
  have hsheet := ((writes_spaced "names" hpath).append (writes_spaced "tstamps" hstamp)).under rfl 6
    "sheetpath"
  have h := ((writes_spaced "ref" hdesignator).append ((writes_lined 6 "value" hvalue).append
    ((writes_unless_empty 6 "footprint" hfootprint).append (hsource.append (hsheet.append
      (writes_lined 6 "tstamps" hstamp)))))).under rfl 4 "comp"
  unfold marks
  simpa only [items, append_assoc, cons_append, nil_append] using h

end Placement

namespace LibraryPart

def texts (l : LibraryPart) : List String := l.part :: l.description :: l.pins

theorem head?_marks (l : LibraryPart) : l.marks.head? = some (line 4) := by
  simp [marks, start]

theorem head?_pinMarks (pin : String) : (pinMarks pin).head? = some (line 8) := by
  simp [pinMarks, start]

theorem writes_pinMarks {pin : String} (hpin : IsQuotable pin) :
    Writes (pinMarks pin) [.list [.word "pin", pair "num" pin, pair "name" pin,
      pair "type" "stereo"]] := by
  have h := ((writes_spaced "num" hpin).append ((writes_spaced "name" hpin).append
    (writes_spaced "type" (by decide : IsQuotable "stereo")))).under rfl 8 "pin"
  unfold pinMarks
  simpa only [append_assoc, cons_append, nil_append] using h

def headMarks (l : LibraryPart) : List Mark :=
  [space] ++ field "lib" "lib" ++ [space] ++ field "part" l.part ++
    (if l.description.isEmpty then [] else [line 6] ++ field "description" l.description) ++
    [line 6] ++ field "docs" "~" ++
    start 6 "footprints" ++ [line 8] ++ field "fp" "*" ++ [.closing]

def headItems (l : LibraryPart) : List Nested :=
  [pair "lib" "lib", pair "part" l.part] ++
    (if l.description.isEmpty then [] else [pair "description" l.description]) ++
    [pair "docs" "~", .list [.word "footprints", pair "fp" "*"]]

theorem writes_headMarks (hl : ∀ s ∈ l.texts, IsQuotable s) : Writes l.headMarks l.headItems := by
  simp only [texts, forall_mem_cons] at hl
  obtain ⟨hpart, hdescription, -⟩ := hl
  have hfootprints := (writes_lined 8 "fp" (by decide : IsQuotable "*")).under rfl 6 "footprints"
  have h := (writes_spaced "lib" (by decide : IsQuotable "lib")).append
    ((writes_spaced "part" hpart).append ((writes_unless_empty 6 "description" hdescription).append
      ((writes_lined 6 "docs" (by decide : IsQuotable "~")).append hfootprints)))
  unfold headMarks
  simpa only [headItems, append_assoc, cons_append, nil_append] using h

theorem writes_marks (hl : ∀ s ∈ l.texts, IsQuotable s) (hpins : l.pins ≠ []) :
    Writes l.marks [.list (.word "libpart" :: l.items)] := by
  have hlist := (Writes.flatMap fun pin (hpin : pin ∈ l.pins) => writes_pinMarks
    (hl pin (mem_cons_of_mem _ (mem_cons_of_mem _ hpin)))).under
      (head?_flatMap hpins head?_pinMarks) 6 "pins"
  have h := ((writes_headMarks hl).append hlist).under rfl 4 "libpart"
  have hsome : l.pins.isEmpty = false := by simpa using hpins
  unfold marks
  simp only [hsome, Bool.false_eq_true, if_false]
  simpa only [headMarks, items, headItems, append_assoc, cons_append,
    nil_append] using h

/-- Without pins there is one bracket too many. -/
theorem marks_of_no_pins (hpins : l.pins = []) :
    l.marks = start 4 "libpart" ++ l.headMarks ++ [.closing] ++ [.closing] := by
  simp [marks, headMarks, hpins]

theorem climbs_marks (hl : ∀ s ∈ l.texts, IsQuotable s) :
    Climbs l.marks (if l.pins = [] then -1 else 0) := by
  split
  · next hpins =>
      rw [marks_of_no_pins hpins]
      exact ((writes_headMarks hl).under rfl 4 "libpart").climbs.append climbs_closing
  · next hpins => exact (writes_marks hl hpins).climbs

end LibraryPart

namespace Wire

/-- The texts that are written for a net, apart from its code. -/
def texts (w : Wire) : List String := w.name :: w.terminals.flatMap fun t => [t.designator, t.pin]

theorem head?_marks (w : Wire) : w.marks.head? = some (line 4) := by
  simp [marks, start]

theorem isQuotable_toString (k : Nat) : IsQuotable (toString k) := by
  intro c hc
  rw [Nat.toString_eq_repr, Nat.toList_repr] at hc
  have hdigit : c.isDigit = true := Nat.isDigit_of_mem_toDigits (by decide) (by decide) hc
  constructor <;> rintro rfl <;> exact absurd hdigit (by decide)

theorem writes_marks {w : Wire} (hw : ∀ s ∈ w.texts, IsQuotable s) :
    Writes w.marks [.list (.word "net" :: w.items)] := by
  simp only [texts, forall_mem_cons, forall_mem_flatMap] at hw
  have hnode : ∀ t ∈ w.terminals, Writes (terminalMarks t) [.list (.word "node" :: t.items)] := by
    intro t ht
    obtain ⟨hdesignator, hpin, -⟩ := hw.2 t ht
    have h := ((writes_spaced "ref" hdesignator).append ((writes_spaced "pin" hpin).append
      (writes_spaced "pintype" (by decide : IsQuotable "stereo")))).under rfl 6 "node"
    unfold terminalMarks
    simpa only [Terminal.items, append_assoc, cons_append, nil_append] using h
  have h := ((writes_spaced "code" (isQuotable_toString w.code)).append
    ((writes_spaced "name" hw.1).append (Writes.flatMap hnode))).under rfl 4 "net"
  unfold marks
  simpa only [items, append_assoc, cons_append, nil_append] using h

end Wire

namespace Netlist

variable {n : Netlist} {xs : List α}

def texts (n : Netlist) : List String :=
  n.placements.flatMap Placement.texts ++ n.libraryParts.flatMap LibraryPart.texts ++
    n.wires.flatMap Wire.texts

theorem writes_listed {items : α → List Nested}
    (outer inner : String) (houter : Clear (.word outer)) (hf : ∀ x, (f x).head? = some (line 4))
    (h : ∀ x ∈ xs, Writes (f x) [.list (.word inner :: items x)]) :
    Writes (listed outer f xs) (chapter outer inner items xs) := by
  unfold listed chapter
  split
  · exact writes_nil
  · next hne =>
      exact (Writes.flatMap h).under (head?_flatMap (by simpa using hne) hf) 2 outer houter

theorem climbs_listed {k : α → ℤ}
    (houter : Clear (.word outer)) (h : ∀ x ∈ xs, Climbs (f x) (k x)) :
    Climbs (listed outer f xs) (xs.map k).sum := by
  unfold listed
  split
  · next hxs =>
      obtain rfl : xs = [] := by simpa using hxs
      exact ⟨by simp, rfl⟩
  · simpa using ((climbs_start 2 houter).append (Climbs.flatMap h)).append climbs_closing

theorem text_eq (n : Netlist) : n.text = join (n.marks ++ [line 0]) := by
  apply String.ext
  simp [text, join, Mark.text, line]

theorem forall_texts : (∀ s ∈ n.texts, IsQuotable s) ↔
    (∀ p ∈ n.placements, ∀ s ∈ p.texts, IsQuotable s) ∧
      (∀ l ∈ n.libraryParts, ∀ s ∈ l.texts, IsQuotable s) ∧
      ∀ w ∈ n.wires, ∀ s ∈ w.texts, IsQuotable s := by
  simp only [texts, forall_mem_append, forall_mem_flatMap, and_assoc]

theorem writes_design : Writes (start 2 "design" ++ ([line 4] ++ field "source" "unknown" ++
    ([line 4] ++ field "date" "" ++ ([line 4] ++ field "tool" "atopile"))) ++ [.closing])
      [.list [.word "design", pair "source" "unknown", pair "date" "", pair "tool" "atopile"]] :=
  ((writes_lined 4 "source" (by decide : IsQuotable "unknown")).append
    ((writes_lined 4 "date" (by decide : IsQuotable "")).append
      (writes_lined 4 "tool" (by decide : IsQuotable "atopile")))).under rfl 2 "design"

theorem writes_marks (hn : ∀ s ∈ n.texts, IsQuotable s)
    (hpins : ∀ l ∈ n.libraryParts, l.pins ≠ []) : Writes (n.marks ++ [line 0]) [n.nested] := by
  obtain ⟨hplacements, hparts, hwires⟩ := forall_texts.1 hn
  have hcomponents := writes_listed "components" "comp" (by decide) Placement.head?_marks
    fun p hp => Placement.writes_marks (hplacements p hp)
  have hlibparts := writes_listed "libparts" "libpart" (by decide) LibraryPart.head?_marks
    fun l hl => LibraryPart.writes_marks (hparts l hl) (hpins l hl)
  have hnets := writes_listed "nets" "net" (by decide) Wire.head?_marks
    fun w hw => Wire.writes_marks (hwires w hw)
  have hversion := writes_spaced "version" (by decide : IsQuotable "E")
  have hword : Clear (.word "export") := by decide
  have h := ((hversion.append (writes_design.append (hcomponents.append
    (hlibparts.append hnets)))).word rfl hword).list.append (writes_line 0)
  unfold marks
  simpa only [nested, append_assoc, cons_append, nil_append] using h

theorem sum_eq_neg_countP (ls : List LibraryPart) :
    (ls.map fun l => if l.pins = [] then (-1 : ℤ) else 0).sum =
      -(ls.countP fun l => l.pins = [] : ℤ) := by
  induction ls with
  | nil => rfl
  | cons l ls ih =>
    rw [map_cons, sum_cons, ih, countP_cons]
    by_cases hl : l.pins = []
    · simp [hl]
    · simp [hl]

theorem climbs_marks (hn : ∀ s ∈ n.texts, IsQuotable s) :
    Climbs (n.marks ++ [line 0]) (-(n.libraryParts.countP fun l => l.pins = [] : ℤ)) := by
  obtain ⟨hplacements, hparts, hwires⟩ := forall_texts.1 hn
  have hcomponents := (writes_listed "components" "comp" (by decide) Placement.head?_marks
    fun p hp => Placement.writes_marks (hplacements p hp)).climbs
  have hlibparts := climbs_listed (by decide : Clear (.word "libparts"))
    fun l hl => LibraryPart.climbs_marks (hparts l hl)
  rw [sum_eq_neg_countP] at hlibparts
  have hnets := (writes_listed "nets" "net" (by decide) Wire.head?_marks
    fun w hw => Wire.writes_marks (hwires w hw)).climbs
  have hversion := (writes_spaced "version" (by decide : IsQuotable "E")).climbs
  have hexport : Climbs [.opening, .word "export"] 1 := ⟨by decide, rfl⟩
  have h := hexport.append ((hversion.append (writes_design.climbs.append (hcomponents.append
    (hlibparts.append hnets)))).append (climbs_closing.append (writes_line 0).climbs))
  unfold marks
  simpa only [append_assoc, cons_append, nil_append, zero_add, add_zero,
    add_neg_cancel_comm_assoc] using h

/-- The stamp of a component is written with digits and hyphens. -/
theorem isQuotable_identifier (s : String) : IsQuotable (Digest.identifier s) := by
  have hdigit : ∀ k, Nat.digitChar k ≠ '"' ∧ Nat.digitChar k ≠ '\\' := by
    intro k
    grind [Nat.digitChar]
  have hhex : ∀ (ks : List Nat), ∀ c ∈ ks.flatMap Digest.hex, c ≠ '"' ∧ c ≠ '\\' := by
    intro ks c hc
    obtain ⟨k, -, hc⟩ := mem_flatMap.1 hc
    simp only [Digest.hex, mem_cons, not_mem_nil, or_false] at hc
    rcases hc with rfl | rfl
    · exact hdigit _
    · exact hdigit _
  intro c hc
  simp only [Digest.identifier, String.toList_ofList, mem_append, mem_cons] at hc
  rcases hc with (((hc | rfl | hc) | rfl | hc) | rfl | hc) | rfl | hc
  · exact hhex _ c (mem_of_mem_take hc)
  · decide
  · exact hhex _ c (mem_of_mem_drop (mem_of_mem_take hc))
  · decide
  · exact hhex _ c (mem_of_mem_drop (mem_of_mem_take hc))
  · decide
  · exact hhex _ c (mem_of_mem_drop (mem_of_mem_take hc))
  · decide
  · exact hhex _ c (mem_of_mem_drop hc)

theorem stamp_of_below {root : Address} {s s' : Session}
    (h : (below root).outcome s = (.ok n, s')) :
    ∀ p ∈ n.placements, p.stamp = Digest.identifier p.path := by
  have hany : ∀ {α : Type} (w : Work Session α), Guards (fun _ => True) w :=
    fun _ _ _ => ⟨trivial, fun _ _ => trivial⟩
  have hplacement : ∀ ds l footprint a, Keeps (fun _ => True)
      (fun p : Placement => p.stamp = Digest.identifier p.path) (placement ds l footprint a) :=
    fun ds l footprint a => (hany _).bind fun _ _ => (hany _).bind fun _ _ => .pure rfl
  have hgrouped : ∀ ds footprint as, Keeps (fun _ => True)
      (fun part : LibraryPart × List Placement =>
        ∀ p ∈ part.2, p.stamp = Digest.identifier p.path) (grouped ds footprint as) := by
    intro ds footprint as
    refine (hany _).bind fun l _ => (Keeps.mapM fun a _ => hplacement ds l footprint a).bind
      fun ps hps => .pure fun p hp => ?_
    obtain ⟨a, -, hp⟩ := exists_left_of_forall₂ hps hp
    exact hp
  obtain ⟨_, s₁, -, h⟩ := bind_eq_ok.1 h
  obtain ⟨_, s₂, -, h⟩ := bind_eq_ok.1 h
  obtain ⟨groups, s₃, -, h⟩ := bind_eq_ok.1 h
  obtain ⟨ds, s₄, -, h⟩ := bind_eq_ok.1 h
  obtain ⟨parts, s₅, hparts, h⟩ := bind_eq_ok.1 h
  obtain ⟨_, s₆, -, h⟩ := bind_eq_ok.1 h
  obtain ⟨_, s₇, -, hend⟩ := bind_eq_ok.1 h
  cases hend
  intro p hp
  obtain ⟨part, hpart, hp⟩ := mem_flatMap.1 hp
  have hall := (Keeps.mapM fun g (_ : g ∈ groups) => hgrouped ds g.1 g.2).result trivial hparts
  obtain ⟨g, -, hg⟩ := exists_left_of_forall₂ hall hpart
  exact hg p hp

/-- The text of a netlist is one nested list exactly if each library part has a pin, and then the
netlist is read back from it. -/
theorem read_text (hn : ∀ s ∈ n.texts, IsQuotable s) :
    ((∃ x, read n.text = some x) ↔ ∀ l ∈ n.libraryParts, l.pins ≠ []) ∧
      ∀ x, read n.text = some x → ofNested? x = some n.outline := by
  have hforth : (∃ x, read n.text = some x) → ∀ l ∈ n.libraryParts, l.pins ≠ [] := by
    rintro ⟨x, hx⟩ l hl hpins
    rw [text_eq] at hx
    have hnone := (climbs_marks hn).eq_zero_of_read hx
    rw [neg_eq_zero, Int.natCast_eq_zero, List.countP_eq_zero] at hnone
    exact hnone l hl (by simpa using hpins)
  have hback : (∀ l ∈ n.libraryParts, l.pins ≠ []) → read n.text = some n.nested := by
    intro hpins
    rw [text_eq]
    exact (writes_marks hn hpins).read_eq
  refine ⟨⟨hforth, fun hpins => ⟨_, hback hpins⟩⟩, fun x hx => ?_⟩
  rw [hback (hforth ⟨x, hx⟩)] at hx
  cases hx
  exact ofNested?_nested n

def lonePin : Netlist where
  placements := [⟨"R1", "10k", "", ⟨"P", "f:R", ["1", "2"]⟩, "f:M::r", "0"⟩]
  libraryParts := [⟨"P", "f:R", ["1", "2"]⟩]
  wires := [⟨1, "vcc", [⟨"R1", "1"⟩]⟩, ⟨2, "gnd", []⟩]

theorem read_text_lonePin : (∀ s ∈ lonePin.texts, IsQuotable s) ∧
    ∃ x, read lonePin.text = some x ∧ ofNested? x = some lonePin.outline := by
  have htexts : ∀ s ∈ lonePin.texts, IsQuotable s := by decide
  obtain ⟨hread, hback⟩ := read_text htexts
  obtain ⟨x, hx⟩ := hread.2 (by decide)
  exact ⟨htexts, x, hx, hback x hx⟩

def pinless : Library where
  files.texts := ⟨[(["f"], "component C:\n footprint=\"F\"\n mpn=\"P\"\nmodule M:\n c=new C\n")]⟩

/-- The text of the netlist of a component without pins is no nested list. -/
theorem read_text_pinless :
    ∃ n s', (below ⟨"f:M"⟩).outcome { library := pinless } = (.ok n, s') ∧
      (∀ s ∈ n.texts, IsQuotable s) ∧ read n.text = none := by
  have hrun : ((below ⟨"f:M"⟩).outcome { library := pinless }).1.toOption.map (fun n =>
      (n.placements.map fun p => { p with stamp := "" }, n.libraryParts, n.wires)) =
      some ([⟨"U1", "", "F", ⟨"P", "f:C", []⟩, "f:M::c", ""⟩], [⟨"P", "f:C", []⟩], []) := by
    decide +kernel
  obtain ⟨n, hn, hparts⟩ := Option.map_eq_some_iff.1 hrun
  obtain ⟨hplacements, hparts⟩ := Prod.mk.inj hparts
  obtain ⟨hlibraryParts, hwires⟩ := Prod.mk.inj hparts
  have h := Work.outcome_eq_ok_of_toOption hn
  have htexts : ∀ s ∈ n.texts, IsQuotable s := by
    refine forall_texts.2 ⟨fun p hp => ?_, ?_, ?_⟩
    · have hstamp := stamp_of_below h p hp
      have hmem := List.mem_map_of_mem (f := fun p : Placement => { p with stamp := "" }) hp
      rw [hplacements, List.mem_singleton] at hmem
      obtain ⟨designator, value, footprint, library, path, stamp⟩ := p
      simp only [Placement.mk.injEq, and_true] at hmem hstamp
      obtain ⟨rfl, rfl, rfl, rfl, rfl⟩ := hmem
      simp only [Placement.texts, List.forall_mem_cons, hstamp]
      exact ⟨by decide, by decide, by decide, by decide, by decide, by decide,
        isQuotable_identifier _, by simp⟩
    · rw [hlibraryParts]
      decide
    · rw [hwires]
      decide
  refine ⟨n, _, h, htexts, ?_⟩
  by_contra hread
  obtain ⟨x, hx⟩ := Option.ne_none_iff_exists'.1 hread
  rw [text_eq] at hx
  have hzero := (climbs_marks htexts).eq_zero_of_read hx
  rw [hlibraryParts] at hzero
  exact absurd hzero (by decide)

end Netlist

end Boardwright
