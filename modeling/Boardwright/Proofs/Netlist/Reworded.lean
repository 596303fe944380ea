import Boardwright.Proofs.Netlist.Written

/-!
# Texts that users write in a netlist

The attributes of components are texts of any kind, and are written into a netlist as they are. As
long as they hold no quotation mark and no backslash, all that stands outside the quotation marks of
a netlist is the same whatever the attributes say: `Netlist.skeleton_text`.
-/

namespace Boardwright

open Nested Mark List

/-- A text without what stands between its quotation marks, where a backslash takes away the meaning
of the next character. -/
def Nested.outside : Bool → List Char → List Char
  | _, [] => []
  | false, c :: cs => c :: outside (c == '"') cs
  | true, '\\' :: _ :: cs => outside true cs
  | true, c :: cs => if c == '"' then c :: outside false cs else outside true cs

def Nested.skeleton (s : String) : String := String.ofList (outside false s.toList)

namespace Mark

def erased : Mark → Mark
  | .quoted _ => .quoted ""
  | m => m

theorem outside_plain {s : List Char} (hs : '"' ∉ s) (cs : List Char) :
    outside false (s ++ cs) = s ++ outside false cs := by
  induction s with
  | nil => rfl
  | cons c s ih =>
    rw [List.mem_cons, not_or] at hs
    rw [List.cons_append, outside, beq_eq_false_iff_ne.2 (Ne.symm hs.1), ih hs.2, List.cons_append]

theorem outside_quoted {s : List Char} (hs : ∀ c ∈ s, c ≠ '"' ∧ c ≠ '\\') (cs : List Char) :
    outside true (s ++ '"' :: cs) = '"' :: outside false cs := by
  induction s with
  | nil => simp [outside]
  | cons c s ih =>
    obtain ⟨hc, hs⟩ := forall_mem_cons.1 hs
    rw [cons_append, outside, if_neg (by simpa using hc.1), ih hs]
    rintro _ _ rfl
    exact absurd rfl hc.2

theorem outside_text {m : Mark} (hm : m.Clear) (cs : List Char) :
    outside false (m.text.toList ++ cs) = m.erased.text.toList ++ outside false cs := by
  cases m with
  | opening => exact outside_plain (by decide) cs
  | closing => exact outside_plain (by decide) cs
  | word s => exact outside_plain (fun hq => (hm.2 _ hq).2.2.1 rfl) cs
  | blank s => exact outside_plain (fun hq => absurd (hm.2 _ hq) (by decide)) cs
  | quoted s =>
    have hquoted := outside_quoted hm cs
    simpa [text, erased, outside] using hquoted

theorem skeleton_join {ms : List Mark} (hms : ∀ m ∈ ms, m.Clear) :
    skeleton (join ms) = join (ms.map erased) := by
  have houtside : outside false (join ms).toList = (join (ms.map erased)).toList := by
    induction ms with
    | nil => rfl
    | cons m ms ih =>
      obtain ⟨hm, hms⟩ := forall_mem_cons.1 hms
      rw [toList_join_cons, outside_text hm, ih hms, map_cons, toList_join_cons]
  rw [skeleton, houtside, String.ofList_toList]

end Mark

/-! ### What attributes say -/

def LibraryPart.unworded (l : LibraryPart) : LibraryPart := { l with part := "" }

def Placement.unworded (p : Placement) : Placement :=
  { p with
    designator := "", value := "", library := p.library.unworded
    footprint := if p.footprint.isEmpty then "" else "*" }

def Wire.unworded (w : Wire) : Wire :=
  { w with terminals := w.terminals.map fun t => { t with designator := "" } }

theorem Placement.map_erased_unworded (p : Placement) :
    p.unworded.marks.map erased = p.marks.map erased := by
  unfold Placement.marks unworded
  by_cases hempty : p.footprint.isEmpty
  · simp [hempty, field, erased, LibraryPart.unworded]
  · simp [hempty, field, erased, LibraryPart.unworded]

theorem LibraryPart.map_erased_unworded (l : LibraryPart) :
    l.unworded.marks.map erased = l.marks.map erased := by
  simp [marks, unworded, field, erased]

theorem Wire.map_erased_unworded (w : Wire) : w.unworded.marks.map erased = w.marks.map erased := by
  simp [marks, unworded, terminalMarks, field, erased, flatMap_map, map_flatMap]

namespace Netlist

/-- A netlist without the texts that come from attributes: designators, values, footprints and the
numbers of parts. Of a footprint it is kept whether it is empty. -/
def unworded (n : Netlist) : Netlist where
  placements := n.placements.map Placement.unworded
  libraryParts := n.libraryParts.map LibraryPart.unworded
  wires := n.wires.map Wire.unworded

theorem map_erased_listed {α : Type} {f : α → List Mark} {g : α → α}
    (h : ∀ x, (f (g x)).map erased = (f x).map erased) (name : String) (xs : List α) :
    (listed name f (xs.map g)).map erased = (listed name f xs).map erased := by
  simp [listed, flatMap_map, map_flatMap, h, apply_ite (List.map erased)]

theorem map_erased_unworded (n : Netlist) : n.unworded.marks.map erased = n.marks.map erased := by
  simp only [marks, unworded, map_append, map_erased_listed Placement.map_erased_unworded,
    map_erased_listed LibraryPart.map_erased_unworded, map_erased_listed Wire.map_erased_unworded]

/-- Netlists that differ only in what attributes say are written as the same text outside of
quotation marks, if no text has a quotation mark or a backslash in it. -/
theorem skeleton_text {n m : Netlist} (h : n.unworded = m.unworded)
    (hn : ∀ s ∈ n.texts, IsQuotable s) (hm : ∀ s ∈ m.texts, IsQuotable s) :
    skeleton n.text = skeleton m.text := by
  have herased : ∀ n : Netlist, (∀ s ∈ n.texts, IsQuotable s) →
      skeleton n.text = join ((n.unworded.marks ++ [line 0]).map erased) := by
    intro n hn
    rw [text_eq, skeleton_join (climbs_marks hn).clear, List.map_append, List.map_append,
      map_erased_unworded]
  rw [herased n hn, herased m hm, h]

/-- A component with a value. -/
def valued (value : String) : Netlist where
  placements := [⟨"R1", value, "F", ⟨"P", "f:R", ["p"]⟩, "f:M::r", "0"⟩]

theorem skeleton_text_valued : valued "1k" ≠ valued "1 (k)" ∧
    skeleton (valued "1k").text = skeleton (valued "1 (k)").text :=
  ⟨by decide, skeleton_text rfl (by decide) (by decide)⟩

theorem toList_text (n : Netlist) :
    n.text.toList = (n.marks ++ [line 0]).flatMap fun m => m.text.toList := by
  rw [text_eq, join, String.toList_join, flatMap_map]

/-- A value that has a quotation mark in it is written as it is. -/
theorem skeleton_text_quotation :
    (((below ⟨"f:M"⟩).outcome { library.files.texts := ⟨[(["f"], "component R:\n footprint='F'\n" ++
      " value='1\"k'\n mpn='P'\n pin p\nmodule M:\n r=new R\n")]⟩ }).1.toOption.map
        (·.placements.map Placement.value)) = some ["1\"k"] ∧
    (valued "1k").unworded = (valued "1\"k").unworded ∧
    skeleton (valued "1k").text ≠ skeleton (valued "1\"k").text := by
  refine ⟨by decide +kernel, rfl, ?_⟩
  rw [skeleton, skeleton, toList_text, toList_text]
  decide +kernel

end Netlist

end Boardwright
