import Boardwright.Build.Manufacture
import Boardwright.Proofs.Text.Pieces
import Mathlib.Data.List.Nodup

/-!
# The outputs of different builds

All outputs of a build stand in one directory. Each has a last dot or hyphen in its name, what stands
behind it tells the sort of the output, and so two outputs are the same only if what stands before is:
`Form.text_injOn`. The outputs of one build are all different.

An ending takes the place of what stands behind the last dot of the name of a build. So builds whose
names differ only there write to the same files: `outputs_disjoint_iff`.
-/

open List

namespace Boardwright.Build

/-- What a build writes to for its netlist, its bill of materials and the makers of boards. -/
def outputs (b : Build) (revision : String) : List Route :=
  [b.netlistFile, b.billFile, b.boardFile, b.positionsFile, b.gerberDirectory revision,
    b.gerberArchive revision]

/-- Whether a character can divide the name of an output from its ending. -/
def isDivider (c : Char) : Bool := c == '.' || c == '-'

/-- A revision as it is written behind a hyphen. -/
def IsPlain (revision : String) : Prop := ∀ c ∈ revision.toList, isDivider c = false

instance : DecidablePred IsPlain := fun s =>
  decidable_of_iff (s.toList.all fun c => !isDivider c) (by simp [IsPlain])

theorem isPlain_revisionOf {r : Repository} (h : ∀ c ∈ r.head.toList, c.isAlphanum) :
    IsPlain (revisionOf r) := by
  intro c hc
  unfold revisionOf at hc
  split at hc
  · exact (show IsPlain "dirty" by decide) c hc
  · rw [Text.takeChars, String.toList_ofList] at hc
    have hletter := h c (mem_of_mem_take hc)
    simp only [isDivider, Bool.or_eq_false_iff, beq_eq_false_iff_ne]
    constructor <;> rintro rfl <;> cases hletter

/-! ### Names by their last divider -/

/-- A name taken apart at its last divider. -/
structure Form where
  front : List Char
  divider : Char
  back : List Char
  deriving DecidableEq

namespace Form

/-- The name itself. -/
def text (f : Form) : String := String.ofList (f.front ++ f.divider :: f.back)

def IsLast (f : Form) : Prop := isDivider f.divider = true ∧ ∀ c ∈ f.back, isDivider c = false

theorem back_eq {f : Form} (hf : f.IsLast) :
    (f.text.toList.reverse.takeWhile fun c => !isDivider c) = f.back.reverse := by
  rw [text, String.toList_ofList, reverse_append, reverse_cons, append_assoc,
    takeWhile_append_of_pos, singleton_append, takeWhile_cons_of_neg, append_nil]
  · rw [hf.1]
    decide
  · intro c hc
    rw [hf.2 c (mem_reverse.1 hc)]
    rfl

theorem text_injOn {f g : Form} (hf : f.IsLast) (hg : g.IsLast) (h : f.text = g.text) : f = g := by
  have hback : f.back = g.back := reverse_injective (by rw [← back_eq hf, h, back_eq hg])
  obtain ⟨l, a, r⟩ := f
  obtain ⟨l', a', r'⟩ := g
  obtain rfl : r = r' := hback
  have hlist : l ++ [a] ++ r = l' ++ [a'] ++ r := by simpa using String.ofList_injective h
  obtain ⟨rfl, ha⟩ := append_inj' (append_cancel_right hlist) rfl
  rw [singleton_inj.1 ha]

end Form

/-! ### The names of outputs -/

/-- The outputs of a build by the names that they have in their directory. -/
def forms (b : Build) (revision : String) : List Form :=
  [⟨b.base.stem.toList, '.', "net".toList⟩, ⟨b.base.stem.toList, '.', "csv".toList⟩,
    ⟨b.base.stem.toList, '.', "kicad_pcb".toList⟩, ⟨(b.base.stem ++ ".pos").toList, '.', "csv".toList⟩,
    ⟨(b.base.name ++ "-gerbers").toList, '-', revision.toList⟩,
    ⟨(b.gerberDirectory revision).stem.toList, '.', "zip".toList⟩]

def inOutput (b : Build) (f : Form) : Route := ⟨b.base.rooted, b.base.parts.dropLast ++ [f.text]⟩

variable {b b' : Build} {revision revision' name name' : String}

theorem isLast_dot (front : List Char) {back : String} (h : IsPlain back) :
    Form.IsLast ⟨front, '.', back.toList⟩ := ⟨rfl, h⟩

theorem isLast_forms (h : IsPlain revision) : ∀ f ∈ b.forms revision, f.IsLast := by
  have hendings : ∀ e ∈ ["net", "csv", "kicad_pcb", "zip"], IsPlain e := by decide
  simp only [forall_mem_cons] at hendings
  obtain ⟨hnet, hcsv, hboard, hzip, -⟩ := hendings
  simp only [forms, forall_mem_cons]
  exact ⟨isLast_dot _ hnet, isLast_dot _ hcsv, isLast_dot _ hboard, isLast_dot _ hcsv, ⟨rfl, h⟩,
    isLast_dot _ hzip, forall_mem_nil _⟩

theorem text_toList (s : String) (c : Char) (back : List Char) :
    Form.text ⟨s.toList, c, back⟩ = s ++ String.ofList (c :: back) := by
  rw [Form.text, String.ofList_append, String.ofList_toList]

theorem text_gerbers (b : Build) (revision : String) :
    Form.text ⟨(b.base.name ++ "-gerbers").toList, '-', revision.toList⟩ =
      b.base.name ++ "-gerbers-" ++ revision := by
  apply String.toList_injective
  simp [Form.text]

theorem outputs_eq (b : Build) (revision : String) :
    b.outputs revision = (b.forms revision).map b.inOutput := by
  have hpositions : b.base.stem ++ ".pos" ++ String.ofList ('.' :: "csv".toList) =
      b.base.stem ++ ".pos.csv" := String.append_assoc
  have harchive : b.gerberArchive revision = ⟨b.base.rooted, b.base.parts.dropLast ++
      [(b.gerberDirectory revision).stem ++ ".zip"]⟩ := by
    rw [gerberArchive, Route.withEnding, Route.withName, gerberDirectory, Route.withName,
      dropLast_concat]
  simp only [outputs, forms, map_cons, map_nil, inOutput, text_gerbers, harchive]
  simp only [text_toList, hpositions]
  rfl

theorem nodup_forms (b : Build) (revision : String) : (b.forms revision).Nodup := by
  simp [forms]

theorem inOutput_injOn {f g : Form} (hf : f.IsLast) (hg : g.IsLast)
    (h : b.inOutput f = b.inOutput g) : f = g := by
  refine Form.text_injOn hf hg ?_
  simpa [inOutput] using h

theorem nodup_outputs (h : IsPlain revision) : (b.outputs revision).Nodup := by
  rw [outputs_eq]
  refine (nodup_forms b revision).map_on fun f hf g hg => ?_
  exact inOutput_injOn (isLast_forms h f hf) (isLast_forms h g hg)

theorem disjoint_outputs_iff (hdir : b.inOutput = b'.inOutput) (h : IsPlain revision)
    (h' : IsPlain revision') :
    (b.outputs revision).Disjoint (b'.outputs revision') ↔
      (b.forms revision).Disjoint (b'.forms revision') := by
  rw [outputs_eq, outputs_eq, ← hdir]
  constructor
  · intro hdisjoint f hf hf'
    exact hdisjoint (mem_map_of_mem hf) (mem_map_of_mem hf')
  · intro hdisjoint r hr hr'
    obtain ⟨f, hf, rfl⟩ := mem_map.1 hr
    obtain ⟨g, hg, hfg⟩ := mem_map.1 hr'
    obtain rfl := inOutput_injOn (isLast_forms h' g hg) (isLast_forms h f hf) hfg
    exact hdisjoint hf hg

/-- What is left of the names of two builds and of their archives when an ending takes the place of
what stands behind the last dot is different, and not by the ending of a table of places. -/
def Apart (b b' : Build) (revision revision' : String) : Prop :=
  b.base.stem ≠ b'.base.stem ∧ b.base.stem ≠ b'.base.stem ++ ".pos" ∧
    b'.base.stem ≠ b.base.stem ++ ".pos" ∧
    (b.gerberDirectory revision).stem ≠ (b'.gerberDirectory revision').stem

theorem disjoint_forms_iff (hname : b.base.name ≠ b'.base.name) :
    (b.forms revision).Disjoint (b'.forms revision') ↔ Apart b b' revision revision' := by
  have hpos : ∀ s s' : String, s.toList = s'.toList ++ ['.', 'p', 'o', 's'] ↔ s = s' ++ ".pos" := by
    intro s s'
    rw [← String.toList_inj, String.toList_append]
    rfl
  have hpos' : ∀ s s' : String, s.toList ++ ['.', 'p', 'o', 's'] = s'.toList ↔ s' = s ++ ".pos" :=
    fun s s' => eq_comm.trans (hpos s' s)
  by_cases hstem : b.base.stem = b'.base.stem
  · simp [forms, Apart, disjoint_left, hstem]
  · simp [forms, Apart, disjoint_left, String.toList_inj, hname, hpos, hpos', hstem]

/-! ### The builds of a project -/

def IsPart (name : String) : Prop := Route.ofText name = ⟨false, [name]⟩

theorem base_of_ofConfig {fs : Files} {c : Config} (hname : IsPart name)
    (h : ofConfig fs c name = .ok b) :
    b.base = ⟨(c.location.joinText "build").rooted, (c.location.joinText "build").parts ++ [name]⟩ := by
  unfold ofConfig at h
  split at h
  · cases h
  · cases hlayout : findLayout fs ((c.location.joinText c.layout).joinText name) with
    | error e => rw [hlayout] at h; cases h
    | ok layout =>
      rw [hlayout] at h
      cases h
      rw [base, Route.joinText, hname]
      rfl

theorem IsPart.toList_ne_nil (h : IsPart name) : name.toList ≠ [] := by
  rintro hnil
  rw [← @String.ofList_toList name, hnil] at h
  cases h

theorem IsPart.tail_append (h : IsPart name) (s : String) :
    (name ++ s).toList.tail = name.toList.tail ++ s.toList := by
  rw [String.toList_append, tail_append_of_ne_nil h.toList_ne_nil]

theorem stem_eq_name {r : Route} (h : '.' ∉ r.name.toList.tail) : r.stem = r.name := by
  unfold Route.stem Route.nameCut
  cases hcut : Text.cutLast ['.'] r.name.toList with
  | none => rfl
  | some w =>
    obtain ⟨before, after⟩ := w
    obtain ⟨⟨w, w'⟩, hw, hpair⟩ := Option.map_eq_some_iff.1 hcut
    obtain ⟨rfl, rfl⟩ := Prod.mk.inj hpair
    have hname : r.name.toList = w'.reverse ++ '.' :: w.reverse := by
      simpa using congrArg List.reverse (Text.eq_append_of_cut hw)
    rw [hname] at h
    cases hempty : w'.reverse with
    | nil => rfl
    | cons d before => simp [hempty] at h

variable {fs fs' : Files} {c : Config} {r r' : Repository}

theorem ne_append_pos (h : IsPart name') (hdot : '.' ∉ name.toList.tail) : name ≠ name' ++ ".pos" := by
  rintro rfl
  rw [h.tail_append] at hdot
  exact hdot (mem_append_right _ (by decide))

/-- Without a dot nothing of the name of a directory is lost when an ending is added. -/
theorem stem_gerberDirectory (h : IsPart b.base.name) (hdot : '.' ∉ b.base.name.toList.tail)
    (hplain : IsPlain revision) : (b.gerberDirectory revision).stem =
      Form.text ⟨(b.base.name ++ "-gerbers").toList, '-', revision.toList⟩ := by
  have hlast : (b.gerberDirectory revision).name = b.base.name ++ ("-gerbers-" ++ revision) := by
    simp [gerberDirectory, Route.withName, Route.name, String.append_assoc]
  rw [text_gerbers, String.append_assoc, ← hlast]
  refine stem_eq_name fun hmem => ?_
  rw [hlast, h.tail_append, String.toList_append, mem_append, mem_append] at hmem
  rcases hmem with hmem | hmem | hmem
  · exact hdot hmem
  · exact absurd hmem (by decide)
  · exact absurd (hplain _ hmem) (by decide)

/-- The outputs of a build are all different, whatever its name is. Those of two builds of a project
are different exactly if the names are `Apart`; names with no dot behind their first character are. -/
theorem outputs_disjoint_iff (hname : IsPart name) (hname' : IsPart name') (hne : name ≠ name')
    (hb : ofConfig fs c name = .ok b) (hb' : ofConfig fs' c name' = .ok b')
    (hr : ∀ c ∈ r.head.toList, c.isAlphanum) (hr' : ∀ c ∈ r'.head.toList, c.isAlphanum) :
    (b.outputs (revisionOf r)).Nodup ∧
      ((b.outputs (revisionOf r)).Disjoint (b'.outputs (revisionOf r')) ↔
        Apart b b' (revisionOf r) (revisionOf r')) ∧
      ('.' ∉ name.toList.tail → '.' ∉ name'.toList.tail →
        (b.outputs (revisionOf r)).Disjoint (b'.outputs (revisionOf r'))) := by
  have hbase := base_of_ofConfig hname hb
  have hbase' := base_of_ofConfig hname' hb'
  have hlast : b.base.name = name := by simp [hbase, Route.name]
  have hlast' : b'.base.name = name' := by simp [hbase', Route.name]
  have hdir : b.inOutput = b'.inOutput := by
    funext f
    simp [inOutput, hbase, hbase']
  have hplain := isPlain_revisionOf hr
  have hplain' := isPlain_revisionOf hr'
  have hiff := (disjoint_outputs_iff hdir hplain hplain').trans
    (disjoint_forms_iff (by rwa [hlast, hlast']))
  refine ⟨nodup_outputs hplain, hiff, fun hdot hdot' => hiff.2 ?_⟩
  have hstem : b.base.stem = name := (stem_eq_name (hlast ▸ hdot)).trans hlast
  have hstem' : b'.base.stem = name' := (stem_eq_name (hlast' ▸ hdot')).trans hlast'
  rw [Apart, hstem, hstem']
  refine ⟨hne, ne_append_pos hname' hdot, ne_append_pos hname hdot', fun hstems => hne ?_⟩
  rw [stem_gerberDirectory (by rwa [hlast]) (by rwa [hlast]) hplain,
    stem_gerberDirectory (by rwa [hlast']) (by rwa [hlast']) hplain', hlast, hlast'] at hstems
  have hforms :=
    Form.text_injOn (f := ⟨_, '-', _⟩) (g := ⟨_, '-', _⟩) ⟨rfl, hplain⟩ ⟨rfl, hplain'⟩ hstems
  exact String.toList_injective (by simpa using (Form.mk.inj hforms).1)

def sampleConfig (names : List String) : Config :=
  { location := ⟨true, ["proj"]⟩, builds := ⟨names.map fun n => (n, { entry := "a.ato:A" })⟩ }

def sampleFiles (names : List String) : Files :=
  { texts := ⟨names.map fun n => (["proj", "elec", "layout", n ++ layoutEnding], "")⟩ }

/-- Builds of two names without dots. -/
theorem outputs_disjoint_iff_plain :
    ∃ b b', ofConfig (sampleFiles ["default", "alt"]) (sampleConfig ["default", "alt"]) "alt" = .ok b ∧
      ofConfig (sampleFiles ["default", "alt"]) (sampleConfig ["default", "alt"]) "default" = .ok b' ∧
      (b.outputs "dirty").Disjoint (b'.outputs "c0ffee1") := by
  obtain ⟨b, hb⟩ : ∃ b, ofConfig (sampleFiles ["default", "alt"]) (sampleConfig ["default", "alt"])
      "alt" = .ok b := ⟨_, rfl⟩
  obtain ⟨b', hb'⟩ : ∃ b, ofConfig (sampleFiles ["default", "alt"]) (sampleConfig ["default", "alt"])
      "default" = .ok b := ⟨_, rfl⟩
  have hplain := @outputs_disjoint_iff b b' "alt" "default" _ _ _ { dirty := true }
    { head := "c0ffee1" } rfl rfl (by decide) hb hb' (List.all_eq_true.1 (by decide))
    (List.all_eq_true.1 (by decide))
  exact ⟨b, b', hb, hb', hplain.2.2 (by decide) (by decide)⟩

/-- Two builds whose names differ behind the last dot write to the same file. -/
theorem outputs_overlap :
    ∃ b b', ofConfig (sampleFiles ["v1"]) (sampleConfig ["v1.0", "v1.1"]) "v1.0" = .ok b ∧
      ofConfig (sampleFiles ["v1"]) (sampleConfig ["v1.0", "v1.1"]) "v1.1" = .ok b' ∧
      b.netlistFile = ⟨true, ["proj", "build", "v1.net"]⟩ ∧ b'.netlistFile = b.netlistFile := by
  refine ⟨_, _, rfl, rfl, ?_, ?_⟩ <;> decide +kernel

end Boardwright.Build
