import Boardwright.Bill.Basic
import Boardwright.Proofs.Netlist.Integrity

/-!
# Bills list each component once

The components below an entry are gathered by the parts that they stand for, and each group is given
its lines: one line for a part that is named, and one line for each component where none is. What
the lines of a list of components are is told by the list and by the parts alone, `lines`, and the
rows of a bill stand beside these lines, item by item: `reads_rows`. That nothing is lost or doubled
is then a fact about `lines`.
-/

namespace Boardwright

open Work Library List Session Component

/-! ### Items gathered under their keys -/

namespace Table

variable {κ ν : Type} [BEq κ] [LawfulBEq κ] {ks : List κ} {k : κ}

theorem lookup_map_self (hk : k ∈ ks) (f : κ → ν) :
    (ks.map fun k' => (k', f k')).lookup k = some (f k) := by
  induction ks with
  | nil => cases hk
  | cons k' ks ih =>
    rw [map_cons, lookup_cons]
    by_cases h : k = k'
    · simp [h]
    · rw [if_neg (by simpa using h)]
      exact ih ((mem_cons.1 hk).resolve_left h)

theorem setEntry_map_self (hks : ks.Nodup) (hk : k ∈ ks) (f : κ → ν) (v : ν) :
    setEntry k v (ks.map fun k' => (k', f k')) =
      ks.map fun k' => (k', if k' == k then v else f k') := by
  induction ks with
  | nil => cases hk
  | cons k' ks ih =>
    rw [nodup_cons] at hks
    rw [map_cons, setEntry, map_cons]
    by_cases h : k' = k
    · subst h
      rw [if_pos BEq.rfl, if_pos BEq.rfl]
      congr 1
      apply map_congr_left
      intro x hx
      have hne : x ≠ k' := fun h => hks.1 (h ▸ hx)
      simp [hne]
    · rw [if_neg (by simpa using h), if_neg (by simpa using h),
        ih hks.2 ((mem_cons.1 hk).resolve_left (Ne.symm h))]

theorem eraseDups_concat (ks : List κ) (k : κ) :
    (ks ++ [k]).eraseDups = if ks.contains k then ks.eraseDups else ks.eraseDups ++ [k] := by
  rw [eraseDups_append]
  by_cases hk : k ∈ ks <;> simp [List.removeAll, eraseDups_cons, hk]

theorem nodup_eraseDups (ks : List κ) : ks.eraseDups.Nodup := by
  induction ks using List.reverseRecOn with
  | nil => exact nodup_nil
  | append_singleton ks k ih =>
    rw [eraseDups_concat]
    split
    · exact ih
    · next hk =>
        have hnot : k ∉ ks.eraseDups := by simpa using hk
        rw [nodup_append]
        refine ⟨ih, by simp, fun x hx y hy hxy => ?_⟩
        rw [hxy, mem_singleton.1 hy] at hx
        exact hnot hx

/-- The keys come in the order in which they are first met, and the items of a key in their own. -/
theorem entries_groupBy (key : ν → κ) (xs : List ν) :
    (groupBy key xs).entries =
      (xs.map key).eraseDups.map fun k => (k, xs.filter fun x => key x == k) := by
  induction xs using List.reverseRecOn with
  | nil => rfl
  | append_singleton xs x ih =>
    have hstep : groupBy key (xs ++ [x]) = (groupBy key xs).set (key x)
        (((groupBy key xs).get? (key x)).getD [] ++ [x]) := by
      rw [groupBy, foldl_append]
      rfl
    have hkeys : (groupBy key xs).keys = (xs.map key).eraseDups := by
      rw [keys, ih, map_map]
      exact map_id _
    rw [hstep, map_append, map_singleton, eraseDups_concat]
    by_cases hk : key x ∈ xs.map key
    · have hmem : key x ∈ (xs.map key).eraseDups := mem_eraseDups.2 hk
      have hget : (groupBy key xs).get? (key x) = some (xs.filter fun y => key y == key x) := by
        rw [get?, ih]
        exact lookup_map_self hmem _
      rw [if_pos (by simpa using hk), hget, set, ih, setEntry_map_self (nodup_eraseDups _) hmem]
      apply map_congr_left
      intro k _
      by_cases h : k = key x
      · simp [h]
      · simp [h, Ne.symm h]
    · have hnone : key x ∉ (groupBy key xs).keys := by
        rwa [hkeys, mem_eraseDups]
      rw [if_neg (by simpa using hk), entries_set_of_not_mem _ hnone, ih,
        get?_eq_none_iff.2 hnone, map_append]
      congr 1
      · apply map_congr_left
        intro k hk'
        have hne : key x ≠ k := by
          rintro rfl
          exact hk (mem_eraseDups.1 hk')
        simp [hne]
      · have hfilter : (xs.filter fun y => key y == key x) = [] := by
          rw [filter_eq_nil_iff]
          intro y hy heq
          exact hk (mem_map.2 ⟨y, hy, by simpa using heq⟩)
        simp [hfilter]

end Table

theorem keeps_gatherBy_eq {σ κ ν : Type} [BEq κ] [LawfulBEq κ] {I : σ → Prop} {P : ν → Prop}
    {key : ν → Work σ κ} {k : ν → κ} {items : List ν}
    (h : ∀ x ∈ items, Keeps I (fun c => c = k x ∧ P x) (key x)) :
    Keeps I (fun groups => groups = ((items.map k).eraseDups.map fun c =>
        (c, items.filter fun x => k x == c)) ∧ ∀ x ∈ items, P x)
      (gatherBy key items) := by
  have hpairs : Keeps I (Forall₂ (fun x p => p = (k x, x) ∧ P x) items)
      (items.mapM fun x => do return (← key x, x)) :=
    Keeps.mapM fun x hx => (h x hx).bind fun c hc => .pure ⟨by rw [hc.1], hc.2⟩
  refine hpairs.bind fun pairs hsame => .pure ⟨?_, fun x hx => ?_⟩
  · have hmap : pairs = items.map fun x => (k x, x) := by
      have heq := map_eq_map_of_forall₂ (f := fun x => (k x, x)) (g := id) hsame
        fun _ _ h => h.1.symm
      rw [heq, map_id]
    rw [Table.map, Table.entries_groupBy, hmap, map_map, map_map]
    apply map_congr_left
    intro c _
    rw [Function.comp_apply, filter_map, map_map]
    exact congrArg (c, ·) (map_id _)
  · obtain ⟨_, -, -, hPx⟩ := exists_right_of_forall₂ hsame hx
    exact hPx

namespace Component

theorem reads_wishedValue {files : Files} {searched : List Route} {lib : Library} {a r : Address}
    (h : Shares files searched r lib lib) (ha : r.Tree a) : Guards (· = lib) (wishedValue a) := by
  refine (h.reads_dataOf ha).bind fun i _ => (reads_namedPart h ha).bind fun named _ => ?_
  split
  · exact .throw _
  · exact .pure trivial

end Component

namespace Bill

variable {files : Files} {searched : List Route} {lib : Library} {a b r entry : Address}
  {as cs : List Address} {ds : Table Address String} {s s' : Session} {I : Session → Prop}

/-! ### The lines of a bill -/

/-- A line of a bill: what stands in the column of parts, and the components that are listed. -/
structure Line where
  label : String
  members : List Address

/-- The lines of a group of components: one line if a part is named for them, and else one for each
of them. -/
def linesOf : Option String × List Address → List Line
  | (none, as) | (some "", as) => as.map fun a => ⟨"?", [a]⟩
  | (some p, as) => [⟨p, as⟩]

/-- The lines of a list of components. The groups come in the order in which a component of theirs
is first met, and the components of a group in their own. -/
def lines (part : Address → Option String) (cs : List Address) : List Line :=
  ((cs.map part).eraseDups.map fun k => (k, cs.filter fun c => part c == k)).flatMap linesOf

section Lines

variable {part : Address → Option String} {k : Option String} {p : String} {l : Line}

/-- No part is named: it is missing, or its name is empty. -/
def Unnamed (k : Option String) : Prop := k = none ∨ k = some ""

theorem linesOf_of_unnamed (hk : Unnamed k) (as : List Address) :
    linesOf (k, as) = as.map fun a => ⟨"?", [a]⟩ := by
  rcases hk with rfl | rfl <;> rfl

theorem linesOf_of_named (hk : ¬Unnamed (some p)) (as : List Address) :
    linesOf (some p, as) = [⟨p, as⟩] := by
  unfold linesOf
  split
  · next heq => cases heq
  · next heq =>
      cases heq
      exact absurd (.inr rfl) hk
  · next heq =>
      cases heq
      rfl

theorem flatMap_members_linesOf (k : Option String) (as : List Address) :
    (linesOf (k, as)).flatMap Line.members = as := by
  by_cases hk : Unnamed k
  · rw [linesOf_of_unnamed hk, flatMap_map]
    exact flatMap_singleton' as
  · cases k with
    | none => exact absurd (.inl rfl) hk
    | some p => simp [linesOf_of_named hk]

theorem perm_lines (part : Address → Option String) (cs : List Address) :
    ((lines part cs).flatMap Line.members).Perm cs := by
  have hperm := Table.flatten_values_groupBy part cs
  rw [Table.values, Table.entries_groupBy, map_map] at hperm
  have hmembers : (lines part cs).flatMap Line.members =
      ((cs.map part).eraseDups.map fun k => cs.filter fun c => part c == k).flatten := by
    rw [lines, flatMap_assoc, flatMap_map]
    simp only [flatMap_members_linesOf]
    rw [flatMap_def]
  rw [hmembers]
  exact hperm

theorem mem_lines_iff : l ∈ lines part cs ↔
    ∃ c ∈ cs, l ∈ linesOf (part c, cs.filter fun c' => part c' == part c) := by
  simp [lines, mem_flatMap, mem_eraseDups]

theorem part_eq_of_mem_linesOf (hl : l ∈ linesOf (k, cs.filter fun c => part c == k))
    (ha : a ∈ l.members) : part a = k := by
  have hmem := mem_flatMap_of_mem hl ha
  rw [flatMap_members_linesOf, mem_filter, beq_iff_eq] at hmem
  exact hmem.2

theorem eq_of_mem_lines (hl : l ∈ lines part cs) (ha : a ∈ l.members) (hk : Unnamed (part a)) :
    l = ⟨"?", [a]⟩ := by
  obtain ⟨c, -, hl⟩ := mem_lines_iff.1 hl
  rw [← part_eq_of_mem_linesOf hl ha, linesOf_of_unnamed hk] at hl
  obtain ⟨b, -, rfl⟩ := mem_map.1 hl
  rw [mem_singleton.1 ha]

theorem exists_line_iff (ha : a ∈ cs) (hb : b ∈ cs) (hk : ¬Unnamed (part a)) :
    (∃ l ∈ lines part cs, a ∈ l.members ∧ b ∈ l.members) ↔ part a = part b := by
  constructor
  · rintro ⟨l, hl, hal, hbl⟩
    obtain ⟨c, -, hl⟩ := mem_lines_iff.1 hl
    rw [part_eq_of_mem_linesOf hl hal, part_eq_of_mem_linesOf hl hbl]
  · intro hpart
    obtain ⟨p, hp⟩ : ∃ p, part a = some p := by
      cases h : part a with
      | none => exact absurd (.inl h) hk
      | some p => exact ⟨p, rfl⟩
    refine ⟨⟨p, cs.filter fun c => part c == part a⟩, mem_lines_iff.2 ⟨a, ha, ?_⟩, ?_, ?_⟩
    · rw [hp] at hk ⊢
      rw [linesOf_of_named hk]
      exact mem_singleton.2 rfl
    · simpa using ha
    · simpa [hpart] using hb

theorem label_eq_of_mem_lines (hl : l ∈ lines part cs) (ha : a ∈ l.members) (hp : part a = some p)
    (hk : ¬Unnamed (some p)) : l.label = p := by
  obtain ⟨c, -, hl⟩ := mem_lines_iff.1 hl
  rw [← part_eq_of_mem_linesOf hl ha, hp, linesOf_of_named hk, mem_singleton] at hl
  rw [hl]

end Lines

/-! ### Reading the parts -/

/-- The part of a component: one is named, or it is reported that none is or that none fits. -/
inductive HasPart (lib : Library) (a : Address) : Option String → Prop
  | named {p : String} (part : (Component.part a).outcome lib = (.ok (.text p), lib)) :
    HasPart lib a (some p)
  | unnamed {r : Report} (part : (Component.part a).outcome lib = (.error (.report r), lib))
    (kind : r.kind = .missingData ∨ r.kind = .noMatchingPart) : HasPart lib a none

/-- The part that an answer names, if it names one. -/
def answered : Except Failure Value → Option String
  | .ok (.text p) => some p
  | _ => none

def mpn (lib : Library) (a : Address) : Option String :=
  answered ((Component.part a).outcome lib).1

theorem HasPart.eq_mpn {part : Option String} (h : HasPart lib a part) : part = mpn lib a := by
  rw [mpn]
  cases h with
  | named hpart =>
    rw [hpart]
    rfl
  | unnamed hpart _ =>
    rw [hpart]
    rfl

theorem reads_partOf (h : Shares files searched r lib lib) (ha : r.Tree a) :
    Keeps (·.library = lib) (HasPart lib a) (partOf a) := by
  have hreads := reads_part h ha
  have hanswer : Keeps (· = lib) (fun v => (Component.part a).outcome lib = (.ok v, lib))
      (Component.part a) := by
    rintro _ rfl
    have hstate := (hreads _ rfl).1
    exact ⟨hstate, fun v hv => Prod.ext hv hstate⟩
  have hpart : Keeps (·.library = lib) (fun v : Option Value =>
        (∃ x, v = some x ∧ (Component.part a).outcome lib = (.ok x, lib)) ∨
          v = none ∧ HasPart lib a none)
      (Session.warned [.missingData, .noMatchingPart] none do
        return some (← Session.design (Component.part a))) := by
    refine keeps_warned_of_report ((keeps_design hanswer).bind fun x hx =>
      .pure (.inl ⟨x, rfl, hx⟩)) fun s report s' hs hout hkind => .inr ⟨rfl, ?_⟩
    rcases bind_eq_error.1 hout with hout | ⟨x, t, -, hend⟩
    · rw [outcome_design, hs] at hout
      exact .unnamed (Prod.ext (Prod.mk.inj hout).1 (hreads lib rfl).1) (by simpa using hkind)
    · cases hend
  refine hpart.bind fun v hv => ?_
  rcases hv with ⟨x, rfl, hx⟩ | ⟨rfl, hnone⟩
  · cases x with
    | text p => exact Keeps.pure (.named hx)
    | quantity q => exact Keeps.throw _
  · exact .pure hnone

/-! ### Making the rows -/

def nameIn (ds : Table Address String) (a : Address) : String := (ds.get? a).getD ""

def Shows (ds : Table Address String) (l : Line) (row : List String) : Prop :=
  (∀ a ∈ l.members, ds.get? a = some (nameIn ds a)) ∧ ∃ comment footprint,
    row = [comment, Text.join "," (l.members.map (nameIn ds)), footprint, l.label]

theorem keeps_row (comment : String) (names : List String) (footprint : Value) (part : String) :
    Keeps I (fun r => ∃ f, r = [comment, Text.join "," names, f, part])
      (row comment names footprint part) := by
  cases footprint with
  | text f => exact .pure ⟨f, rfl⟩
  | quantity q => exact .throw _

theorem keeps_name (ds : Table Address String) (a : Address) :
    Keeps I (fun d => d = nameIn ds a ∧ ds.get? a = some (nameIn ds a))
      (Netlist.designated ds (some a)) := by
  refine (Netlist.keeps_designated ds (some a)).imp fun d hd => ?_
  obtain ⟨b, hb, hget⟩ := hd
  cases hb
  rw [nameIn, hget]
  exact ⟨rfl, rfl⟩

section Reads

variable (h : Shares files searched r lib lib)

include h

theorem reads_commentOf (ha : r.Tree a) : Guards (·.library = lib) (commentOf a) := by
  have hvalue : Guards (·.library = lib)
      (do return some (← Session.design (Component.value a)) : Work Session (Option String)) :=
    (keeps_design (reads_value h ha)).bind fun _ _ => .pure trivial
  refine (keeps_warned hvalue trivial).bind fun v _ => ?_
  split
  · exact .pure trivial
  · exact keeps_warned (keeps_design (reads_wishedValue h ha)) trivial

theorem reads_footprintOf (ha : r.Tree a) : Guards (·.library = lib) (footprintOf a) :=
  keeps_warned (keeps_design (reads_footprint h ha)) trivial

theorem reads_ownRow (ds : Table Address String) (ha : r.Tree a) :
    Keeps (·.library = lib) (Shows ds ⟨"?", [a]⟩) (do
      let comment ← commentOf a
      let d ← Netlist.designated ds (some a)
      row comment [d] (← footprintOf a) "?") := by
  refine (reads_commentOf h ha).bind fun comment _ => (keeps_name ds a).bind fun d hd =>
    (reads_footprintOf h ha).bind fun f _ => (keeps_row _ _ _ _).imp fun row hrow => ?_
  obtain ⟨f, rfl⟩ := hrow
  exact ⟨forall_mem_singleton.2 hd.2, comment, f, by rw [hd.1]; rfl⟩

theorem reads_sharedRow (p : String) (hne : as ≠ []) (has : ∀ a ∈ as, r.Tree a) :
    Keeps (·.library = lib) (Forall₂ (Shows ds) [⟨p, as⟩]) (do
      let names ← as.mapM fun a => Netlist.designated ds (some a)
      let first := as.headD ⟨""⟩
      let comment ← commentOf first
      return [← row comment names (← footprintOf first) p]) := by
  have hhead : r.Tree (as.headD ⟨""⟩) := by
    cases as with
    | nil => exact absurd rfl hne
    | cons a as => exact has a mem_cons_self
  have hnames := Keeps.mapM (I := fun s : Session => s.library = lib)
    fun a (_ : a ∈ as) => keeps_name ds a
  refine hnames.bind fun names hnames => (reads_commentOf h hhead).bind fun comment _ =>
    (reads_footprintOf h hhead).bind fun f _ => (keeps_row _ _ _ _).bind fun row hrow =>
      .pure (.cons ?_ .nil)
  obtain ⟨f, rfl⟩ := hrow
  have hmap := map_eq_map_of_forall₂ (f := nameIn ds) (g := id) hnames fun _ _ h => h.1.symm
  rw [map_id] at hmap
  refine ⟨fun a ha => ?_, comment, f, by rw [hmap]⟩
  obtain ⟨-, -, -, hget⟩ := exists_right_of_forall₂ hnames ha
  exact hget

theorem reads_rowsOf (part : Option String) (hne : as ≠ []) (has : ∀ a ∈ as, r.Tree a) :
    Keeps (·.library = lib) (Forall₂ (Shows ds) (linesOf (part, as))) (rowsOf ds part as) := by
  by_cases hk : Unnamed part
  · have hrows := (Keeps.mapM fun a ha => reads_ownRow h ds (has a ha)).imp fun rows hrows =>
      forall₂_map_left_iff.2 hrows
    rw [linesOf_of_unnamed hk]
    rcases hk with rfl | rfl <;> exact hrows
  · unfold rowsOf
    split
    · exact absurd (.inl rfl) hk
    · exact absurd (.inr rfl) hk
    · rw [linesOf_of_named hk]
      exact reads_sharedRow h _ hne has

theorem reads_rows (ds : Table Address String) (part : Address → Option String)
    (hcs : ∀ c ∈ cs, r.Tree c) :
    Keeps (·.library = lib) (fun rows => Forall₂ (Shows ds) (lines part cs) rows.flatten)
      (((cs.map part).eraseDups.map fun k => (k, cs.filter fun c => part c == k)).mapM
        fun (part, as) => rowsOf ds part as) := by
  have hgroups : ∀ g ∈ (cs.map part).eraseDups.map fun k => (k, cs.filter fun c => part c == k),
      Keeps (·.library = lib) (Forall₂ (Shows ds) (linesOf g)) (rowsOf ds g.1 g.2) := by
    intro g hg
    obtain ⟨k, hk, rfl⟩ := mem_map.1 hg
    obtain ⟨c, hc, rfl⟩ := mem_map.1 (mem_eraseDups.1 hk)
    refine reads_rowsOf h _ (ne_nil_of_mem (a := c) (by simpa using hc)) fun a ha => ?_
    exact hcs a (mem_filter.1 ha).1
  refine (Keeps.mapM hgroups).imp fun rows hrows => ?_
  rw [lines, flatMap_def]
  exact rel_flatten (forall₂_map_left_iff.2 hrows)

end Reads

/-! ### The whole bill -/

/-- The rows of a bill that lists the components `cs`, each once. -/
structure Listed (lib : Library) (cs : List Address) (ds : Table Address String)
    (rows : List (List String)) : Prop where
  parts : ∀ c ∈ cs, HasPart lib c (mpn lib c)
  /-- The rows show the lines one after the other. -/
  rows : Forall₂ (Shows ds) (lines (mpn lib) cs) rows
  designated : ∀ c ∈ cs, ds.get? c = some (nameIn ds c)
  /-- The designators in the rows are those of the components, each once. -/
  column : ((lines (mpn lib) cs).flatMap fun l => l.members.map (nameIn ds)).Perm
    (cs.map (nameIn ds))
  column_nodup : ((lines (mpn lib) cs).flatMap fun l => l.members.map (nameIn ds)).Nodup
  /-- Components for which parts are named share a row if and only if it is the same part. -/
  together : ∀ a ∈ cs, ∀ b ∈ cs, ¬Unnamed (mpn lib a) → ¬Unnamed (mpn lib b) →
    ((∃ l ∈ lines (mpn lib) cs, a ∈ l.members ∧ b ∈ l.members) ↔ mpn lib a = mpn lib b)
  /-- A component for which no part is named has a row of its own. -/
  alone : ∀ a ∈ cs, Unnamed (mpn lib a) → ⟨"?", [a]⟩ ∈ lines (mpn lib) cs ∧
    ∀ l ∈ lines (mpn lib) cs, a ∈ l.members → l = ⟨"?", [a]⟩
  /-- In the last column stands the part that is named. -/
  labels : ∀ l ∈ lines (mpn lib) cs, ∀ a ∈ l.members, ¬Unnamed (mpn lib a) →
    mpn lib a = some l.label

theorem listed {rows : List (List String)} (hcs : cs.Nodup) (hds : ds.values.Nodup)
    (hparts : ∀ c ∈ cs, HasPart lib c (mpn lib c))
    (hrows : Forall₂ (Shows ds) (lines (mpn lib) cs) rows) : Listed lib cs ds rows := by
  have hperm := perm_lines (mpn lib) cs
  have hline : ∀ c ∈ cs, ∃ l ∈ lines (mpn lib) cs, c ∈ l.members := fun c hc =>
    mem_flatMap.1 (hperm.mem_iff.2 hc)
  have hget : ∀ c ∈ cs, ds.get? c = some (nameIn ds c) := by
    intro c hc
    obtain ⟨l, hl, hcl⟩ := hline c hc
    obtain ⟨row, -, hshows⟩ := exists_right_of_forall₂ hrows hl
    exact hshows.1 c hcl
  have hcolumn : ((lines (mpn lib) cs).flatMap fun l => l.members.map (nameIn ds)).Perm
      (cs.map (nameIn ds)) := by
    rw [← map_flatMap]
    exact hperm.map _
  have hnodup : (cs.map (nameIn ds)).Nodup := by
    refine hcs.map_on fun a ha b hb heq => ?_
    have hb' := hget b hb
    rw [← heq] at hb'
    exact Designator.eq_of_get? hds (hget a ha) hb'
  refine ⟨hparts, hrows, hget, hcolumn, hcolumn.nodup_iff.2 hnodup, ?_, ?_, ?_⟩
  · exact fun a ha b hb hk _ => exists_line_iff ha hb hk
  · intro a ha hk
    refine ⟨?_, fun l hl hal => eq_of_mem_lines hl hal hk⟩
    obtain ⟨l, hl, hal⟩ := hline a ha
    rwa [eq_of_mem_lines hl hal hk] at hl
  · intro l hl a ha hk
    cases hp : mpn lib a with
    | none => exact absurd (.inl hp) hk
    | some p =>
      rw [hp] at hk
      rw [label_eq_of_mem_lines hl ha hp hk]

theorem listed_rows {rs : List (List String)} (hlib : Reached files searched s.library)
    (hentry : entry.isInstance = false) (h : (rows entry).outcome s = (.ok rs, s')) :
    ∃ (r : Address) (as : List Address) (ds : Table Address String), r.Tree entry ∧
      (descendants entry).outcome s.library = (.ok as, s'.library) ∧
      (Component.designators entry.entry).outcome s'.library = (.ok ds, s'.library) ∧
      Listed s'.library (as.filter (s'.library.made [.component])) ds rs := by
  obtain ⟨cs, s₁, hcs, h⟩ := bind_eq_ok.1 h
  obtain ⟨groups, s₂, hgroups, h⟩ := bind_eq_ok.1 h
  obtain ⟨ds, s₃, hds, h⟩ := bind_eq_ok.1 h
  obtain ⟨rows, s₄, hrows, hend⟩ := bind_eq_ok.1 h
  cases hend
  -- the entry, and the walk that makes its tree
  obtain ⟨r, as, hroot, has, rfl, hshares, hagain, htree⟩ :=
    below_tree hlib (outcome_library_of_design hcs)
  have hcomponents : ∀ a ∈ as.filter (s₁.library.made [.component]), r.Tree a :=
    fun a ha => htree a (mem_filter.1 ha).1
  -- all that follows leaves the library as it is
  have hgather := keeps_gatherBy_eq (I := fun s : Session => s.library = s₁.library)
    (k := mpn s₁.library) (P := fun a => HasPart s₁.library a (mpn s₁.library a))
    fun a ha => (reads_partOf hshares (hcomponents a ha)).imp fun _ hp =>
      ⟨hp.eq_mpn, hp.eq_mpn ▸ hp⟩
  obtain ⟨rfl, hparts⟩ := hgather.result rfl hgroups
  have hs₂ := hgather.state rfl hgroups
  have hds := outcome_library_of_design hds
  rw [hs₂] at hds
  have hdesignators := hds
  rw [hroot.entry_eq] at hds
  have hs₃ := (designators_eq_ok hshares hds).1
  have hreads := reads_rows hshares ds (mpn s₁.library) hcomponents
  have hs' := hreads.state hs₃ hrows
  obtain ⟨-, hdistinct, hasNodup, -⟩ :=
    Netlist.components_of_designators hshares hroot hagain hentry hds
  rw [hs₃] at hdesignators
  rw [hs']
  exact ⟨r, as, ds, hroot, has, hdesignators,
    listed (hasNodup.filter _) hdistinct hparts (hreads.result hs₃ hrows)⟩

/-- A bill lists each component of its entry once. -/
theorem text_listed {csv : String} (hlib : Reached files searched s.library)
    (h : (text entry).outcome s = (.ok csv, s')) :
    ∃ as ds rs, csv = Text.Csv.text (columns :: rs) ∧
      s'.grids.getLast? = some ⟨columns, rs⟩ ∧
      (descendants entry).outcome s.library = (.ok as, s'.library) ∧
      (entry.entry = entry → ∀ a, a ∈ as ↔ s'.library.Within entry a) ∧
      (Component.designators entry.entry).outcome s'.library = (.ok ds, s'.library) ∧
      Listed s'.library (as.filter (s'.library.made [.component])) ds rs := by
  unfold text at h
  split at h
  · cases h
  · next hentry =>
      obtain ⟨rs, s₁, hrows, h⟩ := bind_eq_ok.1 h
      obtain ⟨r, as, ds, hroot, has, hds, hlisted⟩ :=
        listed_rows hlib (by simpa using hentry) hrows
      obtain ⟨_, s₂, hpresent, hend⟩ := bind_eq_ok.1 h
      cases hpresent
      cases hend
      refine ⟨as, ds, rs, rfl, List.getLast?_concat, has, fun heq => ?_, hds, hlisted⟩
      rw [hroot.entry_eq] at heq
      rw [← heq] at has ⊢
      exact (hlib.descendants_eq_ok hroot.1 has).2.2.2

/-- Two components that stand for one part, between them one whose part has an empty name and one
for which none is named. -/
def sharedPart : Library where
  files.texts := ⟨[(["f"], "component C:\n footprint=\"F\"\n mpn=\"X\"\n" ++
    "component D:\n footprint=\"G\"\n mpn=\"\"\ncomponent E:\n footprint=\"G\"\n" ++
    "module M:\n a=new C\n d=new D\n e=new E\n b=new C\n")]⟩

theorem text_listed_sharedPart :
    ∃ s', (text ⟨"f:M"⟩).outcome { library := sharedPart } =
        (.ok ("Comment,Designator,Footprint,LCSC" ++
          "\r\n,\"U1,U4\",F,X\r\n,U2,G,?\r\nNone,U3,G,?\r\n"), s') ∧
      ∃ as ds rs, (descendants ⟨"f:M"⟩).outcome sharedPart = (.ok as, s'.library) ∧
        s'.grids.getLast? = some ⟨columns, rs⟩ ∧
        Listed s'.library (as.filter (s'.library.made [.component])) ds rs := by
  have hrun : ((text ⟨"f:M"⟩).outcome { library := sharedPart }).1.toOption =
      some ("Comment,Designator,Footprint,LCSC" ++
        "\r\n,\"U1,U4\",F,X\r\n,U2,G,?\r\nNone,U3,G,?\r\n") := by
    decide +kernel
  have h := outcome_eq_ok_of_toOption hrun
  obtain ⟨as, ds, rs, -, hgrid, has, -, -, hlisted⟩ := text_listed .fresh h
  exact ⟨_, h, as, ds, rs, has, hgrid, hlisted⟩

end Bill

end Boardwright
