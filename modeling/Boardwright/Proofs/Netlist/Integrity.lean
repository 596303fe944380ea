import Boardwright.Netlist.Basic
import Boardwright.Proofs.Component.Designators
import Boardwright.Proofs.Net.Naming
import Boardwright.Proofs.Session

/-!
# Netlists neither lose nor double anything

The making of a netlist is read in two steps. The run comes first: after the walk through the
tree of the root nothing is changed, and each entry of the netlist is made from one component,
one net or one pin. This is put together in `Drawn`, where the entries stand beside what they are
made from, item by item. What a reader of the netlist may rely on, `Intact`, follows from it by
the counting of items alone: designators and the names of nets are distinct, and a pin is read
back from its parent and its name.
-/

namespace Boardwright

open Work Library List Session Component

variable {files : Files} {searched : List Route}

/-! ### Items gathered by work -/

theorem keeps_gatherBy {σ κ ν : Type} [BEq κ] [LawfulBEq κ] {I : σ → Prop} {key : ν → Work σ κ}
    {items : List ν} (h : ∀ x ∈ items, Guards I (key x)) :
    Keeps I (fun groups => (groups.flatMap (·.2)).Perm items ∧ ∀ g ∈ groups, g.2 ≠ [])
      (gatherBy key items) := by
  have hpairs : Keeps I (Forall₂ (fun x p => x = p.2) items)
      (items.mapM fun x => do return (← key x, x)) :=
    Keeps.mapM fun x hx => (h x hx).bind fun k _ => .pure rfl
  refine hpairs.bind fun pairs hsame => .pure ?_
  have hitems := map_eq_map_of_forall₂ (f := id) (g := Prod.snd) hsame fun _ _ h => h
  rw [map_id] at hitems
  constructor
  · have hperm := (Table.flatten_values_groupBy (·.1) pairs).map (·.2)
    rw [← hitems] at hperm
    simpa [Table.map, Table.values, flatMap_def, map_flatten,
      Function.comp_def] using hperm
  · intro g hg hnil
    obtain ⟨e, he, rfl⟩ := mem_map.1 hg
    have hempty : e.2 = [] := map_eq_nil_iff.1 hnil
    exact Table.nil_not_mem_groupBy (·.1) pairs (mem_map.2 ⟨e, he, hempty⟩)

namespace Netlist

variable {lib : Library} {ds : Table Address String} {a b r root : Address} {as : List Address}
  {nets : List (List Address)} {nl : Netlist} {s s' : Session} {t u : Terminal} {I : Session → Prop}

/-! ### How the entries are made -/

/-- The entry of a component has its path and its designator. -/
def Places (ds : Table Address String) (a : Address) (p : Placement) : Prop :=
  a.text = p.path ∧ ds.get? a = some p.designator

/-- The entry of a pin has its name and the designator of its parent. -/
def Marks (ds : Table Address String) (a : Address) (t : Terminal) : Prop :=
  ∃ b, a.parent = some b ∧ ds.get? b = some t.designator ∧ t.pin = a.name

theorem keeps_designated (ds : Table Address String) (a : Option Address) :
    Keeps I (fun d => ∃ b, a = some b ∧ ds.get? b = some d) (designated ds a) := by
  unfold designated
  split
  · next d hd => exact .pure (Option.bind_eq_some_iff.1 hd)
  · exact .throw _

theorem keeps_keyText (v : Value) : Guards I (keyText v) := by
  cases v with
  | text s => exact .pure trivial
  | quantity q => exact .throw _

theorem reads_pins (as : List Address) :
    Keeps (·.library = lib) (fun pins => pins = as.filter (lib.made [.pin]))
      (as.filterM fun a => Session.design (isAny [.pin] a)) := by
  have hpins : Keeps (·.library = lib) (fun pins => pins = as.filter (lib.made [.pin]) ∧
      ∀ a ∈ as, True) (as.filterM fun a => Session.design (isAny [.pin] a)) := by
    refine Keeps.filterM fun a _ => (keeps_design (reads_isAny _ a)).imp fun c hc => ?_
    obtain ⟨i, hi, hic⟩ := hc
    exact ⟨by simp [made, hi, hic], trivial⟩
  exact hpins.imp fun _ hkept => hkept.1

theorem reads_wire (code : Nat) (name : String) (net : List Address) :
    Keeps (·.library = lib) (fun w => w.code = code ∧ w.name = name ∧
      Forall₂ (Marks ds) (net.filter (lib.made [.pin])) w.terminals)
      (wire ds code name net) := by
  refine (reads_pins net).bind fun pins hpins => ?_
  have hmarks : ∀ a ∈ pins, Keeps (·.library = lib) (Marks ds a)
      (do return ⟨← designated ds a.parent, a.name⟩) :=
    fun a _ => (keeps_designated ds a.parent).bind fun d hd => .pure (by simpa [Marks] using hd)
  refine (Keeps.mapM hmarks).bind fun ts hts => .pure ⟨rfl, rfl, ?_⟩
  rwa [← hpins]

section Reads

variable (h : Shares files searched r lib lib)

include h

theorem reads_libraryPart (ha : r.Tree a) : Guards (·.library = lib) (libraryPart a) := by
  refine (keeps_design (h.inStep_children ha).keeps).bind fun ks _ => ?_
  refine (reads_pins ks).bind fun pins _ =>
    (keeps_design (h.inStep_instanceAt ha).keeps).bind fun i _ => ?_
  have hpart : Guards (·.library = lib)
      (do return some (← Session.design (Component.part a)) : Work Session (Option Value)) :=
    (keeps_design (reads_part h ha)).bind fun _ _ => .pure trivial
  exact (keeps_warned hpart trivial).bind fun _ _ => .pure trivial

theorem reads_placement (ha : r.Tree a) (l : LibraryPart) (footprint : String) :
    Keeps (·.library = lib) (Places ds a) (placement ds l footprint a) := by
  refine (keeps_designated ds (some a)).bind fun d hd => ?_
  obtain ⟨b, hb, hget⟩ := hd
  cases hb
  exact (keeps_warned (keeps_design (reads_value h ha)) trivial).bind
    fun v _ => .pure ⟨rfl, hget⟩

theorem reads_grouped (hne : as ≠ []) (has : ∀ a ∈ as, r.Tree a) (footprint : String) :
    Keeps (·.library = lib) (fun part => Forall₂ (Places ds) as part.2)
      (grouped ds footprint as) := by
  have hhead : r.Tree (as.headD ⟨""⟩) := by
    cases as with
    | nil => exact absurd rfl hne
    | cons a as => exact has a mem_cons_self
  exact (reads_libraryPart h hhead).bind fun l _ =>
    (Keeps.mapM fun a ha => reads_placement h (has a ha) l footprint).bind fun ps hps => .pure hps

end Reads

/-- A netlist beside what it is drawn from, item by item: the instances `as` that are met below
the root, their nets, and the designators of the components. -/
structure Drawn (lib : Library) (r : Address) (as : List Address) (nets : List (List Address))
    (ds : Table Address String) (nl : Netlist) : Prop where
  tree : ∀ a ∈ as, r.Tree a
  nodup : as.Nodup
  distinct : ds.values.Nodup
  components : ∀ b ∈ ds.keys, b ∈ as.filter (lib.made [.component])
  placements : ∃ cs, cs.Perm (as.filter (lib.made [.component])) ∧
    Forall₂ (Places ds) cs nl.placements
  onNets : nets.flatten.Nodup ∧ ∀ a, a ∈ nets.flatten ↔ a ∈ as ∧ Net.IsTerminal lib a
  wires : ∃ named : Table String (List Address), named.keys.Nodup ∧ named.values = nets ∧
    Forall₂ (fun e w => w.code = e.2 + 1 ∧ w.name = e.1.1 ∧
      Forall₂ (Marks ds) (e.1.2.filter (lib.made [.pin])) w.terminals)
      named.entries.zipIdx nl.wires

/-! ### What a reader may rely on -/

/-- The pin `a` stands in a netlist as the terminal `t`: under the designator of the placement of
its parent, with its own name. -/
def Stands (nl : Netlist) (a : Address) (t : Terminal) : Prop :=
  ∃ b, a.parent = some b ∧ ∃ p ∈ nl.placements, p.path = b.text ∧ t = ⟨p.designator, a.name⟩

def terminals (nl : Netlist) : List Terminal := nl.wires.flatMap Wire.terminals

/-- A netlist in which nothing of the instances `as` and of their nets is lost or doubled. -/
structure Intact (lib : Library) (as : List Address) (nets : List (List Address))
    (nl : Netlist) : Prop where
  /-- The placements are those of the components, one for each. -/
  paths : (nl.placements.map Placement.path).Perm
    ((as.filter (lib.made [.component])).map Address.text)
  paths_nodup : (nl.placements.map Placement.path).Nodup
  designators_nodup : (nl.placements.map Placement.designator).Nodup
  names_nodup : (nl.wires.map Wire.name).Nodup
  codes : nl.wires.map Wire.code = List.range' 1 nl.wires.length
  terminals_nodup : nl.terminals.Nodup
  /-- Each pin stands in the netlist as one terminal, which is there once. -/
  pin : ∀ a ∈ as, lib.made [.pin] a → ∃ t, (∀ u, nl.Stands a u ↔ u = t) ∧ nl.terminals.count t = 1
  /-- Each terminal is that of one pin. -/
  terminal : ∀ t ∈ nl.terminals, ∃! a, a ∈ as ∧ lib.made [.pin] a ∧ nl.Stands a t
  /-- Pins are on one wire exactly if they are on one net. -/
  together : ∀ a ∈ as, ∀ b ∈ as, lib.made [.pin] a → lib.made [.pin] b →
    ((∃ w ∈ nl.wires, ∃ t ∈ w.terminals, ∃ u ∈ w.terminals, nl.Stands a t ∧ nl.Stands b u) ↔
      ∃ net ∈ nets, a ∈ net ∧ b ∈ net)

namespace Drawn

variable (h : Drawn lib r as nets ds nl)

include h

theorem stands_iff : nl.Stands a t ↔ Marks ds a t := by
  obtain ⟨cs, hperm, hplaces⟩ := h.placements
  constructor
  · rintro ⟨b, hb, p, hp, hpath, rfl⟩
    obtain ⟨c, -, hc, hget⟩ := exists_left_of_forall₂ hplaces hp
    obtain rfl := Address.text_injective (hc.trans hpath)
    exact ⟨c, hb, hget, rfl⟩
  · rintro ⟨b, hb, hget, hname⟩
    have hmem := hperm.mem_iff.2 (h.components b (Table.mem_keys_of_get? hget))
    obtain ⟨p, hp, hpath, hget'⟩ := exists_right_of_forall₂ hplaces hmem
    refine ⟨b, hb, p, hp, hpath.symm, ?_⟩
    cases t
    simp_all

/-- Pins of the tree are told apart by their terminals. -/
theorem biUnique : Relator.BiUnique fun a t => r.Tree a ∧ Marks ds a t := by
  constructor
  · rintro a c t ⟨⟨hr, p, hp, rfl⟩, b, hb, hget, hname⟩ ⟨⟨-, q, hq, rfl⟩, b', hb', hget', hname'⟩
    rw [hr.eq_addInstance_of_parent hp hb, hr.eq_addInstance_of_parent hq hb',
      Designator.eq_of_get? h.distinct hget hget', ← hname, hname']
  · rintro a t u ⟨-, b, hb, hget, hname⟩ ⟨-, b', hb', hget', hname'⟩
    cases hb.symm.trans hb'
    cases t
    cases u
    simp_all

theorem forall₂_terminals :
    Forall₂ (fun a t => r.Tree a ∧ Marks ds a t) (nets.flatten.filter (lib.made [.pin]))
      nl.terminals := by
  obtain ⟨named, -, rfl, hwires⟩ := h.wires
  have hmarks : Forall₂ (Marks ds)
      (named.entries.zipIdx.flatMap fun e => e.1.2.filter (lib.made [.pin])) nl.terminals :=
    rel_flatMap hwires fun e w hw => hw.2.2
  have hpins : (named.entries.zipIdx.flatMap fun e => e.1.2.filter (lib.made [.pin])) =
      named.values.flatten.filter (lib.made [.pin]) := by
    calc
      _ = (named.entries.zipIdx.map Prod.fst).flatMap fun e => e.2.filter (lib.made [.pin]) := by
        rw [flatMap_map]
      _ = named.entries.flatMap fun e => e.2.filter (lib.made [.pin]) := by
        rw [zipIdx_map_fst]
      _ = _ := by simp [Table.values, filter_flatten, flatMap_def, Function.comp_def]
  rw [hpins] at hmarks
  refine (forall₂_and_left _ _).2 ⟨fun a ha => ?_, hmarks⟩
  exact h.tree a ((h.onNets.2 a).1 (mem_filter.1 ha).1).1

theorem mem_pins_iff : a ∈ nets.flatten.filter (lib.made [.pin]) ↔ a ∈ as ∧ lib.made [.pin] a := by
  rw [mem_filter, h.onNets.2]
  refine ⟨fun ha => ⟨ha.1.1, ha.2⟩, fun ha => ⟨⟨ha.1, ?_⟩, ha.2⟩⟩
  obtain ⟨i, hi, hpin⟩ := made_iff.1 ha.2
  exact ⟨i, hi, by simp_all [Instance.isAny]⟩

theorem placed : (nl.placements.map Placement.path).Perm
      ((as.filter (lib.made [.component])).map Address.text) ∧
    (nl.placements.map Placement.path).Nodup ∧ (nl.placements.map Placement.designator).Nodup := by
  obtain ⟨cs, hperm, hplaces⟩ := h.placements
  have hcs : cs.Nodup := hperm.nodup_iff.2 (h.nodup.filter _)
  have hpaths : cs.map Address.text = nl.placements.map Placement.path :=
    map_eq_map_of_forall₂ hplaces fun a p hp => hp.1
  have hdesignators : Forall₂ (fun a d => ds.get? a = some d) cs
      (nl.placements.map Placement.designator) :=
    forall₂_map_right_iff.2 (hplaces.imp fun a p hp => hp.2)
  rw [← hpaths]
  refine ⟨hperm.map _, hcs.map Address.text_injective, ?_⟩
  refine (rel_nodup ⟨?_, ?_⟩ hdesignators).1 hcs
  · exact fun a b d ha hb => Designator.eq_of_get? h.distinct ha hb
  · exact fun a d d' hd hd' => Option.some.inj (hd.symm.trans hd')

theorem numbered : (nl.wires.map Wire.name).Nodup ∧
    nl.wires.map Wire.code = List.range' 1 nl.wires.length := by
  obtain ⟨named, hnames, -, hwires⟩ := h.wires
  constructor
  · have hname : named.entries.zipIdx.map (fun e => e.1.1) = nl.wires.map Wire.name :=
      map_eq_map_of_forall₂ hwires fun e w hw => hw.2.1.symm
    have hkeys : (named.entries.zipIdx.map Prod.fst).map Prod.fst = named.keys := by
      rw [zipIdx_map_fst]
      rfl
    rw [map_map] at hkeys
    rw [← hname]
    exact hkeys ▸ hnames
  · have hcode : named.entries.zipIdx.map (fun e => e.2 + 1) = nl.wires.map Wire.code :=
      map_eq_map_of_forall₂ hwires fun e w hw => hw.1.symm
    have hlength := hwires.length_eq
    rw [length_zipIdx] at hlength
    calc
      nl.wires.map Wire.code = (named.entries.zipIdx.map Prod.snd).map (1 + ·) := by
        rw [← hcode, map_map]
        simp [Function.comp_def, Nat.add_comm]
      _ = List.range' 1 nl.wires.length := by
        rw [zipIdx_map_snd, hlength, map_add_range']

theorem together (ha : a ∈ as) (hb : b ∈ as) (hpa : lib.made [.pin] a) (hpb : lib.made [.pin] b) :
    (∃ w ∈ nl.wires, ∃ t ∈ w.terminals, ∃ u ∈ w.terminals, nl.Stands a t ∧ nl.Stands b u) ↔
      ∃ net ∈ nets, a ∈ net ∧ b ∈ net := by
  obtain ⟨named, -, rfl, hwires⟩ := h.wires
  constructor
  · rintro ⟨w, hw, t, ht, u, hu, hat, hbu⟩
    obtain ⟨e, he, -, -, hmarks⟩ := exists_left_of_forall₂ hwires hw
    have hentry := mem_map_of_mem (f := Prod.fst) he
    rw [zipIdx_map_fst] at hentry
    have hnet : e.1.2 ∈ named.values := mem_map_of_mem hentry
    have hon : ∀ c v, c ∈ as → v ∈ w.terminals → nl.Stands c v → c ∈ e.1.2 := by
      intro c v hc hv hstands
      obtain ⟨d, hd, hdv⟩ := exists_left_of_forall₂ hmarks hv
      have hdnet := (mem_filter.1 hd).1
      have hdtree := h.tree d ((h.onNets.2 d).1 (mem_flatten_of_mem hnet hdnet)).1
      rwa [h.biUnique.1 ⟨h.tree c hc, h.stands_iff.1 hstands⟩ ⟨hdtree, hdv⟩]
    exact ⟨e.1.2, hnet, hon a t ha ht hat, hon b u hb hu hbu⟩
  · rintro ⟨net, hnet, hanet, hbnet⟩
    obtain ⟨entry, hentry, rfl⟩ := mem_map.1 hnet
    rw [← zipIdx_map_fst 0 named.entries] at hentry
    obtain ⟨e, he, rfl⟩ := mem_map.1 hentry
    obtain ⟨w, hw, -, -, hmarks⟩ := exists_right_of_forall₂ hwires he
    obtain ⟨t, ht, hat⟩ := exists_right_of_forall₂ hmarks (mem_filter.2 ⟨hanet, hpa⟩)
    obtain ⟨u, hu, hbu⟩ := exists_right_of_forall₂ hmarks (mem_filter.2 ⟨hbnet, hpb⟩)
    exact ⟨w, hw, t, ht, u, hu, h.stands_iff.2 hat, h.stands_iff.2 hbu⟩

/-- Where the entries stand beside what they are made from, nothing is lost or doubled. -/
theorem intact : Intact lib as nets nl := by
  have hterminals := h.forall₂_terminals
  have hnodup : nl.terminals.Nodup :=
    (rel_nodup h.biUnique hterminals).1 (h.onNets.1.filter _)
  obtain ⟨hpaths, hpathsNodup, hdesignators⟩ := h.placed
  obtain ⟨hnames, hcodes⟩ := h.numbered
  refine ⟨hpaths, hpathsNodup, hdesignators, hnames, hcodes, hnodup, ?_, ?_, ?_⟩
  · intro a ha hpin
    obtain ⟨t, ht, htree, hmarks⟩ := exists_right_of_forall₂ hterminals (h.mem_pins_iff.2 ⟨ha, hpin⟩)
    refine ⟨t, fun u => ?_, count_eq_one_of_mem hnodup ht⟩
    rw [h.stands_iff]
    refine ⟨fun hu => h.biUnique.2 ⟨htree, hu⟩ ⟨htree, hmarks⟩, ?_⟩
    rintro rfl
    exact hmarks
  · intro t ht
    obtain ⟨a, ha, htree, hmarks⟩ := exists_left_of_forall₂ hterminals ht
    obtain ⟨hmem, hpin⟩ := h.mem_pins_iff.1 ha
    refine ⟨a, ⟨hmem, hpin, h.stands_iff.2 hmarks⟩, ?_⟩
    rintro b ⟨hb, -, hstands⟩
    exact h.biUnique.1 ⟨h.tree b hb, h.stands_iff.1 hstands⟩ ⟨htree, hmarks⟩
  · intro a ha b hb hpa hpb
    exact h.together ha hb hpa hpb

end Drawn

/-! ### The run -/

theorem reads_parts (h : Shares files searched r lib lib) (ds : Table Address String)
    {groups : List (String × List Address)}
    (hgroups : ∀ g ∈ groups, g.2 ≠ [] ∧ ∀ a ∈ g.2, r.Tree a) :
    Keeps (·.library = lib)
      (fun parts => Forall₂ (Places ds) (groups.flatMap (·.2)) (parts.flatMap (·.2)))
      (groups.mapM fun (footprint, as) => grouped ds footprint as) := by
  have hparts : Keeps (·.library = lib)
      (Forall₂ (fun g part => Forall₂ (Places ds) g.2 part.2) groups)
      (groups.mapM fun (footprint, as) => grouped ds footprint as) :=
    Keeps.mapM fun g hg => reads_grouped h (hgroups g hg).1 (hgroups g hg).2 g.1
  exact hparts.imp fun parts hplaces => rel_flatMap hplaces fun g part hg => hg

theorem reads_wires (ds : Table Address String) (named : Table String (List Address)) :
    Keeps (·.library = lib) (Forall₂ (fun e w => w.code = e.2 + 1 ∧ w.name = e.1.1 ∧
        Forall₂ (Marks ds) (e.1.2.filter (lib.made [.pin])) w.terminals)
        named.entries.zipIdx)
      (named.entries.zipIdx.mapM fun ((name, net), i) => wire ds (i + 1) name net) :=
  Keeps.mapM fun e _ => reads_wire (e.2 + 1) e.1.1 e.1.2

section Run

variable (h : Shares files searched r lib lib) (hroot : r.Tree root)
  (has : (descendants root).outcome lib = (.ok as, lib)) {lib' : Library}

include h hroot has

theorem named_of_byName {named : Table String (List Address)}
    (hnamed : (Net.byName root).outcome lib = (.ok named, lib')) :
    lib' = lib ∧ root.isInstance = false ∧
      (Net.below root).outcome lib = (.ok named.values, lib) ∧ named.keys.Nodup ∧
      named.values.flatten.Nodup ∧
      ∀ a, a ∈ named.values.flatten ↔ a ∈ as ∧ Net.IsTerminal lib a := by
  unfold Net.byName at hnamed
  split at hnamed
  · cases hnamed
  · next hinstance =>
      obtain ⟨nets, lib₁, hbelow, hnamed⟩ := bind_eq_ok.1 hnamed
      obtain ⟨as', has', -, hnodup, hmem⟩ := Net.below_eq_ok h.left hroot hbelow
      cases has.symm.trans has'
      obtain rfl := (Net.reads_named nets).state rfl hnamed
      obtain rfl := (Net.reads_named nets).result rfl hnamed
      obtain ⟨hkeys, hvalues⟩ := Net.namedIn_entries h.left.sound nets
      rw [hvalues]
      exact ⟨rfl, by simpa using hinstance, hbelow, hkeys, hnodup, hmem⟩

/-- The designators of a root are those of components below it. A file is not a component, so
what stands below a file and is not read as an instance has no designators around it. -/
theorem components_of_designators (hinstance : root.isInstance = false)
    (hds : (Component.designators r).outcome lib = (.ok ds, lib')) :
    lib' = lib ∧ ds.values.Nodup ∧ as.Nodup ∧
      ∀ b ∈ ds.keys, b ∈ as.filter (lib.made [.component]) := by
  obtain ⟨rfl, hvalues, as', has', hkeys⟩ := designators_eq_ok h hds
  have hself : r.Tree r := ⟨h.root, .refl r⟩
  refine ⟨rfl, hvalues, ?_⟩
  have hcases : root = r ∨ r.IsFile := by
    obtain ⟨hr, q, hq, rfl⟩ := hroot
    exact hr.symm.imp_left fun hentry => hentry.eq_of_not_isInstance hq hinstance
  rcases hcases with rfl | hfile
  · cases has.symm.trans has'
    rw [hkeys]
    exact ⟨(h.left.descendants_eq_ok h.root has).2.2.1, fun b hb => hb⟩
  · obtain ⟨i, hi⟩ : ∃ i, lib'.instances.get? r = some i := by
      have hthere := h.there
      rw [Table.contains_eq_isSome] at hthere
      exact Option.isSome_iff_exists.1 hthere
    rw [Shares.outcome_descendants hroot h.there] at has
    rw [Shares.outcome_descendants hself h.there] at has'
    obtain ⟨-, -, rfl⟩ := descendantsWithin_of_isFile h.left.sound hfile hi hroot has
    obtain ⟨-, -, rfl⟩ := descendantsWithin_of_isFile h.left.sound hfile hi hself has'
    refine ⟨nodup_singleton _, fun b hb => ?_⟩
    rw [hkeys, mem_filter, mem_singleton] at hb
    obtain ⟨rfl, hmade⟩ := hb
    obtain ⟨j, hj, hcomponent⟩ := made_iff.1 hmade
    have hisA : j.isA .component := by simpa [Instance.isAny] using hcomponent
    cases h.left.sound.eq_module_of_isFile hfile hj hisA

end Run

/-- A netlist is drawn from the tree of its root, which is not changed after the first walk
through it. -/
theorem exists_drawn (hlib : Reached files searched s.library)
    (h : (below root).outcome s = (.ok nl, s')) :
    ∃ r as nets ds, r.Tree root ∧ (descendants root).outcome s.library = (.ok as, s'.library) ∧
      (Net.below root).outcome s'.library = (.ok nets, s'.library) ∧
      Drawn s'.library r as nets ds nl := by
  obtain ⟨cs, s₁, hcs, h⟩ := bind_eq_ok.1 h
  obtain ⟨_, s₂, heach, h⟩ := bind_eq_ok.1 h
  obtain ⟨groups, s₃, hgroups, h⟩ := bind_eq_ok.1 h
  obtain ⟨ds, s₄, hds, h⟩ := bind_eq_ok.1 h
  obtain ⟨parts, s₅, hparts, h⟩ := bind_eq_ok.1 h
  obtain ⟨named, s₆, hnamed, h⟩ := bind_eq_ok.1 h
  obtain ⟨wires, s₇, hwires, hend⟩ := bind_eq_ok.1 h
  cases hend
  -- the root, and the walk that makes its tree
  obtain ⟨r, as, hroot, has, rfl, hshares, hagain, htree⟩ :=
    below_tree hlib (outcome_library_of_design hcs)
  have hcomponents : ∀ a ∈ as.filter (s₁.library.made [.component]), r.Tree a :=
    fun a ha => htree a (mem_filter.1 ha).1
  -- the entries, which leave the library as it is
  have hfootprint : ∀ a ∈ as.filter (s₁.library.made [.component]),
      Guards (·.library = s₁.library) (Session.design (Component.footprint a)) :=
    fun a ha => keeps_design (reads_footprint hshares (hcomponents a ha))
  have hs₂ := (Keeps.each hfootprint).state rfl heach
  have hgather := keeps_gatherBy (I := fun s : Session => s.library = s₁.library)
    fun a ha => (hfootprint a ha).bind fun v _ => keeps_keyText v
  obtain ⟨hperm, hne⟩ := hgather.result hs₂ hgroups
  have hs₃ := hgather.state hs₂ hgroups
  have hds := outcome_library_of_design hds
  rw [hs₃, hroot.entry_eq] at hds
  have hs₄ := (designators_eq_ok hshares hds).1
  have hplaced := reads_parts hshares ds fun g hg => ⟨hne g hg, fun a ha =>
    hcomponents a (hperm.mem_iff.1 (mem_flatMap_of_mem hg ha))⟩
  have hs₅ := hplaced.state hs₄ hparts
  have hnamed := outcome_library_of_design hnamed
  rw [hs₅] at hnamed
  obtain ⟨hs₆, hinstance, hbelow, hkeys, hnodup, hmem⟩ :=
    named_of_byName hshares hroot hagain hnamed
  have hs' := (reads_wires ds named).state hs₆ hwires
  obtain ⟨-, hdistinct, hasNodup, hdsKeys⟩ :=
    components_of_designators hshares hroot hagain hinstance hds
  rw [hs']
  exact ⟨r, as, named.values, ds, hroot, has, hbelow, {
    tree := htree
    nodup := hasNodup
    distinct := hdistinct
    components := hdsKeys
    placements := ⟨_, hperm, hplaced.result hs₄ hparts⟩
    onNets := ⟨hnodup, hmem⟩
    wires := ⟨named, hkeys, rfl, (reads_wires ds named).result hs₆ hwires⟩ }⟩

/-- Nothing of a design is lost or doubled in its netlist. -/
theorem below_intact (hlib : Reached files searched s.library)
    (h : (below root).outcome s = (.ok nl, s')) :
    ∃ as nets, (descendants root).outcome s.library = (.ok as, s'.library) ∧
      (root.entry = root → ∀ a, a ∈ as ↔ s'.library.Within root a) ∧
      (Net.below root).outcome s'.library = (.ok nets, s'.library) ∧
      Intact s'.library as nets nl := by
  obtain ⟨r, as, nets, ds, hroot, has, hnets, hdrawn⟩ := exists_drawn hlib h
  refine ⟨as, nets, has, fun hentry => ?_, hnets, hdrawn.intact⟩
  rw [hroot.entry_eq] at hentry
  rw [← hentry] at has ⊢
  exact (hlib.descendants_eq_ok hroot.1 has).2.2.2

/-- Two components of one sort whose pins are linked. -/
def linkedPair : Library where
  files.texts := ⟨[(["f"], "component C:\n footprint=\"F\"\n pin p\nmodule M:\n a=new C\n" ++
    " b=new C\n a.p~b.p\n")]⟩

theorem below_intact_linkedPair :
    ∃ nl s', (below ⟨"f:M"⟩).outcome { library := linkedPair } = (.ok nl, s') ∧
      nl.placements.map (fun p => (p.designator, p.path)) =
        [("U1", "f:M::a"), ("U2", "f:M::b")] ∧
      nl.wires = [⟨1, "net", [⟨"U1", "p"⟩, ⟨"U2", "p"⟩]⟩] ∧
      ∃ as nets, (descendants ⟨"f:M"⟩).outcome linkedPair = (.ok as, s'.library) ∧
        Intact s'.library as nets nl := by
  have hrun : (((below ⟨"f:M"⟩).outcome { library := linkedPair }).1.toOption.map fun nl =>
      (nl.placements.map fun p => (p.designator, p.path), nl.wires)) =
      some ([("U1", "f:M::a"), ("U2", "f:M::b")], [⟨1, "net", [⟨"U1", "p"⟩, ⟨"U2", "p"⟩]⟩]) := by
    decide +kernel
  obtain ⟨nl, hnl, hentries⟩ := Option.map_eq_some_iff.1 hrun
  obtain ⟨hplacements, hwires⟩ := Prod.mk.inj hentries
  have h := outcome_eq_ok_of_toOption hnl
  obtain ⟨as, nets, has, -, -, hintact⟩ := below_intact .fresh h
  exact ⟨nl, _, h, hplacements, hwires, as, nets, has, hintact⟩

end Netlist

end Boardwright
