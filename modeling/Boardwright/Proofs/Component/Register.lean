import Boardwright.Component.Register
import Boardwright.Proofs.Component.Designators
import Boardwright.Proofs.Session
import Boardwright.Proofs.Text.Pieces
import Mathlib.Order.Bounds.Basic

/-!
# Designators are minimal and stay as they are

The search for a free number goes up from one until it comes to a number that is not taken:
`Search`. It always ends, at the least free number. So the designators of a root are told by its
tree alone: `Numbered` says what they are like, and `outcome_designators` that they are found,
unless the root is a file with children, in which the walk does not end.

A session keeps the designators of one root in its register and loses them when another root is
asked for. But a tree that is there stays as it is, so what is found later is what was lost.

`Component.walk_of_built` says which of the trees that are built can be walked.
-/

namespace Boardwright

open Work Library List Table Component

theorem Address.entry_entry (a : Address) : a.entry.entry = a.entry := by
  unfold entry
  cases hcut : Text.cut [':', ':'] a.text.toList with
  | none =>
    dsimp only
    rw [hcut]
  | some w =>
    obtain ⟨before, after⟩ := w
    have hnone : Text.cut [':', ':'] before = none := by
      rw [Text.cut_eq_none_iff (by simp)]
      rintro ⟨l, r, hoccurs⟩
      have heq := Text.eq_append_of_cut hcut
      have hearlier : a.text.toList = l ++ [':', ':'] ++ (r ++ [':', ':'] ++ after) := by
        rw [heq, ← hoccurs]
        simp
      have hle := Text.length_le_of_cut hcut hearlier
      rw [← hoccurs] at hle
      simp only [length_append, length_cons, length_nil] at hle
      omega
    dsimp only
    rw [String.toList_ofList, hnone]

theorem Address.IsPlace.isRoot {a : Address} (h : a.IsPlace) (ha : a.entry = a) : a.IsRoot := by
  obtain ⟨r, q, hr, hq, heq⟩ := h
  have hroot : a = r := by rw [← ha, heq, hr.entry_addInstances hq]
  rwa [hroot]

variable {lib : Library}

theorem Library.Shares.of_entry {files : Files} {searched : List Route}
    {e : Address} (hlib : Reached files searched lib) (he : e.entry = e) (hc : lib.instances.contains e) :
    Shares files searched e lib lib := by
  have hthere := hc
  rw [contains_eq_isSome] at hthere
  obtain ⟨i, hi⟩ := Option.isSome_iff_exists.1 hthere
  exact .refl ((hlib.sound.instances e i hi).1.isRoot he) hlib hc

namespace Designator

variable {κ : Type} {word : String} {used used' : List String} {i n : Nat}

/-! ### The search for a free number -/

/-- The search for a number with which a word is free: one goes on from a number that is taken, and
stops at one that is not. -/
inductive Search (word : String) (used : List String) : Nat → Nat → Prop
  | stop {i : Nat} (free : word ++ toString i ∉ used) : Search word used i i
  | next {i n : Nat} (taken : word ++ toString i ∈ used) (rest : Search word used (i + 1) n) :
    Search word used i n

theorem Search.spec (h : Search word used i n) :
    i ≤ n ∧ word ++ toString n ∉ used ∧ ∀ m, i ≤ m → m < n → word ++ toString m ∈ used := by
  induction h with
  | stop hfree => exact ⟨Nat.le_refl _, hfree, fun m hle hlt => absurd hle (Nat.not_le_of_lt hlt)⟩
  | @next i n htaken _ ih =>
    obtain ⟨hle, hfree, hpassed⟩ := ih
    refine ⟨Nat.le_of_succ_le hle, hfree, fun m him hmn => ?_⟩
    rcases Nat.lt_or_eq_of_le him with hlt | rfl
    · exact hpassed m hlt hmn
    · exact htaken

/-- The search ends at the least number that is free. -/
theorem Search.isLeast (h : Search word used 1 n) :
    IsLeast {m | 0 < m ∧ word ++ toString m ∉ used} n := by
  obtain ⟨hpos, hfree, hpassed⟩ := h.spec
  refine ⟨⟨hpos, hfree⟩, fun m hm => ?_⟩
  by_contra hlt
  exact hm.2 (hpassed m hm.1 (Nat.lt_of_not_le hlt))

theorem Search.congr (hused : ∀ d, d ∈ used ↔ d ∈ used') (h : Search word used i n) :
    Search word used' i n := by
  induction h with
  | stop hfree => exact .stop (mt (hused _).2 hfree)
  | next htaken _ ih => exact .next ((hused _).1 htaken) ih

theorem search_of_passed {m : Nat} (hpassed : ∀ j < m, word ++ toString (i + j) ∈ used)
    (hfree : word ++ toString (i + m) ∉ used) : Search word used i (i + m) := by
  induction m generalizing i with
  | zero => exact .stop hfree
  | succ m ih =>
    have hnext : i + (m + 1) = i + 1 + m := by omega
    rw [hnext] at hfree ⊢
    refine .next (hpassed 0 (Nat.succ_pos m)) (ih (fun j hj => ?_) hfree)
    have hj' := hpassed (j + 1) (Nat.succ_lt_succ hj)
    rwa [Nat.add_left_comm, Nat.add_comm j] at hj'

theorem search_free (word : String) (used : List String) :
    ∃ n, Search word used 1 n ∧ free word used = word ++ toString n := by
  obtain ⟨m, -, heq, hpassed, -⟩ := freeFrom_eq word used used.length 1
  have hfree := free_not_mem word used
  rw [free, heq] at hfree
  exact ⟨1 + m, search_of_passed hpassed hfree, by rw [free, heq]⟩

theorem assign_turn (word : κ → String) {ks : List κ} {before after : List (κ × String)} {k : κ}
    {d : String} (h : assign used (ks.map fun k => (k, word k)) = before ++ (k, d) :: after) :
    ∃ n, Search (word k) (before.map (·.2) ++ used) 1 n ∧ d = word k ++ toString n := by
  induction ks generalizing used before with
  | nil => simp [assign] at h
  | cons k' ks ih =>
    rw [map_cons, assign] at h
    cases before with
    | nil =>
      obtain ⟨hhead, -⟩ := List.cons.inj h
      obtain ⟨rfl, rfl⟩ := Prod.mk.inj hhead
      exact search_free _ used
    | cons e before =>
      obtain ⟨rfl, hrest⟩ := List.cons.inj h
      obtain ⟨n, hsearch, hd⟩ := ih hrest
      refine ⟨n, hsearch.congr fun x => ?_, hd⟩
      simp only [map_cons, cons_append, mem_append, mem_cons]
      tauto

end Designator

namespace Component

open Designator

variable {files : Files} {searched : List Route} {lib lib' s t : Library} {a e r : Address}
  {as : List Address} {ds : Table Address String}

/-! ### The designators of a root -/

def wordOf (lib : Library) (a : Address) : String :=
  (((lib.instances.get? a).bind (·.get? "designator_prefix")).map Value.show_).getD "U"

/-- The designators of a root: they are given to the components below it, in the order in which the
walk meets them. -/
structure Numbered (lib : Library) (r : Address) (ds : Table Address String) : Prop where
  /-- The components take their turn in the order of the walk. -/
  order : ∃ as, (descendants r).outcome lib = (.ok as, lib) ∧
    ds.keys = as.filter (lib.made [.component])
  /-- Exactly the components below the root have designators, and each has one. -/
  components : ∀ a, a ∈ ds.keys ↔ lib.Within r a ∧ lib.made [.component] a
  keys_nodup : ds.keys.Nodup
  distinct : ds.values.Nodup
  /-- The number of a designator is found by a search among those that were given before it. -/
  turn : ∀ before a d after, ds.entries = before ++ (a, d) :: after →
    ∃ n, Search (wordOf lib a) (before.map (·.2)) 1 n ∧
      IsLeast {m | 0 < m ∧ wordOf lib a ++ toString m ∉ before.map (·.2)} n ∧
      d = wordOf lib a ++ toString n

theorem outcome_word (hc : lib.instances.contains r) (ha : r.Tree a) {i : Instance}
    (hi : lib.instances.get? a = some i) : (word a).outcome lib = (.ok (wordOf lib a), lib) := by
  obtain ⟨hr, q, hq, rfl⟩ := ha
  unfold word
  rw [outcome_bind_ok _ (outcome_dataOf hr hc hq hi), wordOf, hi]
  rfl

section Walk

variable (h : Shares files searched r lib lib)
  (has : (descendants r).outcome lib = (.ok as, lib))

include h has

theorem exists_instance_of_walk (ha : a ∈ as) : ∃ i, lib.instances.get? a = some i := by
  have hwithin := ((h.left.descendants_eq_ok h.root has).2.2.2 a).1 ha
  obtain ⟨q, hleads, rfl⟩ := within_iff_leads.1 hwithin
  have hthere := h.there
  rw [contains_eq_isSome] at hthere
  exact (h.left.whole h.root hthere).exists_instance hleads

theorem outcome_below :
    (below r).outcome lib = (.ok (as.filter (lib.made [.component])), lib) := by
  unfold below
  rw [outcome_bind_ok _ has]
  apply outcome_filterM
  intro a ha
  obtain ⟨i, hi⟩ := exists_instance_of_walk h has ha
  unfold isAny
  rw [outcome_bind_ok _ (outcome_instanceAt hi), made, hi]
  rfl

/-- Where the walk comes to its end, the designators are found and nothing is changed. -/
theorem outcome_designators :
    (designators r).outcome lib =
      (.ok ⟨assign [] ((as.filter (lib.made [.component])).map fun a => (a, wordOf lib a))⟩,
        lib) := by
  have hself : r.Tree r := ⟨h.root, .refl r⟩
  have htree := (h.left.descendants_tree hself has).2.2
  have hwords : ∀ a ∈ as.filter (lib.made [.component]),
      (do return (a, ← word a) : Work Library (Address × String)).outcome lib =
        (.ok (a, wordOf lib a), lib) := by
    intro a ha
    have hmem := (mem_filter.1 ha).1
    obtain ⟨i, hi⟩ := exists_instance_of_walk h has hmem
    rw [outcome_bind_ok _ (outcome_word h.there (htree a hmem) hi), outcome_pure]
  unfold designators
  rw [outcome_bind_ok _ (outcome_below h has), outcome_bind_ok _ (outcome_mapM hwords),
    outcome_pure]

theorem numbered :
    Numbered lib r
      ⟨assign [] ((as.filter (lib.made [.component])).map fun a => (a, wordOf lib a))⟩ := by
  have hwalk := h.left.descendants_eq_ok h.root has
  have hkeys : Table.keys ⟨assign [] ((as.filter (lib.made [.component])).map fun a =>
      (a, wordOf lib a))⟩ = as.filter (lib.made [.component]) := by
    rw [Table.keys, map_fst_assign, List.map_map]
    exact map_id _
  refine ⟨⟨as, has, hkeys⟩, fun a => ?_, ?_, (nodup_assign [] _).1, ?_⟩
  · rw [hkeys, mem_filter, hwalk.2.2.2]
  · rw [hkeys]
    exact hwalk.2.2.1.filter _
  · intro before a d after hentries
    obtain ⟨n, hsearch, hd⟩ := assign_turn (wordOf lib) hentries
    rw [append_nil] at hsearch
    exact ⟨n, hsearch, hsearch.isLeast, hd⟩

end Walk

/-- A file with children. Its walk does not end, since each child is read as the file again. -/
def Endless (lib : Library) (r : Address) : Prop :=
  r.IsFile ∧ ∃ i, lib.instances.get? r = some i ∧ i.children ≠ []

theorem exists_walk (h : Shares files searched r lib lib) (hends : ¬Endless lib r) :
    ∃ as, (descendants r).outcome lib = (.ok as, lib) := by
  have hself : r.Tree r := ⟨h.root, .refl r⟩
  have hthere := h.there
  rw [contains_eq_isSome] at hthere
  rcases h.root with hfile | hentry
  · obtain ⟨i, hi⟩ := Option.isSome_iff_exists.1 hthere
    have hchildren : i.children = [] := by
      by_contra hne
      exact hends ⟨hfile, i, hi, hne⟩
    rw [Shares.outcome_descendants hself h.there]
    exact ⟨[r], outcome_descendantsWithin_of_isFile hfile hi hchildren hself _⟩
  · obtain ⟨as, has, -⟩ := descendants_of_whole h.left.sound hentry h.there
      (h.left.whole h.root hthere)
    exact ⟨as, has⟩

theorem outcome_descendantsWithin_of_endless (hs : Sound files searched lib) (h : Endless lib r)
    (ha : r.Tree a) (depth : Nat) :
    (descendantsWithin depth a).outcome lib = (.error (.fault .endlessRecursion), lib) := by
  obtain ⟨hfile, i, hi, hne⟩ := h
  induction depth generalizing a with
  | zero => rfl
  | succ depth ih =>
    obtain ⟨n, ns, hns⟩ := exists_cons_of_ne_nil hne
    have hn : IsName n := (hs.instances r i hi).2.children n (by simp [hns])
    have hfirst := ih ⟨.inl hfile, (Address.Below.refl r).addInstance hn⟩
    rw [descendantsWithin, outcome_bind_ok _ (outcome_children_of_isFile hfile hi ha), hns,
      map_cons, descendantsOfAll]
    exact outcome_bind_error _ (outcome_bind_error _ hfirst)

theorem outcome_designators_of_endless (h : Shares files searched r lib lib)
    (hendless : Endless lib r) :
    (designators r).outcome lib = (.error (.fault .endlessRecursion), lib) := by
  have hself : r.Tree r := ⟨h.root, .refl r⟩
  have hwalk := outcome_descendantsWithin_of_endless h.left.sound hendless hself
    (lib.instances.size + 1)
  rw [← Shares.outcome_descendants hself h.there] at hwalk
  exact outcome_bind_error _ (outcome_bind_error _ hwalk)

/-- The designators are read off the tree of the root, so they are the same wherever it is. -/
theorem designators_of_shares (h : Shares files searched r s t)
    (hds : (designators r).outcome s = (.ok ds, lib')) :
    (designators r).outcome t = (.ok ds, t) := by
  have hs : Shares files searched r s s := .refl h.root h.left h.there
  obtain ⟨rfl, -, as, has, -⟩ := designators_eq_ok hs hds
  obtain ⟨_, t', has', ⟨-, ht'⟩, rfl, htree⟩ := h.inStep_descendants.exists_ok ⟨rfl, rfl⟩ has
  rw [ht'] at has'
  have hget : ∀ a ∈ as, t.instances.get? a = lib'.instances.get? a :=
    fun a ha => (h.agree a (htree a ha)).symm
  have hmade : as.filter (t.made [.component]) = as.filter (lib'.made [.component]) := by
    apply filter_congr
    intro a ha
    rw [made, made, hget a ha]
  rw [outcome_designators h.right_refl has', hmade]
  rw [outcome_designators hs has] at hds
  have hwords : ((as.filter (lib'.made [.component])).map fun a => (a, wordOf t a)) =
      (as.filter (lib'.made [.component])).map fun a => (a, wordOf lib' a) := by
    apply map_congr_left
    intro a ha
    rw [wordOf, wordOf, hget a (mem_filter.1 ha).1]
  rw [hwords]
  exact congrArg (·, t) (Prod.mk.inj hds).1

/-- The designators of the root of an address are found once its tree is there, and then again. -/
theorem designators_again (hlib : Reached files searched lib) (he : e.entry = e)
    (hds : (designators e).outcome lib = (.ok ds, lib')) :
    Shares files searched e lib' lib' ∧ (designators e).outcome lib' = (.ok ds, lib') := by
  obtain ⟨cs, lib₁, hcs, hrest⟩ := bind_eq_ok.1 hds
  obtain ⟨r, as, hroot, -, rfl, hshares, hagain, -⟩ := below_tree hlib hcs
  rw [← hroot.entry_eq, he] at hshares
  have hds' : (designators e).outcome lib₁ = (.ok ds, lib') := by
    rw [← hrest]
    exact outcome_bind_ok _ (outcome_below hshares hagain)
  obtain rfl := (designators_eq_ok hshares hds').1
  exact ⟨hshares, hds'⟩

theorem keeps_later_designators (r : Address) : Guards (Later lib) (designators r) := by
  have hbelow : Guards (Later lib) (below r) :=
    (keeps_descendants keeps_later_tree r).bind fun as _ => keeps_filterM fun a _ =>
      (keeps_instanceAt a).bind fun _ _ => .pure trivial
  have hword : ∀ a, Guards (Later lib) (word a) := fun a =>
    ((keeps_later_tree a.entry).bind fun _ _ => keeps_instanceAt a).bind fun _ _ => .pure trivial
  have hwords : ∀ cs : List Address, Keeps (Later lib) (List.Forall₂ (fun _ _ => True) cs)
      (cs.mapM fun a => do return (a, ← word a)) := fun cs =>
    Keeps.mapM fun a _ => (hword a).bind fun _ _ => .pure trivial
  exact hbelow.bind fun cs _ => (hwords cs).bind fun _ _ => .pure trivial

end Component

namespace Session

open Relation

variable {files : Files} {searched : List Route} {s s' : Session} {a r : Address}
  {ds : Table Address String} {d : String}

/-! ### The register -/

/-- What may happen in a session: the designator of a component is asked for, or there is work of
another sort, on the design or on what is shown, that leaves the register alone. -/
inductive Step (s : Session) : Session → Prop
  | asked (a : Address) : Step s ((designator a).outcome s).2
  | worked {s' : Session} (later : s.library.Later s'.library)
    (register : s'.register = s.register) : Step s s'

/-- A session with a register that holds nothing or what would be found for a root if it were asked
for now. -/
structure Serves (files : Files) (searched : List Route) (s : Session) : Prop where
  reached : Reached files searched s.library
  register : s.register = ⟨[]⟩ ∨ ∃ e, Shares files searched e s.library s.library ∧
    (Component.designators e).outcome s.library = (.ok s.register, s.library)

theorem outcome_designator_of_get? (h : s.register.get? a = some d) :
    (designator a).outcome s = (.ok d, s) := by
  have hcontains : s.register.contains a = true := by
    rw [contains_eq_isSome, h]
    rfl
  have hroot : (registerRoot a).outcome s = (.ok (), s) := by
    unfold registerRoot
    rw [outcome_get_bind, hcontains]
    rfl
  unfold designator
  rw [outcome_bind_ok _ hroot, outcome_get_bind, h]
  rfl

theorem outcome_registerRoot (h : s.register.get? a = none) :
    (registerRoot a).outcome s =
      match (Component.designators a.entry).outcome s.library with
      | (.ok ds, lib) => (.ok (), { s with library := lib, register := ds })
      | (.error e, lib) => (.error e, { s with library := lib }) := by
  have hcontains : s.register.contains a = false := by
    rw [contains_eq_isSome, h]
    rfl
  unfold registerRoot
  rw [outcome_get_bind, hcontains]
  show ((design (Component.designators a.entry)) >>= _).outcome s = _
  rw [outcome_bind, outcome_design]
  rcases (Component.designators a.entry).outcome s.library with ⟨e | ds, lib⟩ <;> rfl

theorem outcome_designator_of_ok (h : s.register.get? a = none)
    (hds : (Component.designators a.entry).outcome s.library = (.ok ds, lib)) :
    ((designator a).outcome s).2 = { s with library := lib, register := ds } ∧
      ∀ d, ds.get? a = some d → ((designator a).outcome s).1 = .ok d := by
  have hroot := outcome_registerRoot h
  rw [hds] at hroot
  unfold designator
  rw [outcome_bind_ok _ hroot, outcome_get_bind]
  cases hget : ds.get? a with
  | none => exact ⟨rfl, nofun⟩
  | some d => exact ⟨rfl, fun d' hd' => congrArg Except.ok (Option.some.inj hd')⟩

theorem outcome_designator_of_error {e : Failure} (h : s.register.get? a = none)
    (hds : (Component.designators a.entry).outcome s.library = (.error e, lib)) :
    (designator a).outcome s = (.error e, { s with library := lib }) := by
  have hroot := outcome_registerRoot h
  rw [hds] at hroot
  exact outcome_bind_error _ hroot

theorem later_designator (s : Session) (a : Address) :
    s.library.Later ((designator a).outcome s).2.library := by
  have hlater := (keeps_later_designators a.entry s.library .refl).1
  cases hget : s.register.get? a with
  | some d =>
    rw [outcome_designator_of_get? hget]
    exact .refl
  | none =>
    rcases hds : (Component.designators a.entry).outcome s.library with ⟨e | ds, lib⟩
    · rw [outcome_designator_of_error hget hds]
      rwa [hds] at hlater
    · rw [(outcome_designator_of_ok hget hds).1]
      rwa [hds] at hlater

theorem Step.later (h : Step s s') : s.library.Later s'.library := by
  cases h with
  | asked a => exact later_designator s a
  | worked hlater _ => exact hlater

theorem later_of_steps (h : ReflTransGen Step s s') : s.library.Later s'.library := by
  induction h with
  | refl => exact .refl
  | tail _ hstep ih => exact ih.trans hstep.later

/-- Work that leaves the register alone leaves the designators in it right. -/
theorem Serves.worked (h : Serves files searched s) (hlater : s.library.Later s'.library)
    (hregister : s'.register = s.register) : Serves files searched s' where
  reached := hlater.reached h.reached
  register := by
    rw [hregister]
    refine h.register.imp_right ?_
    rintro ⟨e, hshares, hds⟩
    have hshares' := hlater.shares hshares.root h.reached hshares.there
    exact ⟨e, hshares'.right_refl, designators_of_shares hshares' hds⟩

theorem Serves.asked (h : Serves files searched s) (a : Address) :
    Serves files searched ((designator a).outcome s).2 := by
  have hlater := later_designator s a
  cases hget : s.register.get? a with
  | some d =>
    rw [outcome_designator_of_get? hget]
    exact h
  | none =>
    rcases hds : (Component.designators a.entry).outcome s.library with ⟨e | ds, lib⟩
    · rw [outcome_designator_of_error hget hds] at hlater ⊢
      exact h.worked hlater rfl
    · obtain ⟨hstate, -⟩ := outcome_designator_of_ok hget hds
      rw [hstate] at hlater ⊢
      obtain ⟨hshares, hagain⟩ := designators_again h.reached a.entry_entry hds
      exact ⟨hlater.reached h.reached, .inr ⟨a.entry, hshares, hagain⟩⟩

theorem Serves.step (h : Serves files searched s) (hstep : Step s s') :
    Serves files searched s' := by
  cases hstep with
  | asked a => exact h.asked a
  | worked hlater hregister => exact h.worked hlater hregister

theorem serves_fresh : Serves files searched { library := { files, searched } } :=
  ⟨.fresh, .inl rfl⟩

theorem Serves.steps (h : Serves files searched s) (hsteps : ReflTransGen Step s s') :
    Serves files searched s' := by
  induction hsteps with
  | refl => exact h
  | tail _ hstep ih => exact ih.step hstep

/-- A component is told the designator that it has among those of its root. -/
theorem Serves.designator (h : Serves files searched s)
    (hshares : Shares files searched r s.library s.library)
    (hds : (Component.designators r).outcome s.library = (.ok ds, s.library))
    (hd : ds.get? a = some d) : ∃ s', (designator a).outcome s = (.ok d, s') := by
  have htree : ∀ {e : Address} {ds : Table Address String} {d : String},
      Shares files searched e s.library s.library →
      (Component.designators e).outcome s.library = (.ok ds, s.library) → ds.get? a = some d →
      a.entry = e := by
    intro e ds d he hds hd
    obtain ⟨-, -, as, has, hkeys⟩ := designators_eq_ok he hds
    have hmem := mem_keys_of_get? hd
    rw [hkeys] at hmem
    have hself : e.Tree e := ⟨he.root, .refl e⟩
    exact ((he.left.descendants_tree hself has).2.2 a (mem_filter.1 hmem).1).entry_eq
  have hentry := htree hshares hds hd
  cases hget : s.register.get? a with
  | some d' =>
    -- the register is that of the same root
    refine ⟨s, ?_⟩
    rcases h.register with hempty | ⟨e, he, hregister⟩
    · rw [hempty] at hget
      cases hget
    · have hsame : e = r := (htree he hregister hget).symm.trans hentry
      subst hsame
      cases Except.ok.inj (Prod.mk.inj (hds.symm.trans hregister)).1
      exact outcome_designator_of_get? hd
  | none =>
    rw [← hentry] at hds
    obtain ⟨hstate, hresult⟩ := outcome_designator_of_ok hget hds
    exact ⟨_, Prod.ext (hresult d hd) rfl⟩

theorem register_of_designator (h : (designator a).outcome s = (.ok d, s')) :
    s'.register.get? a = some d := by
  obtain ⟨_, s₁, -, hlook⟩ := bind_eq_ok.1 h
  rw [outcome_get_bind] at hlook
  cases hget : s₁.register.get? a with
  | none =>
    rw [hget] at hlook
    cases hlook
  | some d' =>
    rw [hget] at hlook
    cases hlook
    exact hget

/-- What a component has been told it is told again, whatever happens in the meantime. -/
theorem Serves.stable (h : Serves files searched s) (ha : s.register.get? a = some d)
    (hsteps : ReflTransGen Step s s') :
    ∃ s'', (Session.designator a).outcome s' = (.ok d, s'') := by
  rcases h.register with hempty | ⟨e, he, hds⟩
  · rw [hempty] at ha
    cases ha
  · have hshares := (later_of_steps hsteps).shares he.root h.reached he.there
    exact (h.steps hsteps).designator hshares.right_refl
      (designators_of_shares hshares hds) ha

/-- The search for a free number always ends. Each root that has been built has its components, and
nothing else, numbered in the order of the walk, unless it is a file with children, whose walk does
not end. A component that is asked for is told the designator that it has there, and from then on
it is always told the same. -/
theorem designator_numbered_stable (hs : ReflTransGen Step { library := { files, searched } } s) :
    (∀ word used, ∃ n, Designator.Search word used 1 n) ∧
    (∀ r : Address, r.entry = r → s.library.instances.contains r →
      (Component.Endless s.library r → (Component.designators r).outcome s.library =
        (.error (.fault .endlessRecursion), s.library)) ∧
      (¬Component.Endless s.library r → ∃ ds,
        (Component.designators r).outcome s.library = (.ok ds, s.library) ∧
        Component.Numbered s.library r ds ∧
        ∀ a d, ds.get? a = some d → ∃ s', (designator a).outcome s = (.ok d, s'))) ∧
    ∀ a d s₁, (designator a).outcome s = (.ok d, s₁) → ∀ s', ReflTransGen Step s₁ s' →
      ∃ s'', (designator a).outcome s' = (.ok d, s'') := by
  have hserves : Serves files searched s := serves_fresh.steps hs
  refine ⟨fun word used => ?_, fun r hentry hbuilt => ?_, fun a d s₁ ha s' hsteps => ?_⟩
  · obtain ⟨n, hsearch, -⟩ := Designator.search_free word used
    exact ⟨n, hsearch⟩
  · have hshares := Shares.of_entry hserves.reached hentry hbuilt
    refine ⟨Component.outcome_designators_of_endless hshares, fun hends => ?_⟩
    obtain ⟨as, has⟩ := Component.exists_walk hshares hends
    have hds := Component.outcome_designators hshares has
    exact ⟨_, hds, Component.numbered hshares has, fun a d hd =>
      hserves.designator hshares hds hd⟩
  · have hasked := hserves.asked a
    rw [ha] at hasked
    exact hasked.stable (register_of_designator ha) hsteps

/-- The library after the tree of a root of a file has been built. -/
def built (text : String) (r : Address) : Library :=
  ((tree r).outcome { files.texts := ⟨[(["f"], text)]⟩ }).2

theorem reached_built (text : String) (r : Address) :
    Reached { texts := ⟨[(["f"], text)]⟩ } [] (built text r) :=
  .tree .fresh _ _ r

theorem steps_built (text : String) (r : Address) :
    ReflTransGen Step { library := { files := { texts := ⟨[(["f"], text)]⟩ }, searched := [] } }
      { library := built text r } :=
  .single (.worked (.tree .refl _ _ r) rfl)

def twoResistors : String :=
  "component C:\n designator_prefix=\"R\"\nmodule M:\n a=new C\n b=new C\n"

theorem designator_numbered_stable_twoResistors :
    ∃ ds, (Component.designators ⟨"f:M"⟩).outcome (built twoResistors ⟨"f:M"⟩) =
        (.ok ds, built twoResistors ⟨"f:M"⟩) ∧
      ds.entries = [(⟨"f:M::a"⟩, "R1"), (⟨"f:M::b"⟩, "R2")] ∧
      Component.Numbered (built twoResistors ⟨"f:M"⟩) ⟨"f:M"⟩ ds := by
  have hbuilt : (built twoResistors ⟨"f:M"⟩).instances.contains ⟨"f:M"⟩ := by decide +kernel
  have hends : ¬Component.Endless (built twoResistors ⟨"f:M"⟩) ⟨"f:M"⟩ := fun h => h.1 (by decide)
  have hentries : ((Component.designators ⟨"f:M"⟩).outcome
      (built twoResistors ⟨"f:M"⟩)).1.toOption.map Table.entries =
        some [(⟨"f:M::a"⟩, "R1"), (⟨"f:M::b"⟩, "R2")] := by decide +kernel
  obtain ⟨-, hroots, -⟩ := designator_numbered_stable (steps_built twoResistors ⟨"f:M"⟩)
  dsimp only at hroots
  obtain ⟨ds, hds, hnumbered, -⟩ := (hroots ⟨"f:M"⟩ (by decide +kernel) hbuilt).2 hends
  rw [hds] at hentries
  exact ⟨ds, hds, Option.some.inj hentries, hnumbered⟩

/-- A component that stands directly in a file. -/
def loose : String := "c = new COMPONENT\n"

theorem designators_loose :
    (built loose ⟨"f"⟩).instances.contains ⟨"f"⟩ ∧ (built loose ⟨"f"⟩).Within ⟨"f"⟩ ⟨"f::c"⟩ ∧
    (built loose ⟨"f"⟩).made [.component] ⟨"f::c"⟩ ∧
    (Component.designators ⟨"f"⟩).outcome (built loose ⟨"f"⟩) =
      (.error (.fault .endlessRecursion), built loose ⟨"f"⟩) := by
  have hbuilt : (built loose ⟨"f"⟩).instances.contains ⟨"f"⟩ := by decide +kernel
  have hchildren : ((built loose ⟨"f"⟩).instances.get? ⟨"f"⟩).map (·.children) = some ["c"] := by
    decide +kernel
  obtain ⟨i, hi, hc⟩ := Option.map_eq_some_iff.1 hchildren
  have hchild : (built loose ⟨"f"⟩).IsChild ⟨"f"⟩ ⟨"f::c"⟩ := ⟨i, hi, "c", by simp [hc], by decide⟩
  have hendless : Component.Endless (built loose ⟨"f"⟩) ⟨"f"⟩ :=
    ⟨by simp [Address.IsFile], i, hi, by simp [hc]⟩
  have hshares := Shares.of_entry (reached_built loose ⟨"f"⟩) (by decide +kernel) hbuilt
  exact ⟨hbuilt, .single hchild, by decide +kernel,
    Component.outcome_designators_of_endless hshares hendless⟩

end Session

namespace Component

open Session

variable {files : Files} {searched : List Route} {lib lib' : Library} {r : Address}

/-! ### The walk through what is built -/

theorem entry_eq_of_built (hlib : Reached files searched lib) {extension nesting : Nat}
    (hbuilt : (treeWithin extension nesting r).outcome lib = (.ok (), lib'))
    (hnew : ¬lib.instances.contains r) : r.entry = r := by
  obtain ⟨hc, -⟩ | ⟨-, l, lib₁, hl, -⟩ := treeWithin_eq_ok hbuilt
  · exact absurd hc hnew
  · have hlayer := (Settled.keeps_layerWithin files searched extension r).result
      hlib.sound.settled hl
    exact Address.Tree.entry_eq ⟨hlayer.isRoot, .refl r⟩

/-- A root that can be built can be walked, unless it is a file with children: all instances of its
tree are met, each once. The walk through a file with children goes deeper than any bound. -/
theorem walk_of_built (hlib : Reached files searched lib) {extension nesting : Nat}
    (hbuilt : (treeWithin extension nesting r).outcome lib = (.ok (), lib'))
    (hroot : lib.instances.contains r → r.entry = r) :
    (¬Endless lib' r → ∃ as, (descendants r).outcome lib' = (.ok as, lib') ∧ as.Nodup ∧
      ∀ b, b ∈ as ↔ lib'.Within r b) ∧
    (Endless lib' r → ∀ depth, (descendantsWithin depth r).outcome lib' =
      (.error (.fault .endlessRecursion), lib')) := by
  have hentry : r.entry = r := by
    by_cases hc : lib.instances.contains r
    · exact hroot hc
    · exact entry_eq_of_built hlib hbuilt hc
  have hlib' := hlib.tree extension nesting r
  have hthere := contains_of_treeWithin hlib.sound.settled hbuilt
  rw [hbuilt] at hlib'
  rw [← Table.contains_eq_isSome] at hthere
  have hshares := Shares.of_entry hlib' hentry hthere
  refine ⟨fun hends => ?_, fun hendless => ?_⟩
  · obtain ⟨as, has⟩ := exists_walk hshares hends
    exact ⟨as, has, (hlib'.descendants_eq_ok hshares.root has).2.2⟩
  · exact outcome_descendantsWithin_of_endless hlib'.sound hendless ⟨hshares.root, .refl r⟩

theorem walk_of_built_twoResistors : ∃ as,
    (descendants ⟨"f:M"⟩).outcome (built twoResistors ⟨"f:M"⟩) =
      (.ok as, built twoResistors ⟨"f:M"⟩) ∧ as.Nodup ∧
    ∀ b, b ∈ as ↔ (built twoResistors ⟨"f:M"⟩).Within ⟨"f:M"⟩ b := by
  have hbuilt := outcome_eq_ok_of_toOption (w := tree ⟨"f:M"⟩)
    (s := { files.texts := ⟨[(["f"], twoResistors)]⟩ }) (x := ()) (by decide +kernel)
  refine (walk_of_built .fresh hbuilt fun h => ?_).1 fun h => h.1 (by decide)
  cases h

/-- A file with a component is built, and the walk through it does not end. -/
theorem descendantsWithin_loose :
    (tree ⟨"f"⟩).outcome { files.texts := ⟨[(["f"], loose)]⟩ } = (.ok (), built loose ⟨"f"⟩) ∧
    (built loose ⟨"f"⟩).Within ⟨"f"⟩ ⟨"f::c"⟩ ∧
    ∀ depth, (descendantsWithin depth ⟨"f"⟩).outcome (built loose ⟨"f"⟩) =
      (.error (.fault .endlessRecursion), built loose ⟨"f"⟩) := by
  have hfile : Address.IsFile ⟨"f"⟩ := by simp [Address.IsFile]
  have hchildren : ((built loose ⟨"f"⟩).instances.get? ⟨"f"⟩).map (·.children) = some ["c"] := by
    decide +kernel
  obtain ⟨i, hi, hc⟩ := Option.map_eq_some_iff.1 hchildren
  exact ⟨outcome_eq_ok_of_toOption (by decide +kernel),
    .single ⟨i, hi, "c", by simp [hc], by decide⟩,
    outcome_descendantsWithin_of_endless (reached_built loose ⟨"f"⟩).sound
      ⟨hfile, i, hi, by simp [hc]⟩ ⟨.inl hfile, .refl _⟩⟩

end Component

end Boardwright
