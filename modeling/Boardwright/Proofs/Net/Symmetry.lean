import Boardwright.Proofs.Design.Turned
import Boardwright.Proofs.Net.Acceptance

/-!
# Connections have no direction

If the sides of connections are swapped, trees are made of instances that are `Turned`, and each
link of the one tree is a link of the other one, perhaps with its ends swapped. A link of two pins
or signals, and one that is not between two pins or signals or two interfaces, is accepted as well
or as badly with its ends swapped. For two interfaces this is so if the first one fits the second
one as the second one fits the first one. If not, only one direction is accepted. Links that are
accepted tie the same things together in both directions, so the nets are the same.
-/

namespace Boardwright

open Relation List Instance

variable {k k' : Link} {nets : List (List Address)} {i : Instance}

theorem Link.Turned.symm (h : k.Turned k') : k'.Turned k := by
  rcases h with h | h
  · exact .inl h.symm
  · exact .inr (by rw [h, Prod.swap_swap])

theorem Link.Turned.of_symm {R : Address → Address → Prop} (h : k.Turned k')
    (hk : R k.source k.target) (hsymm : R k.source k.target → R k.target k.source) :
    R k'.source k'.target := by
  rcases h with h | h
  · obtain ⟨hsource, htarget⟩ := Prod.mk.inj h
    rwa [← hsource, ← htarget]
  · obtain ⟨hsource, htarget⟩ : k.source = k'.target ∧ k.target = k'.source := Prod.mk.inj h
    rw [← hsource, ← htarget]
    exact hsymm hk

theorem Instance.Turned.symm {j : Instance} (h : i.Turned j) : j.Turned i where
  terminal := h.terminal.symm
  interface := h.interface.symm
  apart hj := by
    rw [← h.interface]
    exact h.apart (h.terminal.trans hj)
  children := h.children.symm
  links := h.links.flip.imp fun _ _ => Link.Turned.symm

namespace Net

open Library Work

variable {files files' : Files} {searched : List Route} {lib lib' s s' t : Library}
  {a b e r root x y source target : Address} {rings rings' : Rings} {q : List String}
  {roots : List Address}

/-! ### Links with their ends swapped -/

/-- An interface that is reached below a root, and whose children have counterparts at another
one. -/
def Fits (lib : Library) (root x y : Address) : Prop :=
  lib.Within root x ∧ ∀ i, lib.instances.get? x = some i → ∀ n ∈ i.children,
    lib.Within root (y.addInstance n)

/-- Of the interfaces that are linked below a root, the first one fits the second one if and only if
the second one fits the first one. -/
def Even (lib : Library) (root : Address) : Prop :=
  ∀ a, lib.Within root a → ∀ i, lib.instances.get? a = some i → ∀ k ∈ i.links,
    IsInterface lib k.source → IsInterface lib k.target →
      (Fits lib root k.source k.target ↔ Fits lib root k.target k.source)

section

variable (hlib : Standing files searched lib e) (hroot : lib.Within e root)

include hlib

theorem Accepts.fits (h : Accepts lib root (TerminalWithin lib root) x y) :
    (IsInterface lib x ↔ IsInterface lib y) ∧ (IsInterface lib x → Fits lib root x y) := by
  rcases h with ⟨hx, hy⟩ | ⟨hx, hy, hwithin, hchildren⟩
  · exact ⟨iff_of_false (hlib.apart x hx.2) (hlib.apart y hy.2),
      fun h => absurd h (hlib.apart x hx.2)⟩
  · exact ⟨iff_of_true hx hy, fun _ => ⟨hwithin, fun i hi n hn => (hchildren i hi n hn).2.1⟩⟩

include hroot

theorem Accepts.symm (h : Accepts lib root (TerminalWithin lib root) x y)
    (hfits : IsInterface lib x → IsInterface lib y → Fits lib root x y → Fits lib root y x) :
    Accepts lib root (TerminalWithin lib root) y x := by
  have hxy := (h.fits hlib).2
  rcases h with ⟨hx, hy⟩ | ⟨hx, hy, hwithin, hchildren⟩
  · exact .inl ⟨hy, hx⟩
  · obtain ⟨hwithin', hcounterparts⟩ := hfits hx hy (hxy hx)
    refine .inr ⟨hy, hx, hwithin', fun j hj n hn => ?_⟩
    have hname := (hlib.sound.instances _ j hj).2.children n hn
    -- the counterpart of a child is reached, so it is a child itself
    obtain ⟨i, hi, hn'⟩ := hlib.whole.exists_child (Within.below hlib.sound (hroot.trans hwithin))
      hname (hroot.trans (hcounterparts j hj n hn))
    exact (hchildren i hi n hn').symm

/-- A link that is accepted ties the same things together if its ends are swapped. -/
theorem Ties.symm (haccepts : Accepts lib root (TerminalWithin lib root) source target)
    (htarget : e.Below target) (h : Ties lib source target x y) : Ties lib target source y x := by
  cases h with
  | ends hsource =>
    rcases haccepts with ⟨-, hterminal⟩ | ⟨hinterface, -⟩
    · exact .ends (hlib.apart _ hterminal.2)
    · exact absurd hinterface hsource
  | @children i n hsource hinterface hi hn =>
    rcases haccepts with ⟨hterminal, -⟩ | ⟨-, -, -, hchildren⟩
    · exact absurd hsource (hlib.apart _ hterminal.2)
    · have hname := (hlib.sound.instances _ i hi).2.children n hn
      obtain ⟨j, hj, hn'⟩ := hlib.whole.exists_child htarget hname
        (hroot.trans (hchildren i hi n hn).2.1)
      exact .children hinterface hsource hj hn'

end

/-! ### Trees with links the other way round -/

section

variable (hst : s.instances.Matches (fun _ => Turned) t.instances)

include hst

theorem matches_turned_symm : t.instances.Matches (fun _ => Turned) s.instances :=
  hst.symm fun _ _ _ => Turned.symm

theorem isTerminal_of_turned (h : IsTerminal s x) : IsTerminal t x := by
  obtain ⟨i, hi, hterminal⟩ := h
  obtain ⟨j, hj, hij⟩ := hst.exists_get? hi
  exact ⟨j, hj, hij.terminal ▸ hterminal⟩

theorem isInterface_of_turned (h : IsInterface s x) : IsInterface t x := by
  obtain ⟨i, hi, hinterface⟩ := h
  obtain ⟨j, hj, hij⟩ := hst.exists_get? hi
  exact ⟨j, hj, hij.interface ▸ hinterface⟩

theorem isInterface_turned : IsInterface s x ↔ IsInterface t x :=
  ⟨isInterface_of_turned hst, isInterface_of_turned (matches_turned_symm hst)⟩

theorem within_of_turned (h : s.Within a b) : t.Within a b := by
  refine ReflTransGen.mono ?_ a b h
  rintro a b ⟨i, hi, n, hn, rfl⟩
  obtain ⟨j, hj, hij⟩ := hst.exists_get? hi
  exact ⟨j, hj, n, hij.children.mem_iff.1 hn, rfl⟩

theorem terminalWithin_of_turned (h : TerminalWithin s root x) : TerminalWithin t root x :=
  ⟨within_of_turned hst h.1, isTerminal_of_turned hst h.2⟩

theorem Fits.turned (h : Fits s root x y) : Fits t root x y := by
  refine ⟨within_of_turned hst h.1, fun j hj n hn => ?_⟩
  obtain ⟨i, hi, hij⟩ := hst.exists_get?' hj
  exact within_of_turned hst (h.2 i hi n (hij.children.mem_iff.2 hn))

theorem Accepts.turned (h : Accepts s root (TerminalWithin s root) x y) :
    Accepts t root (TerminalWithin t root) x y := by
  rcases h with ⟨hx, hy⟩ | ⟨hx, hy, hwithin, hchildren⟩
  · exact .inl ⟨terminalWithin_of_turned hst hx, terminalWithin_of_turned hst hy⟩
  · refine .inr ⟨isInterface_of_turned hst hx, isInterface_of_turned hst hy,
      within_of_turned hst hwithin, fun j hj n hn => ?_⟩
    obtain ⟨i, hi, hij⟩ := hst.exists_get?' hj
    obtain ⟨hxn, hyn⟩ := hchildren i hi n (hij.children.mem_iff.2 hn)
    exact ⟨terminalWithin_of_turned hst hxn, terminalWithin_of_turned hst hyn⟩

theorem Ties.turned (h : Ties s source target x y) : Ties t source target x y := by
  cases h with
  | ends hsource => exact .ends (mt (isInterface_turned hst).2 hsource)
  | @children i n hsource htarget hi hn =>
    obtain ⟨j, hj, hij⟩ := hst.exists_get? hi
    exact .children (isInterface_of_turned hst hsource) (isInterface_of_turned hst htarget) hj
      (hij.children.mem_iff.1 hn)

theorem apart_of_turned (x : Address) (h : IsTerminal s x) : ¬IsInterface s x := by
  obtain ⟨i, hi, hterminal⟩ := h
  rintro ⟨j, hj, hinterface⟩
  cases Option.some.inj (hi.symm.trans hj)
  obtain ⟨k, -, hik⟩ := hst.exists_get? hi
  rw [hik.apart hterminal] at hinterface
  cases hinterface

theorem exists_link_turned (ha : s.Within root a) (hi : s.instances.get? a = some i)
    (hk : k ∈ i.links) : ∃ j k', t.Within root a ∧ t.instances.get? a = some j ∧
      k' ∈ j.links ∧ k.Turned k' := by
  obtain ⟨j, hj, hij⟩ := hst.exists_get? hi
  obtain ⟨k', hk', hkk'⟩ := exists_right_of_forall₂ hij.links hk
  exact ⟨j, k', within_of_turned hst ha, hj, hk', hkk'⟩

theorem Even.turned (h : Even s root) : Even t root := by
  intro a ha j hj k' hk'
  have hts := matches_turned_symm hst
  obtain ⟨i, k, ha', hi, hk, hkk'⟩ := exists_link_turned hts ha hj hk'
  have hfits : ∀ {x y}, Fits t root x y ↔ Fits s root x y := ⟨Fits.turned hts, Fits.turned hst⟩
  rw [hfits, hfits, ← isInterface_turned hst, ← isInterface_turned hst]
  refine hkk'.symm.of_symm (R := fun x y => IsInterface s x → IsInterface s y →
    (Fits s root x y ↔ Fits s root y x)) (h a ha' i hi k hk) fun h hy hx => (h hx hy).symm

end

/-! ### The nets below a block -/

section

variable (hs : Standing files searched s e) (ht : Standing files' searched t e)
  (hst : s.instances.Matches (fun _ => Turned) t.instances) (hq : AreNames q)
  (hroot : root = e.addInstances q) (h : Answers s (below root))

include hs hst hq hroot h

include ht in
theorem answers_below_turned (heven : Even s root) : Answers t (below root) := by
  obtain ⟨hwithin, hlinks⟩ := (answers_below hs hq hroot).1 h
  refine (answers_below ht hq hroot).2 ⟨within_of_turned hst hwithin, fun a ha j hj k' hk' => ?_⟩
  obtain ⟨i, k, ha', hi, hk, hkk'⟩ := exists_link_turned (matches_turned_symm hst) ha hj hk'
  have haccepts := hlinks a ha' i hi k hk
  refine Accepts.turned hst (hkk'.symm.of_symm haccepts fun _ => ?_)
  exact haccepts.symm hs hwithin fun hx hy => (heven a ha' i hi k hk hx hy).1

theorem eqvGen_wired_turned (hxy : EqvGen (Wired s root) x y) : EqvGen (Wired t root) x y := by
  obtain ⟨hwithin, hlinks⟩ := (answers_below hs hq hroot).1 h
  induction hxy with
  | refl x => exact .refl x
  | symm x y _ ih => exact ih.symm
  | trans x y z _ _ ihxy ihyz => exact ihxy.trans _ _ _ ihyz
  | rel x y hxy =>
    obtain ⟨a, ha, i, hi, k, hk, hties⟩ := hxy
    obtain ⟨j, k', ha', hj, hk', hkk'⟩ := exists_link_turned hst ha hi hk
    have htarget : e.Below k.target := by
      obtain ⟨-, y, -, hy, -, htarget⟩ := (hs.sound.instances a i hi).2.links k hk
      rw [htarget]
      exact (Within.below hs.sound (hwithin.trans ha)).addInstances hy
    have hties' : Ties s k'.source k'.target x y ∨ Ties s k'.source k'.target y x :=
      hkk'.of_symm (R := fun u v => Ties s u v x y ∨ Ties s u v y x) (.inl hties) fun _ =>
        .inr (hties.symm hs hwithin (hlinks a ha i hi k hk) htarget)
    rcases hties' with hties' | hties'
    · exact .rel x y ⟨a, ha', j, hj, k', hk', hties'.turned hst⟩
    · exact .symm y x (.rel y x ⟨a, ha', j, hj, k', hk', hties'.turned hst⟩)

end

theorem exists_net_iff (hlib : Reached files searched lib)
    (hroot : root.entrySection.any (· ≠ "") = true)
    (h : (below root).outcome lib = (.ok nets, lib')) :
    (∃ net ∈ nets, x ∈ net ∧ y ∈ net) ↔ TerminalWithin lib' root x ∧ TerminalWithin lib' root y ∧
      EqvGen (Wired lib' root) x y := by
  obtain ⟨rings, history, rfl, htells, hthings, hwired⟩ := exists_history_of_below hlib hroot h
  rw [TerminalWithin, TerminalWithin, ← hthings, ← hthings, ← hwired]
  constructor
  · rintro ⟨net, hnet, hx, hy⟩
    have hmem : ∀ z ∈ net, z ∈ history.things := fun z hz =>
      htells.groups_perm.mem_iff.1 (mem_flatten.2 ⟨net, hnet, hz⟩)
    refine ⟨hmem x hx, hmem y hy, ?_⟩
    exact (htells.exists_group_iff_joined (hmem x hx) (hmem y hy)).1 ⟨net, hnet, hx, hy⟩
  · rintro ⟨hx, hy, hxy⟩
    exact (htells.exists_group_iff_joined hx hy).2 hxy

/-! ### The nets below a file -/

/-- The only instance that is gone through is the root, and a link of it is accepted as well or as
badly with its ends swapped. -/
theorem answers_below_turned_of_isFile (hs : Shares files searched r s s)
    (ht : Shares files' searched r t t) (hr : r.IsFile) (ha : r.Tree root)
    (hst : s.instances.Matches (fun _ => Turned) t.instances)
    (h : Answers s (below root)) : Answers t (below root) := by
  have hts := matches_turned_symm hst
  have hthere := hs.there
  rw [Table.contains_eq_isSome] at hthere
  obtain ⟨i, hi⟩ := Option.isSome_iff_exists.1 hthere
  obtain ⟨j, hj, hij⟩ := hst.exists_get? hi
  have hwalk : (descendants root).outcome s = (.ok [root], s) ∧ i.children = [] := by
    obtain ⟨nets, h⟩ := h
    obtain ⟨as, s₁, has, -⟩ := bind_eq_ok.1 h
    rw [Shares.outcome_descendants ha hs.there] at has ⊢
    obtain ⟨rfl, hchildren, rfl⟩ := descendantsWithin_of_isFile hs.left.sound hr hi ha has
    exact ⟨has, hchildren⟩
  have hchildren' : j.children = [] := nil_perm.1 (hwalk.2 ▸ hij.children)
  have hwalk' := outcome_descendantsWithin_of_isFile hr hj hchildren' ha t.instances.size
  rw [← Shares.outcome_descendants ha ht.there] at hwalk'
  rw [answers_below_iff hwalk.1] at h
  obtain ⟨m, hm, -⟩ := answers_isAny_bind.1 h
  obtain ⟨m', hm', -⟩ := hst.exists_get? hm
  rw [answers_ringsOf hs (judges_of_isFile hr hi hwalk.2 (apart_of_turned hst)) (fun _ => False.elim)
    holds_fresh (forall_mem_singleton.2 ⟨ha, m, hm⟩) (fun _ _ => id)
    (pairwise_singleton _ _)] at h
  rw [answers_below_iff hwalk', answers_ringsOf ht (judges_of_isFile hr hj hchildren'
    (apart_of_turned hts)) (fun _ => False.elim) holds_fresh (forall_mem_singleton.2 ⟨ha, m', hm'⟩)
    (fun _ _ => id) (pairwise_singleton _ _)]
  intro a ha j hj k' hk'
  obtain ⟨i, k, -, hi, hk, hkk'⟩ := exists_link_turned hts .refl hj hk'
  have hturned : ∀ x, (False ∨ x ∈ [root] ∧ IsTerminal s x) → False ∨ x ∈ [root] ∧ IsTerminal t x :=
    fun x => Or.imp_right (And.imp_right (isTerminal_of_turned hst))
  have hlink := hkk'.symm.of_symm (R := fun x y => (False ∨ x ∈ [root] ∧ IsTerminal s x) ∧
    (False ∨ y ∈ [root] ∧ IsTerminal s y) ∨ IsInterface s x ∧ IsInterface s y) (h a ha i hi k hk)
    fun h => h.imp And.symm And.symm
  exact hlink.imp (And.imp (hturned _) (hturned _))
    (And.imp (isInterface_of_turned hst) (isInterface_of_turned hst))

theorem exists_net_iff_of_isFile (hlib : Reached files searched lib) (hr : r.IsFile)
    (ha : r.Tree root) (h : (below root).outcome lib = (.ok nets, lib')) :
    (∃ net ∈ nets, x ∈ net ∧ y ∈ net) ↔ x = root ∧ y = root ∧ IsTerminal lib' root := by
  obtain ⟨as, has, -, -, hmem⟩ := below_eq_ok hlib ha h
  obtain rfl := hlib.descendants_of_isFile hr ha has
  simp only [mem_singleton] at hmem
  constructor
  · rintro ⟨net, hnet, hx, hy⟩
    obtain ⟨rfl, hterminal⟩ := (hmem x).1 (mem_flatten_of_mem hnet hx)
    exact ⟨rfl, ((hmem y).1 (mem_flatten_of_mem hnet hy)).1, hterminal⟩
  · rintro ⟨rfl, rfl, hterminal⟩
    obtain ⟨net, hnet, hx⟩ := mem_flatten.1 ((hmem _).2 ⟨rfl, hterminal⟩)
    exact ⟨net, hnet, hx, hx⟩

/-! ### Links that no direction makes right -/

/-- A link of an interface and something else, or of two interfaces neither of which fits the other
one. -/
def Clash (lib : Library) (root x y : Address) : Prop :=
  ¬(IsInterface lib x ↔ IsInterface lib y) ∨
    IsInterface lib x ∧ IsInterface lib y ∧ ¬Fits lib root x y ∧ ¬Fits lib root y x

theorem Clash.symm (h : Clash lib root x y) : Clash lib root y x := by
  rcases h with h | ⟨hx, hy, hxy, hyx⟩
  · exact .inl fun hyx => h hyx.symm
  · exact .inr ⟨hy, hx, hyx, hxy⟩

theorem Clash.turned (hst : s.instances.Matches (fun _ => Turned) t.instances)
    (h : Clash s root x y) : Clash t root x y := by
  have hts := matches_turned_symm hst
  rcases h with h | ⟨hx, hy, hxy, hyx⟩
  · refine .inl fun hxy => h ?_
    rwa [isInterface_turned hst, isInterface_turned hst]
  · exact .inr ⟨isInterface_of_turned hst hx, isInterface_of_turned hst hy,
      fun h => hxy (h.turned hts), fun h => hyx (h.turned hts)⟩

theorem not_answers_of_clash (hlib : Standing files searched lib e) (hq : AreNames q)
    (hroot : root = e.addInstances q) (ha : lib.Within root a) (hi : lib.instances.get? a = some i)
    (hk : k ∈ i.links) (hclash : Clash lib root k.source k.target) : ¬Answers lib (below root) := by
  intro h
  obtain ⟨hboth, hfits⟩ := (((answers_below hlib hq hroot).1 h).2 a ha i hi k hk).fits hlib
  rcases hclash with hclash | ⟨hsource, -, hclash, -⟩
  · exact hclash hboth
  · exact hclash (hfits hsource)

/-! ### Libraries of turned files -/

theorem shares_of_tree (hlib : Reached files searched lib) (hr : r.IsRoot)
    (h : (tree r).outcome lib = (.ok (), lib')) : Shares files searched r lib' lib' := by
  have hlib' : Reached files searched ((tree r).outcome lib).2 := hlib.tree _ _ r
  rw [h] at hlib'
  refine .refl hr hlib' ?_
  rw [Table.contains_eq_isSome]
  exact contains_of_treeWithin hlib.sound.settled h

theorem below_eq_ok_iff (hlib : Reached files searched lib) (ha : r.Tree root) :
    (below root).outcome lib = (.ok nets, lib') ↔
      (tree r).outcome lib = (.ok (), lib') ∧ (below root).outcome lib' = (.ok nets, lib') := by
  have hstart : ∀ {lib₁}, (tree r).outcome lib = (.ok (), lib₁) →
      (below root).outcome lib = (below root).outcome lib₁ := by
    intro lib₁ htree
    have hagain := outcome_tree ha.1 (shares_of_tree hlib ha.1 htree).there
    have hwalk : (descendants root).outcome lib = (descendants root).outcome lib₁ := by
      rw [descendants, ha.entry_eq, outcome_bind_ok _ htree, outcome_bind_ok _ hagain]
    rw [below, outcome_bind, outcome_bind, hwalk]
  constructor
  · intro h
    obtain ⟨as, lib₁, has, -⟩ := bind_eq_ok.1 h
    obtain ⟨_, lib₂, htree, -⟩ := bind_eq_ok.1 has
    rw [ha.entry_eq] at htree
    rw [hstart htree] at h
    have hshares := shares_of_tree hlib ha.1 htree
    obtain ⟨as, has, -⟩ := below_eq_ok hshares.left ha h
    obtain rfl := hshares.eq_of_descendants ha has
    exact ⟨htree, h⟩
  · rintro ⟨htree, h⟩
    rwa [hstart htree]

theorem standing_of_turned (hs : Shares files searched e s s) (he : e.IsEntry)
    (hst : s.instances.Matches (fun _ => Turned) t.instances) :
    Standing files searched s e :=
  ⟨hs, he, hs.left.whole (.inr he) (by rw [← Table.contains_eq_isSome]; exact hs.there),
    apart_of_turned hst⟩

section

variable (hfiles : files.Turned files') (hlib : Reached files searched lib)
  (hlib' : Reached files' searched lib') (hlike : (turned hfiles searched).Like lib lib')

include hlib hlib' hlike

theorem exists_nets_turned
    (heven : ∀ made, (tree root.entry).outcome lib = (.ok (), made) → Even made root)
    (h : ∃ nets made, (below root).outcome lib = (.ok nets, made)) :
    ∃ nets made, (below root).outcome lib' = (.ok nets, made) := by
  obtain ⟨nets, s, h⟩ := h
  obtain ⟨r, q, hr, hq, hroot⟩ := isPlace_of_below hlib.sound h
  have ha : r.Tree root := ⟨hr, q, hq, hroot⟩
  obtain ⟨htree, h⟩ := (below_eq_ok_iff hlib ha).1 h
  obtain ⟨_, t, htree', hst, -⟩ := ((turned hfiles searched).inStep_treeWithin
    (states_turned hfiles searched) _ _ r).exists_ok hlike htree
  have hs := shares_of_tree hlib hr htree
  have ht := shares_of_tree hlib' hr htree'
  obtain ⟨nets', h'⟩ : Answers t (below root) := by
    rcases hr with hfile | hentry
    · exact answers_below_turned_of_isFile hs ht hfile ha hst.instances ⟨nets, h⟩
    · have hts := matches_turned_symm hst.instances
      refine answers_below_turned (standing_of_turned hs hentry hst.instances)
        (standing_of_turned ht hentry hts) hst.instances hq hroot ⟨nets, h⟩ (heven s ?_)
      rwa [ha.entry_eq]
  exact ⟨nets', t, (below_eq_ok_iff hlib' ha).2 ⟨htree', h'⟩⟩

theorem exists_net_turned {nets nets' : List (List Address)}
    (h : (below root).outcome lib = (.ok nets, s)) (h' : (below root).outcome lib' = (.ok nets', t)) :
    (∃ net ∈ nets, x ∈ net ∧ y ∈ net) ↔ ∃ net ∈ nets', x ∈ net ∧ y ∈ net := by
  obtain ⟨r, q, hr, hq, hroot⟩ := isPlace_of_below hlib.sound h
  have ha : r.Tree root := ⟨hr, q, hq, hroot⟩
  obtain ⟨htree, h⟩ := (below_eq_ok_iff hlib ha).1 h
  obtain ⟨htree', h'⟩ := (below_eq_ok_iff hlib' ha).1 h'
  obtain ⟨_, t₁, htree₁, hst, -⟩ := ((turned hfiles searched).inStep_treeWithin
    (states_turned hfiles searched) _ _ r).exists_ok hlike htree
  cases htree₁.symm.trans htree'
  have hs := shares_of_tree hlib hr htree
  have ht := shares_of_tree hlib' hr htree'
  have hts := matches_turned_symm hst.instances
  rcases hr with hfile | hentry
  · rw [exists_net_iff_of_isFile hs.left hfile ha h, exists_net_iff_of_isFile ht.left hfile ha h']
    exact and_congr_right fun _ => and_congr_right fun _ =>
      ⟨isTerminal_of_turned hst.instances, isTerminal_of_turned hts⟩
  · have hstanding := standing_of_turned hs hentry hst.instances
    have hstanding' := standing_of_turned ht hentry hts
    have hblock : root.entrySection.any (· ≠ "") = true := by
      rw [hroot]
      exact hentry.entrySection_addInstances hq
    rw [exists_net_iff hs.left hblock h, exists_net_iff ht.left hblock h']
    refine and_congr ?_ (and_congr ?_ ?_)
    · exact ⟨terminalWithin_of_turned hst.instances, terminalWithin_of_turned hts⟩
    · exact ⟨terminalWithin_of_turned hst.instances, terminalWithin_of_turned hts⟩
    · exact ⟨eqvGen_wired_turned hstanding hst.instances hq hroot ⟨nets, h⟩,
        eqvGen_wired_turned hstanding' hts hq hroot ⟨nets', h'⟩⟩

end

theorem not_nets_of_clash (hlib : Reached files searched lib)
    (hblock : root.entrySection.any (· ≠ "") = true)
    (htree : (tree root.entry).outcome lib = (.ok (), s))
    (hst : s.instances.Matches (fun _ => Turned) t.instances) (ha : s.Within root a) (hi : s.instances.get? a = some i) (hk : k ∈ i.links)
    (hclash : Clash s root k.source k.target) :
    ¬∃ nets made, (below root).outcome lib = (.ok nets, made) := by
  rintro ⟨nets, made, h⟩
  obtain ⟨r, q, hr, hq, hroot⟩ := isPlace_of_below hlib.sound h
  have htop : r.Tree root := ⟨hr, q, hq, hroot⟩
  have hentry : r.IsEntry := hr.resolve_left (htop.entry_eq ▸ Address.not_isFile_entry hblock)
  rw [htop.entry_eq] at htree
  obtain ⟨htree', h⟩ := (below_eq_ok_iff hlib htop).1 h
  cases htree.symm.trans htree'
  have hs := shares_of_tree hlib hr htree
  exact not_answers_of_clash (standing_of_turned hs hentry hst) hq hroot ha hi hk hclash ⟨nets, h⟩

/-! ### Turned files -/

theorem reached_of_trees (hlib : Reached files searched lib)
    (h : (roots.forM tree).outcome lib = (.ok (), lib')) : Reached files searched lib' := by
  induction roots generalizing lib with
  | nil =>
    cases h
    exact hlib
  | cons r roots ih =>
    obtain ⟨lib₁, htree, hrest⟩ := forM_cons_ok.1 h
    have hlib₁ : Reached files searched ((tree r).outcome lib).2 := hlib.tree _ _ r
    rw [htree] at hlib₁
    exact ih hlib₁ hrest

theorem exists_trees_turned (hfiles : files.Turned files')
    (h : (roots.forM tree).outcome { files, searched } = (.ok (), lib)) :
    ∃ lib', (roots.forM tree).outcome { files := files', searched } = (.ok (), lib') ∧
      (turned hfiles searched).Like lib lib' := by
  obtain ⟨_, lib', h', hlike, -⟩ := (Along.forM fun r _ => (turned hfiles searched).inStep_treeWithin
    (states_turned hfiles searched) _ _ r).exists_ok (.fresh (turned hfiles searched)) h
  exact ⟨lib', h', hlike⟩

/-- Connections have no direction. If the sides of some connections are swapped, the same trees can
be made. After that, nets that are found below a root in both cases put the same pins and signals
together. They are found in both cases or in none, if of two interfaces that are linked below the
root the first one fits the second one whenever the second one fits the first one, and in none if
an interface is linked to something else, or to an interface that it does not fit and that does not
fit it. -/
theorem below_turned (hfiles : files.Turned files') (searched : List Route) (roots : List Address) :
    ((∃ lib, (roots.forM tree).outcome { files, searched } = (.ok (), lib)) ↔
      ∃ lib', (roots.forM tree).outcome { files := files', searched } = (.ok (), lib')) ∧
    ∀ lib lib' root, (roots.forM tree).outcome { files, searched } = (.ok (), lib) →
      (roots.forM tree).outcome { files := files', searched } = (.ok (), lib') →
      (∀ nets made nets' made', (below root).outcome lib = (.ok nets, made) →
        (below root).outcome lib' = (.ok nets', made') → ∀ x y,
          (∃ net ∈ nets, x ∈ net ∧ y ∈ net) ↔ ∃ net ∈ nets', x ∈ net ∧ y ∈ net) ∧
      ((∀ made, (tree root.entry).outcome lib = (.ok (), made) → Even made root) →
        ((∃ nets made, (below root).outcome lib = (.ok nets, made)) ↔
          ∃ nets made, (below root).outcome lib' = (.ok nets, made))) ∧
      (root.entrySection.any (· ≠ "") = true →
        ∀ made, (tree root.entry).outcome lib = (.ok (), made) →
          ∀ a, made.Within root a → ∀ i, made.instances.get? a = some i → ∀ k ∈ i.links,
            Clash made root k.source k.target →
              (¬∃ nets made, (below root).outcome lib = (.ok nets, made)) ∧
                ¬∃ nets made, (below root).outcome lib' = (.ok nets, made)) := by
  refine ⟨⟨fun ⟨lib, h⟩ => ?_, fun ⟨lib', h'⟩ => ?_⟩, fun lib lib' root h h' => ?_⟩
  · obtain ⟨lib', h', -⟩ := exists_trees_turned hfiles h
    exact ⟨lib', h'⟩
  · obtain ⟨lib, h, -⟩ := exists_trees_turned hfiles.symm h'
    exact ⟨lib, h⟩
  obtain ⟨_, hmade, hlike⟩ := exists_trees_turned hfiles h
  cases hmade.symm.trans h'
  obtain ⟨_, hmade, hlike'⟩ := exists_trees_turned hfiles.symm h'
  cases hmade.symm.trans h
  have hlib := reached_of_trees .fresh h
  have hlib' := reached_of_trees .fresh h'
  refine ⟨fun nets made nets' made' hnets hnets' x y => ?_, fun heven => ⟨?_, ?_⟩, ?_⟩
  · exact exists_net_turned hfiles hlib hlib' hlike hnets hnets'
  · exact exists_nets_turned hfiles hlib hlib' hlike heven
  · refine exists_nets_turned hfiles.symm hlib' hlib hlike' fun made' hmade' => ?_
    obtain ⟨_, made, hmade, hst, -⟩ := ((turned hfiles.symm searched).inStep_treeWithin
      (states_turned hfiles.symm searched) _ _ root.entry).exists_ok hlike' hmade'
    exact (heven made hmade).turned (matches_turned_symm hst.instances)
  · intro hblock made hmade a ha i hi k hk hclash
    obtain ⟨_, made', hmade', hst, -⟩ := ((turned hfiles searched).inStep_treeWithin
      (states_turned hfiles searched) _ _ root.entry).exists_ok hlike hmade
    obtain ⟨j, k', ha', hj, hk', hkk'⟩ := exists_link_turned hst.instances ha hi hk
    have hclash' := hkk'.of_symm (R := Clash made root) hclash Clash.symm
    exact ⟨not_nets_of_clash hlib hblock hmade hst.instances ha hi hk hclash,
      not_nets_of_clash hlib' hblock hmade' (matches_turned_symm hst.instances) ha' hj hk'
        (hclash'.turned hst.instances)⟩

/-- A root is even if all that is linked is listed with the counterparts of its children, in both
directions. -/
theorem even_of_listed {as : List Address} (has : ∀ x, x ∈ as ↔ lib.Within root x)
    (h : ∀ e ∈ lib.instances.entries, ∀ k ∈ e.2.links,
      ∀ p ∈ [(k.source, k.target), (k.target, k.source)],
        p.1 ∈ as ∧ ∀ i ∈ lib.instances.get? p.1, ∀ n ∈ i.children, p.2.addInstance n ∈ as) :
    Even lib root := by
  intro a _ i hi k hk _ _
  have hfits : ∀ p ∈ [(k.source, k.target), (k.target, k.source)], Fits lib root p.1 p.2 := by
    intro p hp
    obtain ⟨hmem, hchildren⟩ := h (a, i) (Table.mem_entries_of_get? hi) k hk p hp
    exact ⟨(has _).1 hmem, fun j hj n hn => (has _).1 (hchildren j hj n hn)⟩
  exact iff_of_true (hfits (k.source, k.target) (by simp)) (hfits (k.target, k.source) (by simp))

/-- Two interfaces that are linked, and a pin that is made by a link. -/
def straight : Files where
  texts := ⟨[(["f"], "interface P:pin 1\nmodule M:a=new P;b=new P;a~b;pin 2~a.1\n")]⟩

/-- The same, with each connection written the other way round. -/
def crossed : Files where
  texts := ⟨[(["f"], "interface P:pin 1\nmodule M:a=new P;b=new P;b~a;a.1~pin 2\n")]⟩

theorem straight_turned : straight.Turned crossed := by
  refine ⟨rfl, rfl, ?_⟩
  have hnone : (∅ : Table (List String) String).Matches (fun _ => TurnedText) ∅ := fun _ => .none
  exact hnone.set (.of_within (n := 8) (by decide +kernel))

theorem below_turned_straight :
    straight.Turned crossed ∧ ∃ lib lib',
      ([⟨"f:M"⟩].forM tree).outcome { files := straight } = (.ok (), lib) ∧
      ([⟨"f:M"⟩].forM tree).outcome { files := crossed } = (.ok (), lib') ∧
      (∀ made, (tree ⟨"f:M"⟩).outcome lib = (.ok (), made) → Even made ⟨"f:M"⟩) ∧
      ∃ nets nets' made made',
        (below ⟨"f:M"⟩).outcome lib = (.ok nets, made) ∧
        (below ⟨"f:M"⟩).outcome lib' = (.ok nets', made') ∧
        (∃ net ∈ nets, ⟨"f:M::2"⟩ ∈ net ∧ ⟨"f:M::b.1"⟩ ∈ net) ∧
        ∃ net ∈ nets', ⟨"f:M::2"⟩ ∈ net ∧ ⟨"f:M::b.1"⟩ ∈ net := by
  obtain ⟨hbuilds, hnets⟩ := below_turned straight_turned [] [⟨"f:M"⟩]
  obtain ⟨run, hrun⟩ : ∃ run, ([⟨"f:M"⟩].forM tree).outcome { files := straight } = run := ⟨_, rfl⟩
  let listed : List Address :=
    [⟨"f:M::a.1"⟩, ⟨"f:M::a"⟩, ⟨"f:M::b.1"⟩, ⟨"f:M::b"⟩, ⟨"f:M::2"⟩, ⟨"f:M"⟩]
  have hfacts : run.1.toOption = some () ∧ run.2.instances.contains ⟨"f:M"⟩ ∧
      ((descendantsWithin 3 ⟨"f:M"⟩).outcome run.2).1.toOption = some listed ∧
      (∀ e ∈ run.2.instances.entries, ∀ k ∈ e.2.links,
        ∀ p ∈ [(k.source, k.target), (k.target, k.source)], p.1 ∈ listed ∧
          ∀ i ∈ run.2.instances.get? p.1, ∀ n ∈ i.children, p.2.addInstance n ∈ listed) ∧
      ((below ⟨"f:M"⟩).outcome run.2).1.toOption =
        some [[⟨"f:M::a.1"⟩, ⟨"f:M::2"⟩, ⟨"f:M::b.1"⟩]] := by
    rw [← hrun]
    decide +kernel
  obtain ⟨hok, hthere, hlisted, hlinked, hfound⟩ := hfacts
  obtain ⟨e | u, lib⟩ := run
  · cases hok
  obtain ⟨lib', hrun'⟩ := hbuilds.1 ⟨lib, hrun⟩
  obtain ⟨hsame, hboth, -⟩ := hnets lib lib' ⟨"f:M"⟩ hrun hrun'
  have heven : ∀ made, (tree ⟨"f:M"⟩).outcome lib = (.ok (), made) → Even made ⟨"f:M"⟩ := by
    intro made hmade
    obtain rfl := tree_eq_ok hthere hmade
    refine even_of_listed ?_ hlinked
    have hsound := (reached_of_trees .fresh hrun).sound
    exact (descendantsWithin_eq_ok hsound ⟨['f'], ['M'], by decide⟩ hthere (q := []) areNames_nil
      (outcome_eq_ok_of_toOption hlisted)).2
  have hstraight := outcome_eq_ok_of_toOption hfound
  obtain ⟨nets', made', hcrossed⟩ := (hboth heven).1 ⟨_, _, hstraight⟩
  refine ⟨straight_turned, lib, lib', hrun, hrun', heven, _, nets', _, made', hstraight, hcrossed, ?_⟩
  rw [← hsame _ _ _ _ hstraight hcrossed, and_self]
  decide

/-- An interface that is linked to one with one more signal. -/
def narrow : Files where
  texts := ⟨[(["f"], "interface P:signal v\ninterface Q:signal v;signal w\n" ++
    "module M:a=new P;b=new Q;a~b\n")]⟩

/-- The same, with the connection written the other way round. -/
def wide : Files where
  texts := ⟨[(["f"], "interface P:signal v\ninterface Q:signal v;signal w\n" ++
    "module M:a=new P;b=new Q;b~a\n")]⟩

/-- The tree is made in both cases, but nets are found in one direction only. -/
theorem below_narrow_not_wide : narrow.Turned wide ∧
    ((below ⟨"f:M"⟩).outcome { files := narrow }).1.toOption =
      some [[⟨"f:M::a.v"⟩, ⟨"f:M::b.v"⟩], [⟨"f:M::b.w"⟩]] ∧
    ((below ⟨"f:M"⟩).outcome { files := wide }).1.toOption = none ∧
    ((below ⟨"f:M"⟩).outcome { files := wide }).2.instances.contains ⟨"f:M"⟩ := by
  have hturned : narrow.Turned wide := by
    refine ⟨rfl, rfl, ?_⟩
    have hnone : (∅ : Table (List String) String).Matches (fun _ => TurnedText) ∅ := fun _ => .none
    exact hnone.set (.of_within (n := 8) (by decide +kernel))
  exact ⟨hturned, by decide +kernel⟩

end Net

end Boardwright
