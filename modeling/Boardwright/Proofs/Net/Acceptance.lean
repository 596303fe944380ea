import Boardwright.Proofs.Net.Connectivity

/-!
# When nets are found

A link is accepted if both of its ends are pins or signals that were taken in, or if both are
interfaces and each child of the first one, which has to be reached, is a pin or a signal that was
taken in and so is its counterpart at the second one. Each instance of a tree comes after all that
is below it, so what its links can refer to has been taken in by then, if it is in the tree at all.
Hence the nets below a root are found if and only if each link of an instance below the root is
accepted for the pins and signals below the root: `answers_below`.
-/

open List

namespace Boardwright

variable {as : List Address}

namespace Library

variable {lib lib' : Library} {a b e : Address} {n : String} {p q : List String}

theorem Leads.exists_of_concat (h : lib.Leads a (q ++ [n])) :
    ∃ i, lib.instances.get? (a.addInstances q) = some i ∧ n ∈ i.children := by
  generalize hp : q ++ [n] = p at h
  cases h with
  | here => simp at hp
  | @child q' n' i _ hi hn =>
    obtain ⟨rfl, hname⟩ := append_inj' hp rfl
    cases hname
    exact ⟨i, hi, hn⟩

/-- What is reached and stands below an instance that is reached is reached from that instance. -/
theorem Whole.within_of_below (h : lib.Whole e) (ha : lib.Within e a) (hb : lib.Within e b)
    (hab : a.Below b) : lib.Within a b := by
  obtain ⟨p, hp, rfl⟩ := within_iff_leads.1 ha
  obtain ⟨p', hp', rfl⟩ := within_iff_leads.1 hb
  obtain ⟨q, hq, hpq⟩ := hab
  rw [← Address.addInstances_append] at hpq
  obtain rfl := Address.addInstances_injective (h p' hp').1
    (areNames_append.2 ⟨(h p hp).1, hq⟩) hpq
  rw [Address.addInstances_append]
  exact within_iff_leads.2 ⟨q, hp'.of_prefix, rfl⟩

theorem Whole.exists_child (h : lib.Whole e) (ha : e.Below a) (hn : IsName n)
    (han : lib.Within e (a.addInstance n)) :
    ∃ i, lib.instances.get? a = some i ∧ n ∈ i.children := by
  obtain ⟨p, hp, rfl⟩ := ha
  obtain ⟨q, hq, hpq⟩ := within_iff_leads.1 han
  rw [← Address.addInstances_concat] at hpq
  obtain rfl := Address.addInstances_injective
    (areNames_append.2 ⟨hp, areNames_cons.2 ⟨hn, areNames_nil⟩⟩) (h q hq).1 hpq
  exact hq.exists_of_concat

theorem leads_of_follow (h : (follow a q).outcome lib = (.ok b, lib')) : lib.Leads a q := by
  induction q generalizing a with
  | nil => exact .here
  | cons n q ih =>
    obtain ⟨i, lib₁, hat, h⟩ := Work.bind_eq_ok.1 h
    obtain ⟨hi, rfl⟩ := instanceAt_eq_ok.1 hat
    split at h
    · next hn => exact (ih h).of_child (childrenAt_eq_some.2 ⟨i, hi, rfl⟩) (by simpa using hn)
    · cases h

theorem leads_of_children (he : e.IsEntry) (hq : AreNames q) (hc : lib.instances.contains e)
    (h : (children (e.addInstances q)).outcome lib = (.ok as, lib')) : lib.Leads e q := by
  rw [children_addInstances he hq] at h
  obtain ⟨_, lib₁, htree, hrest⟩ := Work.bind_eq_ok.1 h
  obtain rfl := tree_eq_ok hc htree
  obtain ⟨here, lib₂, hfollow, -⟩ := Work.bind_eq_ok.1 hrest
  exact leads_of_follow hfollow

end Library

namespace Net

open Library Work

variable {files : Files} {searched : List Route} {lib : Library} {α : Type}
  {a e r x y root source target : Address} {s s' : Rings} {q ns : List String}
  {T T' : Address → Prop} {J : Address → Address → Prop}

/-! ### What rings hold -/

/-- Rings in which exactly the things of `T` were taken in. -/
def Holds (T : Address → Prop) (s : Rings) : Prop :=
  ∃ h, Soup.Tells id s h ∧ ∀ x, x ∈ h.things ↔ T x

namespace Holds

theorem congr (h : Holds T s) (hT : ∀ x, T x ↔ T' x) : Holds T' s := by
  obtain ⟨history, htells, hthings⟩ := h
  exact ⟨history, htells, fun x => (hthings x).trans (hT x)⟩

theorem grows (h : Holds T s) (hgrows : Grows T' J s s') : Holds (fun x => T x ∨ T' x) s' := by
  obtain ⟨history, htells, hthings⟩ := h
  obtain ⟨history', htells', hthings', -⟩ := hgrows history htells
  exact ⟨history', htells', fun x => by rw [hthings', hthings]⟩

/-- Rings that have grown by nothing. -/
theorem keeps (h : Holds T s) (hgrows : Grows (fun _ => False) J s s') : Holds T s' :=
  (h.grows hgrows).congr fun _ => iff_of_eq (or_false _)

theorem mem_keys (h : Holds T s) (x : Address) : x ∈ s.cells.keys ↔ T x := by
  obtain ⟨history, htells, hthings⟩ := h
  rw [htells.keys, map_id, hthings]

theorem add_iff (h : Holds T s) : (∃ s', s.add a a = .ok s') ↔ ¬T a := by
  rw [← h.mem_keys]
  by_cases ha : a ∈ s.cells.keys
  · simp [Soup.add_of_mem ha, ha]
  · simp [Soup.add_of_not_mem ha, ha]

theorem join_iff (h : Holds T s) : (∃ s', s.join x y = .ok s') ↔ T x ∧ T y := by
  obtain ⟨history, htells, -⟩ := id h
  have herror := htells.join_error_iff x y
  rw [htells.knows_iff, htells.knows_iff, id_eq, id_eq, h.mem_keys, h.mem_keys] at herror
  rw [← not_iff_not, ← herror]
  cases s.join x y <;> simp

end Holds

/-! ### Questions that have an answer -/

theorem answers_isAny_bind {bs : List Builtin} {f : Bool → Work Library α} :
    Answers lib (isAny bs a >>= f) ↔
      ∃ i, lib.instances.get? a = some i ∧ Answers lib (f (i.isAny bs)) := by
  constructor
  · rintro ⟨r, hr⟩
    obtain ⟨c, lib₁, hc, hr⟩ := bind_eq_ok.1 hr
    obtain ⟨⟨i, hi, rfl⟩, rfl⟩ := isAny_eq_ok.1 hc
    exact ⟨i, hi, r, hr⟩
  · rintro ⟨i, hi, r, hr⟩
    exact ⟨r, bind_eq_ok.2 ⟨_, lib, isAny_eq_ok.2 ⟨⟨i, hi, rfl⟩, rfl⟩, hr⟩⟩

theorem answers_stepped_bind {r : Except Soup.Fault Rings} {f : Rings → Work Library α} :
    Answers lib (stepped r >>= f) ↔ ∃ s, r = .ok s ∧ Answers lib (f s) := by
  cases r with
  | ok s => exact ⟨fun h => ⟨s, rfl, h⟩, fun ⟨_, hs, h⟩ => Except.ok.inj hs ▸ h⟩
  | error f => exact ⟨fun ⟨_, h⟩ => (nomatch h), fun ⟨_, hs, _⟩ => (nomatch hs)⟩

theorem answers_stepped {r : Except Soup.Fault Rings} :
    Answers lib (stepped r) ↔ ∃ s, r = .ok s := by
  simp [Answers, stepped_eq_ok]

theorem not_answers_throw (f : Failure) : ¬Answers lib (throw f : Work Library α) :=
  fun ⟨_, h⟩ => nomatch h

/-- The children of an interface are joined if all of them and their counterparts were taken in. -/
theorem answers_joinChildren (hT : ∀ x, T x → IsTerminal lib x) (hs : Holds T s)
    (hns : AreNames ns) :
    Answers lib (joinChildren target s (ns.map source.addInstance)) ↔
      ∀ n ∈ ns, T (source.addInstance n) ∧ T (target.addInstance n) := by
  induction ns generalizing s with
  | nil => exact ⟨fun _ => by simp, fun _ => .pure s⟩
  | cons n ns ih =>
    rw [areNames_cons] at hns
    rw [map_cons, joinChildren, answers_isAny_bind, forall_mem_cons]
    have hname := Address.name_addInstance source hns.1
    constructor
    · rintro ⟨i, hi, h⟩
      split at h
      · obtain ⟨s₁, hjoin, h⟩ := answers_stepped_bind.1 h
        rw [hname] at hjoin
        exact ⟨hs.join_iff.1 ⟨s₁, hjoin⟩, (ih (hs.keeps (grows_join hjoin)) hns.2).1 h⟩
      · exact absurd h (not_answers_throw _)
    · rintro ⟨hn, hall⟩
      obtain ⟨i, hi, hterminal⟩ := hT _ hn.1
      obtain ⟨s₁, hjoin⟩ := hs.join_iff.2 hn
      refine ⟨i, hi, ?_⟩
      rw [if_pos hterminal]
      refine answers_stepped_bind.2 ⟨s₁, by rw [hname, hjoin], ?_⟩
      exact (ih (hs.keeps (grows_join hjoin)) hns.2).2 hall

/-- A link whose ends can be joined, if the things of `T` were taken in: two of these things, or two
interfaces of which the first one is reached, has only such things for children, and has their
counterparts at the second one. -/
def Accepts (lib : Library) (e : Address) (T : Address → Prop) (x y : Address) : Prop :=
  T x ∧ T y ∨ IsInterface lib x ∧ IsInterface lib y ∧ lib.Within e x ∧
    ∀ i, lib.instances.get? x = some i → ∀ n ∈ i.children,
      T (x.addInstance n) ∧ T (y.addInstance n)

theorem Accepts.within_congr (h : lib.Within e x ↔ lib.Within root x) :
    Accepts lib e T x y ↔ Accepts lib root T x y :=
  or_congr_right (and_congr_right fun _ => and_congr_right fun _ => and_congr_left fun _ => h)

/-- The pins and signals below a root. -/
def TerminalWithin (lib : Library) (root x : Address) : Prop :=
  lib.Within root x ∧ IsTerminal lib x

/-- The tree of a block that stands in a library, and in which no pin and no signal is an
interface. -/
structure Standing (files : Files) (searched : List Route) (lib : Library) (e : Address) :
    Prop extends shares : Shares files searched e lib lib where
  entry : e.IsEntry
  whole : lib.Whole e
  apart : ∀ x, IsTerminal lib x → ¬IsInterface lib x

theorem Standing.sound (h : Standing files searched lib e) : Sound files searched lib :=
  h.left.sound

/-! ### The steps -/

/-- An account of the links that are accepted in a tree if the things of `T` were taken in. For the
links of an instance only things below the instance count. -/
structure Judges (lib : Library) (e : Address)
    (A : (Address → Prop) → Address → Address → Prop) : Prop where
  joins : ∀ {T s x y}, (∀ x, T x → IsTerminal lib x) → Holds T s → e.Tree x → e.Tree y →
    (Answers lib (joinLink s x y) ↔ A T x y)
  near : ∀ {T T'} {a x y : Address}, (∀ z, a.Below z → (T z ↔ T' z)) → a.Below x → a.Below y →
    (A T x y ↔ A T' x y)

/-- Work that takes nothing in, and what comes after it. -/
theorem answers_threads_bind {w : Work Library Rings} {f : Rings → Work Library α} {P : Prop}
    (hw : Threads e lib lib (fun _ => False) J s w) (hs : Holds T s)
    (hf : ∀ s', Holds T s' → (Answers lib (f s') ↔ P)) :
    Answers lib (w >>= f) ↔ Answers lib w ∧ P := by
  constructor
  · rintro ⟨r, hr⟩
    obtain ⟨s', lib₁, hs', hr⟩ := bind_eq_ok.1 hr
    obtain ⟨rfl, J', hgrows, -⟩ := hw.eq_ok hs'
    exact ⟨⟨s', hs'⟩, (hf s' (hs.keeps hgrows)).1 ⟨r, hr⟩⟩
  · rintro ⟨⟨s', hs'⟩, hP⟩
    obtain ⟨-, J', hgrows, -⟩ := hw.eq_ok hs'
    obtain ⟨r, hr⟩ := (hf s' (hs.keeps hgrows)).2 hP
    exact ⟨r, bind_eq_ok.2 ⟨s', lib, hs', hr⟩⟩

section

variable (h : Shares files searched e lib lib) {A : (Address → Prop) → Address → Address → Prop}
  (hA : Judges lib e A) (hT : ∀ x, T x → IsTerminal lib x) (hs : Holds T s)

include h hA hT hs

theorem answers_joinLinks {ks : List Link} (hks : ∀ k ∈ ks, e.Tree k.source ∧ e.Tree k.target) :
    Answers lib (joinLinks s (ks.map fun k => (k.source, k.target))) ↔
      ∀ k ∈ ks, A T k.source k.target := by
  induction ks generalizing s with
  | nil => exact ⟨fun _ => by simp, fun _ => .pure s⟩
  | cons k ks ih =>
    rw [forall_mem_cons] at hks ⊢
    rw [map_cons, joinLinks, ← hA.joins hT hs hks.1.1 hks.1.2]
    exact answers_threads_bind (threads_joinLink h hks.1.1 hks.1.2) hs fun s' hs' => ih hs' hks.2

theorem answers_links {i : Instance} {P : Prop} (ha : e.Tree a)
    (hi : lib.instances.get? a = some i)
    (hrest : ∀ s', Holds T s' → (Answers lib (ringsOf s' as) ↔ P)) :
    Answers lib (linksOf a >>= fun ls => joinLinks s ls >>= fun s' => ringsOf s' as) ↔
      (∀ k ∈ i.links, A T k.source k.target) ∧ P := by
  have hlinks : (linksOf a).outcome lib = (.ok (i.links.map fun k => (k.source, k.target)), lib) :=
    bind_eq_ok.2 ⟨i, lib, outcome_instanceAt hi, rfl⟩
  have hends := h.tree_of_links ha hi
  rw [← answers_joinLinks h hA hT hs hends, Answers, outcome_bind_ok _ hlinks]
  exact answers_threads_bind (threads_joinLinks h hends) hs hrest

/-- Going through instances, each of which comes after all that is below it. The links of an
instance do not refer to anything that comes later. -/
theorem answers_ringsOf (has : ∀ a ∈ as, e.Tree a ∧ ∃ i, lib.instances.get? a = some i)
    (hnew : ∀ a ∈ as, ¬T a) (hpair : as.Pairwise fun a b => ¬a.Below b) :
    Answers lib (ringsOf s as) ↔ ∀ a ∈ as, ∀ i, lib.instances.get? a = some i → ∀ k ∈ i.links,
      A (fun x => T x ∨ x ∈ as ∧ IsTerminal lib x) k.source k.target := by
  induction as generalizing T s with
  | nil => exact ⟨fun _ => by simp, fun _ => .pure s⟩
  | cons a as ih =>
    rw [forall_mem_cons] at has hnew ⊢
    rw [pairwise_cons] at hpair
    obtain ⟨⟨ha, i, hi⟩, has⟩ := has
    -- what was taken in once the instance itself has been looked at
    have hT' : ∀ x, T x ∨ x = a ∧ IsTerminal lib x → IsTerminal lib x :=
      fun x hx => hx.elim (hT x) And.right
    have hrest : ∀ s', Holds (fun x => T x ∨ x = a ∧ IsTerminal lib x) s' →
        (Answers lib (ringsOf s' as) ↔ ∀ b ∈ as, ∀ j, lib.instances.get? b = some j →
          ∀ k ∈ j.links, A (fun x => T x ∨ x ∈ a :: as ∧ IsTerminal lib x) k.source k.target) := by
      intro s' hs'
      rw [ih hT' hs' has ?_ hpair.2]
      · simp only [mem_cons, or_and_right, or_assoc]
      · rintro b hb (hb' | ⟨rfl, -⟩)
        · exact hnew.2 b hb hb'
        · exact hpair.1 b hb (.refl b)
    have hlater : (∀ k ∈ i.links,
        A (fun x => T x ∨ x ∈ a :: as ∧ IsTerminal lib x) k.source k.target) ↔
        ∀ k ∈ i.links, A (fun x => T x ∨ x = a ∧ IsTerminal lib x) k.source k.target := by
      refine forall_congr' fun k => forall_congr' fun hk => ?_
      obtain ⟨x, y, hx, hy, hsource, htarget⟩ := (h.left.sound.instances _ i hi).2.links k hk
      refine hA.near (fun z hz => ?_) ⟨x, hx, hsource⟩ ⟨y, hy, htarget⟩
      have hz' : z ∉ as := fun hmem => hpair.1 z hmem hz
      simp [hz']
    simp only [hi, Option.some.injEq, forall_eq']
    rw [hlater, ringsOf, answers_isAny_bind]
    simp only [hi, Option.some.injEq, exists_eq_left']
    have hstep : ∀ s', Holds (fun x => T x ∨ x = a ∧ IsTerminal lib x) s' →
        (Answers lib (linksOf a >>= fun ls => joinLinks s' ls >>= fun s₂ => ringsOf s₂ as) ↔ _) :=
      fun s' hs' => answers_links h hA hT' hs' ha hi hrest
    split
    · next hterminal =>
        obtain ⟨s₁, hadd⟩ := hs.add_iff.2 hnew.1
        have hs₁ : Holds (fun x => T x ∨ x = a ∧ IsTerminal lib x) s₁ := by
          refine (hs.grows (grows_add hadd)).congr fun x => or_congr_right ?_
          refine ⟨?_, And.left⟩
          rintro rfl
          exact ⟨rfl, i, hi, hterminal⟩
        rw [answers_stepped_bind, hadd]
        simp only [Except.ok.injEq, exists_eq_left']
        exact hstep s₁ hs₁
    · next hterminal =>
        refine hstep s (hs.congr fun x => ⟨.inl, fun hx => hx.resolve_right ?_⟩)
        rintro ⟨rfl, j, hj, hj'⟩
        cases Option.some.inj (hi.symm.trans hj)
        exact hterminal hj'

end

/-- The nets are found if the instances that the walk meets can be gone through. -/
theorem answers_below_iff (has : (descendants root).outcome lib = (.ok as, lib)) :
    Answers lib (below root) ↔ Answers lib (ringsOf {} as) := by
  rw [below, Answers, outcome_bind_ok _ has]
  constructor
  · rintro ⟨nets, hnets⟩
    obtain ⟨s, lib₁, hs, hend⟩ := bind_eq_ok.1 hnets
    cases hend
    exact ⟨s, hs⟩
  · rintro ⟨s, hs⟩
    exact ⟨s.groups, bind_eq_ok.2 ⟨s, lib, hs, rfl⟩⟩

theorem holds_fresh : Holds (fun _ => False) {} := ⟨{}, .empty id, fun x => by simp⟩

/-- A link of two pins or signals, or of two interfaces whose children can be joined. -/
theorem answers_joinLink (hapart : ∀ x, IsTerminal lib x → ¬IsInterface lib x)
    (hT : ∀ x, T x → IsTerminal lib x) (hs : Holds T s) :
    Answers lib (joinLink s source target) ↔ T source ∧ T target ∨
      IsInterface lib source ∧ IsInterface lib target ∧
        Answers lib (children source >>= joinChildren target s) := by
  rw [joinLink, answers_isAny_bind]
  constructor
  · rintro ⟨i, hi, h⟩
    split at h
    · next hinterface =>
        obtain ⟨j, hj, h⟩ := answers_isAny_bind.1 h
        split at h
        · next hinterface' => exact .inr ⟨⟨i, hi, hinterface⟩, ⟨j, hj, hinterface'⟩, h⟩
        · exact absurd h (not_answers_throw _)
    · exact .inl (hs.join_iff.1 (answers_stepped.1 h))
  · rintro (⟨hx, hy⟩ | ⟨⟨i, hi, hinterface⟩, ⟨j, hj, hinterface'⟩, hchildren⟩)
    · have hterminal := hT _ hx
      obtain ⟨i, hi, -⟩ := id hterminal
      refine ⟨i, hi, ?_⟩
      rw [if_neg fun hinterface => hapart _ hterminal ⟨i, hi, hinterface⟩]
      exact answers_stepped.2 (hs.join_iff.2 ⟨hx, hy⟩)
    · refine ⟨i, hi, ?_⟩
      rw [if_pos hinterface]
      refine answers_isAny_bind.2 ⟨j, hj, ?_⟩
      rwa [if_pos hinterface']

/-! ### Files -/

/-- Nothing is reached in a file without children, so two interfaces have nothing to join there. -/
theorem judges_of_isFile {i : Instance} (hr : r.IsFile) (hi : lib.instances.get? r = some i)
    (hchildren : i.children = []) (hapart : ∀ x, IsTerminal lib x → ¬IsInterface lib x) :
    Judges lib r fun T x y => T x ∧ T y ∨ IsInterface lib x ∧ IsInterface lib y where
  joins {T s x y} hT hs hx _ := by
    have hnone := outcome_children_of_isFile hr hi hx
    rw [hchildren, map_nil] at hnone
    have hanswers : Answers lib (children x >>= joinChildren y s) :=
      ⟨s, bind_eq_ok.2 ⟨_, lib, hnone, rfl⟩⟩
    rw [answers_joinLink hapart hT hs, and_iff_left hanswers]
  near hT hx hy := by rw [hT _ hx, hT _ hy]

/-! ### Blocks -/

section

variable (htree : Standing files searched lib e)

include htree

theorem judges_of_standing : Judges lib e (Accepts lib e) where
  joins {T s x y} hT hs hx _ := by
    rw [answers_joinLink htree.apart hT hs]
    refine or_congr_right (and_congr_right fun ⟨i, hi, _⟩ => and_congr_right fun _ => ?_)
    obtain ⟨-, q, hq, rfl⟩ := hx
    have hjoins : Answers lib
        (joinChildren y s (i.children.map (e.addInstances q).addInstance)) ↔ _ :=
      answers_joinChildren hT hs (htree.sound.instances _ i hi).2.children
    constructor
    · rintro ⟨r, hr⟩
      obtain ⟨kids, lib₁, hkids, hr⟩ := bind_eq_ok.1 hr
      have hleads := leads_of_children htree.entry hq htree.there hkids
      obtain ⟨rfl, i', hi', rfl⟩ := children_eq_ok htree.entry hq htree.there hkids
      cases Option.some.inj (hi.symm.trans hi')
      refine ⟨within_iff_leads.2 ⟨q, hleads, rfl⟩, fun i' hi' => ?_⟩
      cases Option.some.inj (hi.symm.trans hi')
      exact hjoins.1 ⟨r, hr⟩
    · rintro ⟨hwithin, hchildren⟩
      obtain ⟨p, hp, hpq⟩ := within_iff_leads.1 hwithin
      obtain rfl := Address.addInstances_injective hq (htree.whole p hp).1 hpq
      obtain ⟨r, hr⟩ := hjoins.2 (hchildren i hi)
      exact ⟨r, bind_eq_ok.2 ⟨_, lib, outcome_children htree.entry htree.there htree.whole hp hi, hr⟩⟩
  near {T T' a x y} hT hx hy := by
    refine or_congr (and_congr (hT _ hx) (hT _ hy)) (and_congr_right fun _ => and_congr_right fun _ =>
      and_congr_right fun _ => forall_congr' fun i => forall_congr' fun hi => forall_congr' fun n =>
        forall_congr' fun hn => ?_)
    have hname := (htree.sound.instances _ i hi).2.children n hn
    rw [hT _ (hx.addInstance hname), hT _ (hy.addInstance hname)]

/-- A root below which nets are found is reached. -/
theorem leads_of_below (hq : AreNames q) (h : Answers lib (below (e.addInstances q))) :
    lib.Leads e q := by
  obtain ⟨nets, hnets⟩ := h
  obtain ⟨as, lib₁, has, -⟩ := bind_eq_ok.1 hnets
  have htop : e.Tree (e.addInstances q) := ⟨.inr htree.entry, q, hq, rfl⟩
  rw [Shares.outcome_descendants htop htree.there, descendantsWithin] at has
  obtain ⟨kids, lib₂, hkids, -⟩ := bind_eq_ok.1 has
  exact leads_of_children htree.entry hq htree.there hkids

/-- The nets below a root that is reached, from the walk through the tree. -/
theorem answers_below_of_leads (hq : lib.Leads e q) (hroot : root = e.addInstances q) :
    Answers lib (below root) ↔ ∀ a, lib.Within root a → ∀ i, lib.instances.get? a = some i →
      ∀ k ∈ i.links, Accepts lib e (TerminalWithin lib root) k.source k.target := by
  unfold TerminalWithin
  have hnames := (htree.whole q hq).1
  have hdepth : lib.instances.size < q.length + (lib.instances.size + 1) := by omega
  obtain ⟨as, has, hpair⟩ :=
    descendantsWithin_of_leads htree.sound htree.entry htree.there htree.whole hq hdepth
  obtain ⟨-, hmem⟩ := descendantsWithin_eq_ok htree.sound htree.entry htree.there hnames has
  rw [← Shares.outcome_descendants ⟨.inr htree.entry, q, hnames, rfl⟩ htree.there] at has
  rw [← hroot] at has hmem
  have hreached : ∀ a ∈ as, lib.Within e a := by
    intro a ha
    have hwithin : lib.Within e root := within_iff_leads.2 ⟨q, hq, hroot⟩
    exact hwithin.trans ((hmem a).1 ha)
  have hthere : ∀ a ∈ as, e.Tree a ∧ ∃ i, lib.instances.get? a = some i := by
    intro a ha
    obtain ⟨p, hp, rfl⟩ := within_iff_leads.1 (hreached a ha)
    exact ⟨⟨.inr htree.entry, p, (htree.whole p hp).1, rfl⟩, htree.whole.exists_instance hp⟩
  have hbelow : as.Pairwise fun a b => ¬a.Below b := hpair.imp_of_mem fun ha hb hab h =>
    hab (htree.whole.within_of_below (hreached _ ha) (hreached _ hb) h)
  rw [answers_below_iff has, answers_ringsOf htree.shares (judges_of_standing htree)
    (fun _ => False.elim) holds_fresh hthere (fun _ _ => id) hbelow]
  simp only [false_or, hmem]

/-- The nets below a root are found if and only if the root is reached and each link of an instance
below it is accepted for the pins and signals below it. -/
theorem answers_below (hq : AreNames q) (hroot : root = e.addInstances q) :
    Answers lib (below root) ↔ lib.Within e root ∧ ∀ a, lib.Within root a → ∀ i,
      lib.instances.get? a = some i → ∀ k ∈ i.links,
        Accepts lib root (TerminalWithin lib root) k.source k.target := by
  have hsource : lib.Within e root → ∀ a, lib.Within root a → ∀ i, lib.instances.get? a = some i →
      ∀ k ∈ i.links, (lib.Within e k.source ↔ lib.Within root k.source) := by
    intro h a ha i hi k hk
    obtain ⟨x, -, hx, -, hsource, -⟩ := (htree.sound.instances _ i hi).2.links k hk
    refine ⟨fun hk => htree.whole.within_of_below h hk ?_, h.trans⟩
    rw [hsource]
    exact (ha.below htree.sound).addInstances hx
  constructor
  · intro h
    have hleads := leads_of_below htree hq (hroot ▸ h)
    have hwithin : lib.Within e root := within_iff_leads.2 ⟨q, hleads, hroot⟩
    refine ⟨hwithin, fun a ha i hi k hk => ?_⟩
    rw [← Accepts.within_congr (hsource hwithin a ha i hi k hk)]
    exact (answers_below_of_leads htree hleads hroot).1 h a ha i hi k hk
  · rintro ⟨hwithin, h⟩
    obtain ⟨p, hp, hpq⟩ := within_iff_leads.1 hwithin
    refine (answers_below_of_leads htree hp hpq).2 fun a ha i hi k hk => ?_
    rw [Accepts.within_congr (hsource hwithin a ha i hi k hk)]
    exact h a ha i hi k hk

end

end Net

end Boardwright
