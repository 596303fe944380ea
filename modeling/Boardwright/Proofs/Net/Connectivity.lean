import Boardwright.Net.Basic
import Boardwright.Proofs.Design.Reading
import Boardwright.Proofs.Ring.Run

/-!
# Nets are the connected pins and signals

A link `Ties` its two ends together, or, if both are interfaces, each child of the first
with the child of that name of the second. `Wired` is all that is tied by the links of the
instances below a root.

The nets below a root are found by taking the pins and signals in and joining what is tied,
instance by instance. `Grows` says what a step of this adds to the things that were taken in
and to the pairs that were joined, and `Threads` that it adds the same in two libraries that share
a tree. So at the end the pins and signals below the root have been taken in and what is wired has
been joined, and the nets are the classes of what is wired: `below_connected`. Libraries that share
the tree of the root have the same nets.
-/

namespace Boardwright.Net

open Relation Work List Library Soup

variable {files : Files} {searched : List Route} {lib lib' lib'' : Library}
  {a e r root source target x y : Address} {s s' s'' : Rings} {q : List String}
  {nets : List (List Address)} {as : List Address}

/-- A pin or a signal. -/
def IsTerminal (lib : Library) (a : Address) : Prop :=
  ∃ i, lib.instances.get? a = some i ∧ i.isAny [.pin, .signal]

def IsInterface (lib : Library) (a : Address) : Prop :=
  ∃ i, lib.instances.get? a = some i ∧ i.isAny [.interface]

/-- What a link of `source` and `target` ties together. -/
inductive Ties (lib : Library) (source target : Address) : Address → Address → Prop
  | ends (hs : ¬IsInterface lib source) : Ties lib source target source target
  | children {i : Instance} {n : String} (hs : IsInterface lib source)
    (ht : IsInterface lib target) (hi : lib.instances.get? source = some i)
    (hn : n ∈ i.children) :
    Ties lib source target (source.addInstance n) (target.addInstance n)

/-- What the links of an instance tie together. -/
def TiedAt (lib : Library) (a x y : Address) : Prop :=
  ∃ i, lib.instances.get? a = some i ∧ ∃ k ∈ i.links, Ties lib k.source k.target x y

/-- What the links of the instances below a root tie together. -/
def Wired (lib : Library) (root x y : Address) : Prop :=
  ∃ a, lib.Within root a ∧ TiedAt lib a x y

/-! ### What a step adds -/

/-- Rings in which the things of `T` were taken in and the pairs of `J` joined. -/
def Grows (T : Address → Prop) (J : Address → Address → Prop) (s s' : Rings) : Prop :=
  ∀ h, Tells id s h → ∃ h', Tells id s' h' ∧
    (∀ x, x ∈ h'.things ↔ x ∈ h.things ∨ T x) ∧
    ∀ x y, (x, y) ∈ h'.joined ↔ (x, y) ∈ h.joined ∨ J x y

variable {T T' : Address → Prop} {J J' : Address → Address → Prop} {bs : List Builtin}

theorem Grows.refl (s : Rings) : Grows (fun _ => False) (fun _ _ => False) s s :=
  fun h ht => ⟨h, ht, fun x => by simp, fun x y => by simp⟩

theorem Grows.trans (h : Grows T J s s') (h' : Grows T' J' s' s'') :
    Grows (fun x => T x ∨ T' x) (fun x y => J x y ∨ J' x y) s s'' := by
  intro c hc
  obtain ⟨c', hc', hthings, hjoined⟩ := h c hc
  obtain ⟨c'', hc'', hthings', hjoined'⟩ := h' c' hc'
  refine ⟨c'', hc'', fun x => ?_, fun x y => ?_⟩
  · rw [hthings', hthings, or_assoc]
  · rw [hjoined', hjoined, or_assoc]

theorem Grows.congr (h : Grows T J s s') (hT : ∀ x, T x ↔ T' x) (hJ : ∀ x y, J x y ↔ J' x y) :
    Grows T' J' s s' := by
  intro c hc
  obtain ⟨c', hc', hthings, hjoined⟩ := h c hc
  exact ⟨c', hc', fun x => by rw [hthings, hT], fun x y => by rw [hjoined, hJ]⟩

theorem grows_add (h : s.add a a = .ok s') : Grows (· = a) (fun _ _ => False) s s' := by
  intro c hc
  exact ⟨_, hc.add_eq_ok (x := a) h, fun x => by simp, fun x y => by simp⟩

theorem grows_join (h : s.join source target = .ok s') :
    Grows (fun _ => False) (fun x y => x = source ∧ y = target) s s' := by
  intro c hc
  exact ⟨_, hc.join_eq_ok (x := source) (y := target) h, fun x => by simp, fun x y => by simp⟩

/-! ### The steps -/

theorem stepped_eq_ok {r : Except Soup.Fault Rings} :
    (stepped r).outcome lib = (.ok s, lib') ↔ r = .ok s ∧ lib = lib' := by
  cases r <;> simp [stepped]

theorem isAny_eq_ok {c : Bool} :
    (Library.isAny bs a).outcome lib = (.ok c, lib') ↔
      (∃ i, lib.instances.get? a = some i ∧ i.isAny bs = c) ∧ lib = lib' := by
  unfold Library.isAny
  simp only [bind_eq_ok, instanceAt_eq_ok, outcome_pure, Prod.mk.injEq,
    Except.ok.injEq]
  constructor
  · rintro ⟨i, _, ⟨hi, rfl⟩, hc, rfl⟩
    exact ⟨⟨i, hi, hc⟩, rfl⟩
  · rintro ⟨⟨i, hi, hc⟩, rfl⟩
    exact ⟨i, lib, ⟨hi, rfl⟩, hc, rfl⟩

/-- Work on rings that goes the same way in two libraries, takes the things of `T` in and joins
others. Below a block these are the pairs of `J`. -/
def Threads (e : Address) (lib lib' : Library) (T : Address → Prop) (J : Address → Address → Prop)
    (s : Rings) (w : Work Library Rings) : Prop :=
  InStep (fun _ => False) (Both lib lib') (fun s₁ s₂ => s₁ = s₂ ∧
    ∃ J', Grows T J' s s₁ ∧ (e.IsEntry → ∀ x y, J' x y ↔ J x y)) w w

namespace Threads

variable {w : Work Library Rings} {f : Rings → Work Library Rings}

theorem congr (h : Threads e lib lib' T J s w) (hT : ∀ x, T x ↔ T' x)
    (hJ : e.IsEntry → ∀ x y, J x y ↔ J' x y) : Threads e lib lib' T' J' s w := by
  refine Along.imp h fun s₁ s₂ ⟨hs, K, hgrows, hK⟩ => ⟨hs, K, ?_, fun he x y => ?_⟩
  · exact hgrows.congr hT fun _ _ => Iff.rfl
  · rw [hK he, hJ he]

theorem pure : Threads e lib lib' (fun _ => False) (fun _ _ => False) s (pure s) :=
  Along.pure ⟨rfl, _, .refl s, fun _ _ _ => Iff.rfl⟩

theorem bind (hw : Threads e lib lib' T J s w) (hf : ∀ s', Threads e lib lib' T' J' s' (f s')) :
    Threads e lib lib' (fun x => T x ∨ T' x) (fun x y => J x y ∨ J' x y) s (w >>= f) := by
  refine Along.bind hw fun s₁ _ ⟨hs, K, hgrows, hK⟩ => ?_
  subst hs
  refine Along.imp (hf s₁) fun s₂ _ ⟨hs, K', hgrows', hK'⟩ => ⟨hs, _, hgrows.trans hgrows', ?_⟩
  exact fun he x y => or_congr (hK he x y) (hK' he x y)

theorem join (x y : Address) : Threads e lib lib' (fun _ => False)
    (fun x' y' => x' = x ∧ y' = y) s (stepped (s.join x y)) := by
  cases hjoin : s.join x y with
  | ok s' => exact Along.pure ⟨rfl, _, grows_join hjoin, fun _ _ _ => Iff.rfl⟩
  | error f => exact Along.throw _

theorem add (a : Address) :
    Threads e lib lib' (· = a) (fun _ _ => False) s (stepped (s.add a a)) := by
  cases hadd : s.add a a with
  | ok s' => exact Along.pure ⟨rfl, _, grows_add hadd, fun _ _ _ => Iff.rfl⟩
  | error f => exact Along.throw _

theorem of_isAny (h : Shares files searched e lib lib') (ha : e.Tree a)
    {g : Bool → Work Library Rings}
    (hg : ∀ i, lib.instances.get? a = some i → Threads e lib lib' T J s (g (i.isAny bs))) :
    Threads e lib lib' T J s (Library.isAny bs a >>= g) := by
  refine (h.inStep_isAny ha bs).bind fun c _ hc => ?_
  obtain ⟨rfl, i, hi, rfl⟩ := hc
  exact hg i hi

theorem eq_ok (hw : Threads e lib lib' T J s w) (h : w.outcome lib = (.ok s', lib'')) :
    lib'' = lib ∧ ∃ J', Grows T J' s s' ∧ (e.IsEntry → ∀ x y, J' x y ↔ J x y) := by
  have hkeeps := InStep.keeps hw
  obtain ⟨_, -, hgrows⟩ := hkeeps.result rfl h
  exact ⟨hkeeps.state rfl h, hgrows⟩

end Threads

theorem ties_iff_of_not_isInterface (h : ¬IsInterface lib source) :
    Ties lib source target x y ↔ x = source ∧ y = target := by
  constructor
  · intro hties
    cases hties with
    | ends _ => exact ⟨rfl, rfl⟩
    | children hinterface _ _ _ => exact absurd hinterface h
  · rintro ⟨rfl, rfl⟩
    exact .ends h

theorem ties_iff_of_isInterface {i : Instance} (hi : lib.instances.get? source = some i)
    (hsource : i.isAny [.interface]) (htarget : IsInterface lib target) :
    Ties lib source target x y ↔
      ∃ n ∈ i.children, x = source.addInstance n ∧ y = target.addInstance n := by
  constructor
  · intro hties
    cases hties with
    | ends hnot => exact absurd ⟨i, hi, hsource⟩ hnot
    | children _ _ hj hn =>
      cases Option.some.inj (hi.symm.trans hj)
      exact ⟨_, hn, rfl, rfl⟩
  · rintro ⟨n, hn, rfl, rfl⟩
    exact .children ⟨i, hi, hsource⟩ htarget hi hn

section Shared

variable (h : Shares files searched e lib lib')

include h

theorem threads_joinChildren {ns : List String} (hns : AreNames ns) (hsource : e.Tree source) :
    Threads e lib lib' (fun _ => False)
      (fun x y => ∃ n ∈ ns, x = source.addInstance n ∧ y = target.addInstance n) s
      (joinChildren target s (ns.map source.addInstance)) := by
  induction ns generalizing s with
  | nil => exact Threads.pure.congr (fun _ => Iff.rfl) fun _ x y => by simp
  | cons n ns ih =>
    rw [areNames_cons] at hns
    refine .of_isAny h (hsource.addInstance hns.1) fun i hi => ?_
    split
    · rw [Address.name_addInstance _ hns.1]
      refine ((Threads.join _ _).bind fun s' => ih hns.2).congr (fun _ => by simp) fun _ x y => ?_
      simp only [mem_cons, exists_eq_or_imp]
    · exact Along.throw _

theorem threads_joinLink (hsource : e.Tree source) (htarget : e.Tree target) :
    Threads e lib lib' (fun _ => False) (Ties lib source target) s (joinLink s source target) := by
  refine .of_isAny h hsource fun i hi => ?_
  split
  · next hinterface =>
      refine .of_isAny h htarget fun j hj => ?_
      split
      · next hinterface' =>
          refine (h.inStep_children hsource).bind fun ks _ hks => ?_
          obtain ⟨rfl, x, i', hx, hself, hi', rfl⟩ := hks
          refine (threads_joinChildren h (h.left.sound.instances _ i' hi').2.children hx).congr
            (fun _ => Iff.rfl) fun he x' y' => ?_
          obtain rfl := hself he
          cases Option.some.inj (hi.symm.trans hi')
          exact (ties_iff_of_isInterface hi hinterface ⟨j, hj, hinterface'⟩).symm
      · exact Along.throw _
  · next hinterface =>
      refine (Threads.join source target).congr (fun _ => Iff.rfl) fun _ x y =>
        (ties_iff_of_not_isInterface ?_).symm
      rintro ⟨j, hj, hj'⟩
      cases Option.some.inj (hi.symm.trans hj)
      exact hinterface hj'

theorem threads_joinLinks {ks : List Link} (hks : ∀ k ∈ ks, e.Tree k.source ∧ e.Tree k.target) :
    Threads e lib lib' (fun _ => False) (fun x y => ∃ k ∈ ks, Ties lib k.source k.target x y) s
      (joinLinks s (ks.map fun k => (k.source, k.target))) := by
  induction ks generalizing s with
  | nil => exact Threads.pure.congr (fun _ => Iff.rfl) fun _ x y => by simp
  | cons k ks ih =>
    rw [forall_mem_cons] at hks
    refine ((threads_joinLink h hks.1.1 hks.1.2).bind fun s' => ih hks.2).congr (fun _ => by simp)
      fun _ x y => ?_
    simp only [mem_cons, exists_eq_or_imp]

/-- Going through instances takes the pins and signals among them in and joins what their
links tie together. -/
theorem threads_ringsOf (has : ∀ a ∈ as, e.Tree a) :
    Threads e lib lib' (fun x => x ∈ as ∧ IsTerminal lib x)
      (fun x y => ∃ a ∈ as, TiedAt lib a x y) s (ringsOf s as) := by
  induction as generalizing s with
  | nil => exact Threads.pure.congr (fun x => by simp) fun _ x y => by simp
  | cons a as ih =>
    rw [forall_mem_cons] at has
    -- the links of the instance and the instances after it
    have hlinks : ∀ s₁, Threads e lib lib' (fun x => x ∈ as ∧ IsTerminal lib x)
        (fun x y => ∃ b ∈ a :: as, TiedAt lib b x y) s₁
        (Library.linksOf a >>= fun ls => joinLinks s₁ ls >>= fun s₂ => ringsOf s₂ as) := by
      intro s₁
      have hat : InStep (fun _ => False) (Both lib lib') (fun ls ls' => ls = ls' ∧
          ∃ i, lib.instances.get? a = some i ∧ ls = i.links.map fun k => (k.source, k.target))
          (Library.linksOf a) (Library.linksOf a) :=
        (h.inStep_instanceAt has.1).bind fun i _ hij => .pure ⟨by rw [hij.1], i, hij.2, rfl⟩
      refine hat.bind fun ls _ hls => ?_
      obtain ⟨rfl, i, hi, rfl⟩ := hls
      refine ((threads_joinLinks h (h.tree_of_links has.1 hi)).bind fun s₂ => ih has.2).congr
        (fun x => by simp) fun _ x y => ?_
      simp only [mem_cons, exists_eq_or_imp]
      exact or_congr_left (by simp [TiedAt, hi])
    refine .of_isAny h has.1 fun i hi => ?_
    have hterminal : IsTerminal lib a ↔ i.isAny [.pin, .signal] = true := by
      simp [IsTerminal, hi]
    split
    · next hi' =>
        refine ((Threads.add a).bind hlinks).congr (fun x => ?_) fun _ x y => by simp
        simp only [mem_cons, or_and_right]
        refine or_congr_left ⟨?_, And.left⟩
        rintro rfl
        exact ⟨rfl, hterminal.2 hi'⟩
    · next hi' =>
        refine (hlinks s).congr (fun x => ?_) fun _ x y => Iff.rfl
        simp only [mem_cons, or_and_right]
        refine ⟨Or.inr, fun hx => hx.resolve_left ?_⟩
        rintro ⟨rfl, hroot⟩
        exact hi' (hterminal.1 hroot)

/-- Libraries that share the tree of a root have the same nets below it. -/
theorem inStep_below : InStep (fun _ => True) (Both lib lib') Eq (below e) (below e) := by
  refine h.inStep_descendants.bind fun as _ has => ?_
  obtain ⟨rfl, has⟩ := has
  refine (threads_ringsOf h has).mirrored.inStep.bind fun s _ hs => .pure ?_
  rw [hs.1]

end Shared

/-! ### The instances that are gone through have places -/

theorem keeps_stepped (r : Except Soup.Fault Rings) :
    Guards (Sound files searched) (stepped r) := by
  cases r with
  | ok s => exact .pure trivial
  | error f => exact .throw _

theorem keeps_isAny (bs : List Builtin) (a : Address) :
    Keeps (Sound files searched) (fun _ => a.IsPlace) (Library.isAny bs a) :=
  (Sound.keeps_instanceAt a).bind fun _ ha => .pure ha

theorem keeps_joinChildren (target : Address) (s : Rings) (as : List Address) :
    Guards (Sound files searched) (joinChildren target s as) := by
  induction as generalizing s with
  | nil => exact .pure trivial
  | cons a as ih =>
    refine (keeps_isAny _ a).bind fun c _ => ?_
    split
    · exact (keeps_stepped _).bind fun s' _ => ih s'
    · exact .throw _

theorem keeps_joinLinks (s : Rings) (ls : List (Address × Address)) :
    Guards (Sound files searched) (joinLinks s ls) := by
  have hlink : ∀ s source target,
      Guards (Sound files searched) (joinLink s source target) := by
    intro s source target
    refine (keeps_isAny _ source).bind fun c _ => ?_
    split
    · refine (keeps_isAny _ target).bind fun c _ => ?_
      split
      · exact (keeps_children Sound.keeps_tree source).bind fun as _ => keeps_joinChildren target s as
      · exact .throw _
    · exact keeps_stepped _
  induction ls generalizing s with
  | nil => exact .pure trivial
  | cons l ls ih => exact (hlink s l.1 l.2).bind fun s' _ => ih s'

theorem keeps_ringsOf (s : Rings) (as : List Address) :
    Keeps (Sound files searched) (fun _ => ∀ a ∈ as, a.IsPlace) (ringsOf s as) := by
  induction as generalizing s with
  | nil => exact .pure (by simp)
  | cons a as ih =>
    refine (keeps_isAny _ a).bind fun c ha => ?_
    have hrest : ∀ s₁, Keeps (Sound files searched)
        (fun _ => ∀ b ∈ a :: as, b.IsPlace)
        (Library.linksOf a >>= fun ls => joinLinks s₁ ls >>= fun s₂ => ringsOf s₂ as) := by
      intro s₁
      refine ((Sound.keeps_instanceAt a).bind fun _ _ =>
        Keeps.pure (P := fun _ => True) trivial).bind fun ls _ => ?_
      exact (keeps_joinLinks s₁ ls).bind fun s₂ _ => (ih s₂).imp fun _ has =>
        forall_mem_cons.2 ⟨ha, has⟩
    split
    · exact (keeps_stepped _).bind fun s₁ _ => hrest s₁
    · exact hrest s

/-! ### The nets below a root -/

theorem isPlace_of_below (hs : Sound files searched lib)
    (h : (below root).outcome lib = (.ok nets, lib')) : root.IsPlace := by
  obtain ⟨as, lib₂, has, hrings⟩ := bind_eq_ok.1 h
  obtain ⟨s, lib₃, hsteps, -⟩ := bind_eq_ok.1 hrings
  have hkeep : Keeps (Sound files searched) (fun as => root ∈ as)
      (Library.descendants root) := keeps_descendants Sound.keeps_tree root
  exact (keeps_ringsOf {} as).result (hkeep.state hs has) hsteps root (hkeep.result hs has)

/-- The nets come of taking in the pins and signals that the walk meets and, below a block, of
joining what the links of all that it meets tie together. -/
theorem exists_history (hlib : Reached files searched lib) (ha : r.Tree a)
    (h : (below a).outcome lib = (.ok nets, lib')) :
    ∃ (as : List Address) (s : Rings) (history : History Address),
      (Library.descendants a).outcome lib = (.ok as, lib') ∧
      (below a).outcome lib' = (.ok nets, lib') ∧ nets = s.groups ∧ Tells id s history ∧
      (∀ x, x ∈ history.things ↔ x ∈ as ∧ IsTerminal lib' x) ∧
      (r.IsEntry → ∀ x y, (x, y) ∈ history.joined ↔ ∃ b ∈ as, TiedAt lib' b x y) := by
  obtain ⟨as, lib₁, has, h⟩ := bind_eq_ok.1 h
  obtain ⟨s, lib₂, hs, hend⟩ := bind_eq_ok.1 h
  cases hend
  obtain ⟨hshares, hagain, htree⟩ := hlib.descendants_tree ha has
  obtain ⟨rfl, J, hgrows, hJ⟩ := (threads_ringsOf hshares htree).eq_ok hs
  obtain ⟨history, htells, hthings, hjoined⟩ := hgrows {} (Tells.empty id)
  refine ⟨as, s, history, has, ?_, rfl, htells, fun x => by simp [hthings], fun hr x y => ?_⟩
  · exact bind_eq_ok.2 ⟨as, _, hagain, bind_eq_ok.2 ⟨s, _, hs, rfl⟩⟩
  · rw [hjoined, hJ hr]
    exact ⟨fun hxy => hxy.resolve_left not_mem_nil, Or.inr⟩

/-- Each pin and each signal that the walk meets is on one net, and nothing else is. -/
theorem below_eq_ok (hlib : Reached files searched lib) (ha : r.Tree a)
    (h : (below a).outcome lib = (.ok nets, lib')) :
    ∃ as, (Library.descendants a).outcome lib = (.ok as, lib') ∧
      (below a).outcome lib' = (.ok nets, lib') ∧ nets.flatten.Nodup ∧
      ∀ x, x ∈ nets.flatten ↔ x ∈ as ∧ IsTerminal lib' x := by
  obtain ⟨as, s, history, has, hagain, rfl, htells, hthings, -⟩ := exists_history hlib ha h
  have hperm := htells.groups_perm
  exact ⟨as, has, hagain, hperm.nodup_iff.2 htells.nodup_things,
    fun x => by simp [hperm.mem_iff, hthings]⟩

/-- Below a root that names a block, the pins and signals below the root are taken in and what is
wired is joined. -/
theorem exists_history_of_below (hlib : Reached files searched lib)
    (hroot : root.entrySection.any (· ≠ "") = true)
    (h : (below root).outcome lib = (.ok nets, lib')) :
    ∃ (s : Rings) (history : History Address), nets = s.groups ∧ Tells id s history ∧
      (∀ x, x ∈ history.things ↔ lib'.Within root x ∧ IsTerminal lib' x) ∧
      history.Joined id = Wired lib' root := by
  obtain ⟨e, q, he, hq, rfl⟩ := isPlace_of_below hlib.sound h
  have htop : e.Tree (e.addInstances q) := ⟨he, q, hq, rfl⟩
  have hentry : e.IsEntry := by
    refine he.resolve_left fun hfile => Address.not_isFile_entry hroot ?_
    rwa [hfile.entry_addInstances]
  obtain ⟨as, s, history, has, -, hnets, htells, hthings, hjoined⟩ := exists_history hlib htop h
  obtain ⟨hshares, hagain, -⟩ := hlib.descendants_tree htop has
  rw [Shares.outcome_descendants htop hshares.there] at hagain
  obtain ⟨-, hmem⟩ :=
    descendantsWithin_eq_ok hshares.left.sound hentry hshares.there hq hagain
  refine ⟨s, history, hnets, htells, fun x => by rw [hthings, hmem], ?_⟩
  funext x y
  rw [eq_iff_iff, History.Joined, Wired]
  simp only [← hmem]
  constructor
  · rintro ⟨p, hp, rfl, rfl⟩
    exact (hjoined hentry p.1 p.2).1 hp
  · intro hxy
    exact ⟨(x, y), (hjoined hentry x y).2 hxy, rfl, rfl⟩

/-- The nets below a root that names a block: no pin or signal below the root is missing or
there twice, nothing else is there, and two of them are in one net exactly if they are
connected by what the links below the root tie together. -/
theorem below_connected {nets : List (List Address)} (hlib : Library.Reached files searched lib)
    (hroot : root.entrySection.any (· ≠ "") = true)
    (h : (below root).outcome lib = (.ok nets, lib')) :
    nets.flatten.Nodup ∧ [] ∉ nets ∧
      (∀ a, a ∈ nets.flatten ↔ lib'.Within root a ∧ IsTerminal lib' a) ∧
      ∀ a ∈ nets.flatten, ∀ b ∈ nets.flatten,
        (∃ net ∈ nets, a ∈ net ∧ b ∈ net) ↔ EqvGen (Wired lib' root) a b := by
  obtain ⟨s, history, rfl, htells, hthings, hwired⟩ := exists_history_of_below hlib hroot h
  have hperm := htells.groups_perm
  refine ⟨hperm.nodup_iff.2 htells.nodup_things, htells.nil_not_mem_groups, fun a => ?_, ?_⟩
  · simp [hperm.mem_iff, hthings]
  · intro a ha b hb
    rw [htells.exists_group_iff_joined (hperm.mem_iff.1 ha) (hperm.mem_iff.1 hb), hwired]
    rfl

/-- Two interfaces that are linked, a signal on one of them, and a signal apart. -/
def bridge : Library where
  files.texts := ⟨[(["f"], "interface P:\n  signal v\nmodule M:\n  a = new P\n  b = new P\n" ++
    "  a ~ b\n  signal s ~ a.v\n  signal t\n")]⟩

theorem below_connected_bridge :
    ∃ lib', (below ⟨"f:M"⟩).outcome bridge =
        (.ok [[⟨"f:M::a.v"⟩, ⟨"f:M::s"⟩, ⟨"f:M::b.v"⟩], [⟨"f:M::t"⟩]], lib') ∧
      EqvGen (Wired lib' ⟨"f:M"⟩) ⟨"f:M::s"⟩ ⟨"f:M::b.v"⟩ ∧
      ¬EqvGen (Wired lib' ⟨"f:M"⟩) ⟨"f:M::s"⟩ ⟨"f:M::t"⟩ := by
  have h := Work.outcome_eq_ok_of_toOption (w := below ⟨"f:M"⟩) (s := bridge)
    (x := [[⟨"f:M::a.v"⟩, ⟨"f:M::s"⟩, ⟨"f:M::b.v"⟩], [⟨"f:M::t"⟩]]) (by decide +kernel)
  obtain ⟨-, -, -, hjoined⟩ := below_connected .fresh (by decide +kernel) h
  refine ⟨_, h, ?_, ?_⟩
  · rw [← hjoined _ (by decide) _ (by decide)]
    decide
  · rw [← hjoined _ (by decide) _ (by decide)]
    decide

end Boardwright.Net
