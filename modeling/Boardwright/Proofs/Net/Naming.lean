import Boardwright.Proofs.Net.Voting
import Mathlib.Data.List.Pairwise

/-!
# No net is lost to its name

The name that the signals of a net vote for is a word, and so is the name of a net without
signals. No word has a hyphen in it, so a word with a number after a hyphen is read back as this
word and this number: `numbered_injective`. A net is given the number of the nets of its name
before it, so no two nets have the same name and number: `nodup_tellApart`. Hence each net has an
entry of its own in the table of nets by name.

A pin or a signal is on one net only, so its net can be found by it, and the name that is found
is the one under which the net stands in the table.
-/

namespace Boardwright

open Work Library List

namespace Net

variable {files : Files} {searched : List Route} {lib lib' : Library} {a r : Address}
  {b c : String} {m n : Nat} {seen ns : List String}

/-! ### Names told apart -/

theorem toList_numbered (b : String) (n : Nat) :
    (numbered b n).toList = b.toList ++ if n = 0 then [] else '-' :: (toString n).toList := by
  unfold numbered
  split <;> simp

/-- A name without a hyphen and a number are read back from the name with the number. -/
theorem numbered_injective (hb : '-' ∉ b.toList) (hc : '-' ∉ c.toList)
    (h : numbered b m = numbered c n) : b = c ∧ m = n := by
  have hread : ∀ (x : String) (k : Nat), '-' ∉ x.toList →
      (numbered x k).toList.takeWhile (· ≠ '-') = x.toList := by
    intro x k hx
    have hall : ∀ y ∈ x.toList, decide (y ≠ '-') = true :=
      fun y hy => decide_eq_true (ne_of_mem_of_not_mem hy hx)
    rw [toList_numbered, takeWhile_append_of_pos hall]
    split <;> simp
  obtain rfl : b = c := String.toList_inj.1 (by rw [← hread b m hb, ← hread c n hc, h])
  have hnumbers := congrArg String.toList h
  rw [toList_numbered, toList_numbered, append_cancel_left_eq] at hnumbers
  split at hnumbers <;> split at hnumbers
  · next hm hn => exact ⟨rfl, hm.trans hn.symm⟩
  · cases hnumbers
  · cases hnumbers
  · exact ⟨rfl, Text.toString_injective (String.toList_inj.1 (List.cons.inj hnumbers).2)⟩

theorem length_tellApart (seen ns : List String) : (tellApart seen ns).length = ns.length := by
  induction ns generalizing seen with
  | nil => rfl
  | cons n ns ih => simp [tellApart, ih]

/-- A name gets a number that no equal name before it has got. -/
theorem exists_of_mem_tellApart {x : String} (hx : x ∈ tellApart seen ns) :
    ∃ b ∈ ns, ∃ k, seen.count b ≤ k ∧ x = numbered b k := by
  induction ns generalizing seen with
  | nil => exact absurd hx not_mem_nil
  | cons b ns ih =>
    rcases mem_cons.1 hx with rfl | hx
    · exact ⟨b, mem_cons_self, _, Nat.le_refl _, rfl⟩
    · obtain ⟨c, hc, k, hk, rfl⟩ := ih hx
      exact ⟨c, mem_cons_of_mem b hc, k, Nat.le_trans count_le_count_cons hk, rfl⟩

theorem nodup_tellApart (hns : ∀ b ∈ ns, '-' ∉ b.toList) (seen : List String) :
    (tellApart seen ns).Nodup := by
  induction ns generalizing seen with
  | nil => exact nodup_nil
  | cons b ns ih =>
    rw [forall_mem_cons] at hns
    rw [tellApart, nodup_cons]
    refine ⟨fun hmem => ?_, ih hns.2 _⟩
    obtain ⟨c, hc, k, hk, heq⟩ := exists_of_mem_tellApart hmem
    obtain ⟨rfl, rfl⟩ := numbered_injective hns.1 (hns.2 c hc) heq
    rw [count_cons_self] at hk
    omega

/-! ### The name of a net -/

theorem isWord_baseNameIn (hs : Sound files searched lib) (net : List Address) :
    IsWord (baseNameIn lib net) := by
  rcases (baseNameIn_greatest lib net).2 with ⟨a, -, hsignal, hname⟩ | ⟨-, hname⟩
  · obtain ⟨i, hi, hi'⟩ := made_iff.1 hsignal
    rw [← hname]
    exact hs.isWord_name hi (by simpa [Instance.isAny] using hi')
  · rw [hname]
    decide

/-- Each net has an entry of its own. -/
theorem namedIn_entries (hs : Sound files searched lib) (nets : List (List Address)) :
    (namedIn lib nets).keys.Nodup ∧ (namedIn lib nets).values = nets := by
  have hlength : (tellApart [] (nets.map (baseNameIn lib))).length = nets.length := by
    rw [length_tellApart, length_map]
  have hdash : ∀ b ∈ nets.map (baseNameIn lib), '-' ∉ b.toList := by
    intro b hb
    obtain ⟨net, -, rfl⟩ := mem_map.1 hb
    exact (isWord_baseNameIn hs net).not_mem (by decide) (by decide)
  have hnodup := nodup_tellApart hdash []
  have hentries : (namedIn lib nets).entries =
      (tellApart [] (nets.map (baseNameIn lib))).zip nets := by
    apply Table.entries_ofList
    rwa [map_fst_zip (Nat.le_of_eq hlength)]
  constructor
  · rwa [Table.keys, hentries, map_fst_zip (Nat.le_of_eq hlength)]
  · rw [Table.values, hentries, map_snd_zip (Nat.le_of_eq hlength.symm)]

/-! ### The net of a pin or a signal -/

variable {e : Address} {t : Table String (List Address)} {x : String}

/-- Of lists that have nothing twice, not more than one has a thing. -/
theorem eq_of_nodup_flatten {α β : Type} {f : α → List β} {xs : List α} {x y : α} {z : β}
    (h : (xs.map f).flatten.Nodup) (hx : x ∈ xs) (hy : y ∈ xs) (hzx : z ∈ f x) (hzy : z ∈ f y) :
    x = y := by
  have hpair : xs.Pairwise fun x y => (f x).Disjoint (f y) :=
    pairwise_map.1 (nodup_flatten.1 h).2
  have : Std.Symm fun x y => (f x).Disjoint (f y) := ⟨fun _ _ hxy _ hy hx => hxy hx hy⟩
  by_contra hne
  exact hpair.forall hx hy hne hzx hzy

theorem exists_of_byName (hlib : Reached files searched lib) (he : e.entry = e)
    (h : (byName e).outcome lib = (.ok t, lib')) :
    ∃ nets, e.isInstance = false ∧ (below e).outcome lib' = (.ok nets, lib') ∧
      t = namedIn lib' nets ∧ Shares files searched e lib' lib' ∧
      nets.flatten.Nodup ∧ ∀ net ∈ nets, ∀ a ∈ net, e.Tree a := by
  unfold byName at h
  split at h
  · cases h
  · next hinstance =>
      obtain ⟨nets, lib₁, hbelow, hnamed⟩ := bind_eq_ok.1 h
      obtain ⟨r, q, hr, hq, rfl⟩ := isPlace_of_below hlib.sound hbelow
      rw [hr.entry_addInstances hq] at he
      rw [← he] at hinstance hbelow ⊢
      have hself : r.Tree r := ⟨hr, .refl r⟩
      obtain ⟨as, has, hagain, hnodup, hmem⟩ := below_eq_ok hlib hself hbelow
      obtain ⟨hshares, -, htree⟩ := hlib.descendants_tree hself has
      obtain rfl := (reads_named nets).state rfl hnamed
      refine ⟨nets, by simpa using hinstance, hagain, (reads_named nets).result rfl hnamed, hshares,
        hnodup, ?_⟩
      intro net hnet a ha
      exact htree a ((hmem a).1 (mem_flatten_of_mem hnet ha)).1

/-- While the tree of an entry stays, its nets keep their names. -/
theorem byName_of_later (hlib : Reached files searched lib) (he : e.entry = e)
    (h : (byName e).outcome lib = (.ok t, lib')) {now : Library} (hnow : Later lib' now) :
    (byName e).outcome now = (.ok t, now) := by
  obtain ⟨nets, hinstance, hbelow, rfl, hshares, -, htree⟩ := exists_of_byName hlib he h
  have hsame := hnow.shares hshares.root hshares.left hshares.there
  obtain ⟨_, _, hbelow', ⟨-, rfl⟩, rfl⟩ := (inStep_below hsame).exists_ok ⟨rfl, rfl⟩ hbelow
  obtain ⟨as, has, -, -, hmem⟩ := below_eq_ok hsame.right ⟨hsame.root, .refl e⟩ hbelow'
  obtain ⟨-, -, -, hwithin⟩ := hsame.right.descendants_eq_ok hsame.root has
  have hnets : ∀ net ∈ nets, ∀ a ∈ net, Library.Within _ e a :=
    fun net hnet a ha => (hwithin a).1 ((hmem a).1 (mem_flatten_of_mem hnet ha)).1
  have hnamed := outcome_named hsame.right hsame.root hsame.there_right hnets
  unfold byName
  rw [hinstance, namedIn_congr hsame htree]
  exact bind_eq_ok.2 ⟨nets, _, hbelow', hnamed⟩

/-- The net that is found by a pin or a signal on it is the only one that this is on. -/
theorem nameOf_eq_ok_iff (ha : a.entry = e) (ht : (byName e).outcome lib = (.ok t, lib'))
    (hkeys : t.keys.Nodup) (hnodup : t.values.flatten.Nodup) :
    (nameOf a).outcome lib = (.ok x, lib') ↔ ∃ net, t.get? x = some net ∧ a ∈ net := by
  have hunique : ∀ p ∈ t.entries, ∀ q ∈ t.entries, a ∈ p.2 → a ∈ q.2 → p = q :=
    fun p hp q hq => eq_of_nodup_flatten hnodup hp hq
  have hfound : ∀ p : String × List Address,
      t.entries.reverse.find? (fun p => p.2.contains a) = some p ↔
        p ∈ t.entries ∧ a ∈ p.2 := by
    intro p
    constructor
    · intro hp
      have hmem := mem_of_find?_eq_some hp
      have hon := find?_some hp
      exact ⟨by simpa using hmem, by simpa using hon⟩
    · rintro ⟨hp, hap⟩
      cases hfind : t.entries.reverse.find? (fun p => p.2.contains a) with
      | none =>
        have hnone := find?_eq_none.1 hfind p (by simpa using hp)
        exact absurd hap (by simpa using hnone)
      | some q =>
        have hmem := mem_of_find?_eq_some hfind
        have hon := find?_some hfind
        rw [hunique p hp q (by simpa using hmem) hap (by simpa using hon)]
  unfold nameOf
  rw [ha, outcome_bind_ok _ ht]
  simp only [Table.get?_eq_some_iff hkeys]
  split
  · next name net hfind =>
      have hp := (hfound _).1 hfind
      constructor
      · intro h
        cases h
        exact ⟨net, hp⟩
      · rintro ⟨net', hentry, hon⟩
        cases hunique _ hp.1 _ hentry hp.2 hon
        rfl
  · next hnone =>
      constructor
      · intro h
        cases h
      · rintro ⟨net, hentry, hon⟩
        rw [(hfound (x, net)).2 ⟨hentry, hon⟩] at hnone
        cases hnone

/-- No net is lost to a name. Nets over a tree that is there are named, each under a name of its
own. Where the nets of an entry have been named, they are found under the same names before and
at any later time, and a pin or a signal on one of them is on the net of a name exactly if this
is the name that is found by it. -/
theorem byName_iff_nameOf (hlib : Reached files searched lib) :
    (∀ root nets, root.IsRoot → lib.instances.contains root →
      (∀ net ∈ nets, ∀ a ∈ net, lib.Within root a) →
      ∃ t, (named nets).outcome lib = (.ok t, lib) ∧ t.keys.Nodup ∧ t.values = nets) ∧
    ∀ entry t lib', entry.entry = entry → (byName entry).outcome lib = (.ok t, lib') →
      ∀ now, now = lib ∨ Later lib' now →
        ∃ after, (byName entry).outcome now = (.ok t, after) ∧
          ∀ net ∈ t.values, ∀ node ∈ net, ∀ name,
            (∃ net, t.get? name = some net ∧ node ∈ net) ↔
              (nameOf node).outcome now = (.ok name, after) := by
  constructor
  · intro root nets hr hc hnets
    exact ⟨_, outcome_named hlib hr hc hnets, namedIn_entries hlib.sound nets⟩
  · intro entry t lib' he ht now hnow
    obtain ⟨nets, -, -, hnamed, hshares, hnodup, htree⟩ := exists_of_byName hlib he ht
    obtain ⟨hkeys, hvalues⟩ := namedIn_entries hshares.left.sound nets
    rw [← hnamed] at hkeys hvalues
    subst hvalues
    obtain ⟨after, hafter⟩ : ∃ after, (byName entry).outcome now = (.ok t, after) := by
      rcases hnow with rfl | hlater
      · exact ⟨lib', ht⟩
      · exact ⟨now, byName_of_later hlib he ht hlater⟩
    refine ⟨after, hafter, fun net hnet node hnode name => ?_⟩
    have hentry := (htree net hnet node hnode).entry_eq
    exact (nameOf_eq_ok_iff hentry hafter hkeys hnodup).symm

/-- Two instances of a module with a signal. -/
def twins : Library where
  files.texts := ⟨[(["f"], "module A:\n signal s\nmodule M:\n a = new A\n b = new A\n")]⟩

/-- Two nets vote for one name, and neither is lost. -/
theorem byName_iff_nameOf_twins :
    (∃ lib t, (named [[⟨"f:M::b.s"⟩], [⟨"f:M::a.s"⟩]]).outcome lib = (.ok t, lib) ∧
      t.keys.Nodup ∧ t.values = [[⟨"f:M::b.s"⟩], [⟨"f:M::a.s"⟩]]) ∧
    ∃ lib', (byName ⟨"f:M"⟩).outcome twins =
        (.ok ⟨[("s", [⟨"f:M::a.s"⟩]), ("s-1", [⟨"f:M::b.s"⟩])]⟩, lib') ∧
      ∀ now, Later lib' now → ∃ after, (nameOf ⟨"f:M::b.s"⟩).outcome now = (.ok "s-1", after) := by
  have hruns : ((descendants ⟨"f:M"⟩).outcome twins).1.toOption =
        some [⟨"f:M::a.s"⟩, ⟨"f:M::a"⟩, ⟨"f:M::b.s"⟩, ⟨"f:M::b"⟩, ⟨"f:M"⟩] ∧
      ((byName ⟨"f:M"⟩).outcome twins).1.toOption =
        some ⟨[("s", [⟨"f:M::a.s"⟩]), ("s-1", [⟨"f:M::b.s"⟩])]⟩ := by decide +kernel
  have hr : Address.IsRoot ⟨"f:M"⟩ := Or.inr ⟨['f'], ['M'], by decide⟩
  constructor
  · obtain ⟨hlib, hc, -, hmem⟩ := Reached.descendants_eq_ok .fresh hr
      (outcome_eq_ok_of_toOption hruns.1)
    refine ⟨_, (byName_iff_nameOf hlib).1 ⟨"f:M"⟩ _ hr hc ?_⟩
    simp [← hmem]
  · have hnames := outcome_eq_ok_of_toOption hruns.2
    refine ⟨_, hnames, fun now hnow => ?_⟩
    obtain ⟨after, -, hnode⟩ := (byName_iff_nameOf .fresh).2 ⟨"f:M"⟩ _ _ (by decide) hnames now
      (Or.inr hnow)
    have hon := hnode [⟨"f:M::b.s"⟩] (by decide) ⟨"f:M::b.s"⟩ (by decide) "s-1"
    exact ⟨after, hon.1 ⟨[⟨"f:M::b.s"⟩], by decide⟩⟩

end Net

end Boardwright
