import Boardwright.Proofs.Ring.Basic

/-!
# Joining rings

A soup is woven if every thing stands in a ring. Then the rings are classes: two rings
that share a thing have the same things. All ways of joining that change anything are
one, `splice`: the ring of `y` is opened before `y`, that of `x` after `x`, and the
four ends are linked crosswise. The links to all other things stay, so the rings of
things outside the two are untouched.

`Woven.join` says what joining does to a woven soup: it never finds a ring broken, it
keeps the soup woven, and it makes one class of the classes of the two things.
-/

open List

namespace Boardwright.Soup

variable {κ α : Type} [BEq κ] [LawfulBEq κ] {s t : Soup κ α} {a b k n x y z : κ}

/-! ### Links made anew -/

theorem after?_link (s : Soup κ α) (k n j : κ) :
    (s.link k n).after? j = if j == k then (s.after? j).map fun _ => n else s.after? j := by
  simp only [after?, link, setAfter, setBefore, Table.get?_modify]
  by_cases hn : j == n <;> by_cases hk : j == k <;> simp [hn, hk, Function.comp_def]

theorem before?_link (s : Soup κ α) (k n j : κ) :
    (s.link k n).before? j = if j == n then (s.before? j).map fun _ => k else s.before? j := by
  simp only [before?, link, setAfter, setBefore, Table.get?_modify]
  by_cases hn : j == n <;> by_cases hk : j == k <;> simp [hn, hk, Function.comp_def]

omit [LawfulBEq κ] in
@[simp] theorem keys_link (s : Soup κ α) (k n : κ) : (s.link k n).cells.keys = s.cells.keys := by
  simp [link, setAfter, setBefore]

theorem value_link (s : Soup κ α) (k n j : κ) :
    ((s.link k n).cells.get? j).map (·.value) = (s.cells.get? j).map (·.value) := by
  simp only [link, setAfter, setBefore, Table.get?_modify]
  by_cases hn : j == n <;> by_cases hk : j == k <;> simp [hn, hk, Function.comp_def]

theorem linked_link (hk : k ∈ s.cells.keys) (hn : n ∈ s.cells.keys) :
    (s.link k n).Linked k n := by
  obtain ⟨c, hc⟩ := Table.mem_keys_iff.1 hk
  obtain ⟨d, hd⟩ := Table.mem_keys_iff.1 hn
  constructor
  · rw [after?_link]
    simp [after?, hc]
  · rw [before?_link]
    simp [before?, hd]

theorem Linked.link_of_ne (h : s.Linked x y) (hx : x ≠ k) (hy : y ≠ n) :
    (s.link k n).Linked x y := by
  constructor
  · rw [after?_link, if_neg (by simpa using hx), h.1]
  · rw [before?_link, if_neg (by simpa using hy), h.2]

/-! ### Splicing two rings -/

/-- The soup in which `y` follows `x`, and what followed `x` follows what was before
`y`. -/
def splice (s : Soup κ α) (x y : κ) : Soup κ α := (s.link x y).link (s.prev y) (s.next x)

omit [LawfulBEq κ] in
@[simp] theorem keys_splice (s : Soup κ α) (x y : κ) :
    (s.splice x y).cells.keys = s.cells.keys := by
  simp [splice]

theorem value_splice (s : Soup κ α) (x y j : κ) :
    ((s.splice x y).cells.get? j).map (·.value) = (s.cells.get? j).map (·.value) := by
  rw [splice, value_link, value_link]

section Splice

variable {u w px nx : κ} {xs ys l : List κ}

/-- A link to anything but the two things where the rings are opened stays. -/
theorem Linked.splice (h : s.Linked u w) (hx : s.Linked x nx) (hy : s.Linked px y)
    (hwy : w ≠ y) (hwn : w ≠ nx) : (s.splice x y).Linked u w := by
  have hux : u ≠ x := fun e => hwn (h.right_unique (e ▸ hx))
  have hup : u ≠ px := fun e => hwy (h.right_unique (e ▸ hy))
  rw [Soup.splice, hx.next_eq, hy.prev_eq]
  exact (h.link_of_ne hux hwy).link_of_ne hup hwn

theorem linked_splice (hx : s.Linked x nx) (hy : s.Linked px y) (hxp : x ≠ px) (hyn : y ≠ nx) :
    (s.splice x y).Linked x y ∧ (s.splice x y).Linked px nx := by
  have hxk : x ∈ s.cells.keys := mem_keys_of_after? hx.1
  have hyk : y ∈ s.cells.keys := mem_keys_of_before? hy.2
  have hpk : px ∈ s.cells.keys := mem_keys_of_after? hy.1
  have hnk : nx ∈ s.cells.keys := mem_keys_of_before? hx.2
  rw [splice, hx.next_eq, hy.prev_eq]
  exact ⟨(linked_link hxk hyk).link_of_ne hxp hyn,
    linked_link (by simpa using hpk) (by simpa using hnk)⟩

theorem IsRing.splice (hx : s.IsRing x xs) (hy : s.IsRing y ys)
    (hd : ∀ k ∈ x :: xs, k ∉ y :: ys) : (s.splice x y).IsRing x (y :: ys ++ xs) := by
  obtain ⟨nx, hnx, hxn⟩ := hx.runs.exists_linked_first
  obtain ⟨py, hpy, hyp⟩ := hy.runs.exists_linked_last
  have hnx' : nx ∈ x :: xs := by simpa [or_comm] using hnx
  have hxp : x ≠ py := fun e => hd x (by simp) (e ▸ hpy)
  have hyn : y ≠ nx := fun e => hd nx hnx' (by simp [← e])
  obtain ⟨hxy, hpn⟩ := linked_splice hxn hyp hxp hyn
  -- the run through the ring of `y` now ends at `nx` instead of `y`
  have hrun : (s.splice x y).Runs y ys nx := by
    refine hy.runs.redirect ?_ ?_
    · intro u w hw h
      refine h.splice hxn hyp ?_ ?_
      · rintro rfl
        exact (nodup_cons.1 hy.nodup).1 hw
      · rintro rfl
        exact hd w hnx' (mem_cons_of_mem y hw)
    · intro u h
      rw [h.left_unique hyp]
      exact hpn
  have hperm : (x :: ((y :: ys) ++ xs)).Perm (x :: (xs ++ y :: ys)) :=
    List.Perm.cons x perm_append_comm
  refine ⟨⟨hxy, ?_⟩, ?_⟩
  · change (s.splice x y).Runs y (ys ++ xs) x
    cases xs with
    | nil =>
      obtain rfl : nx = x := Linked.right_unique hxn hx.runs
      rwa [append_nil]
    | cons h l =>
      have hh : h = nx := hx.runs.1.right_unique hxn
      subst hh
      refine runs_append.2 ⟨hrun, hx.runs.2.redirect ?_ ?_⟩
      · intro u w hw h'
        refine h'.splice hxn hyp ?_ ?_
        · rintro rfl
          exact hd w (by simp [hw]) (by simp)
        · rintro rfl
          exact absurd hw (by have := hx.nodup; simp_all)
      · intro u h'
        refine h'.splice hxn hyp ?_ ?_
        · rintro rfl
          exact hd x (by simp) (by simp)
        · rintro rfl
          exact absurd hx.nodup (by simp)
  · rw [hperm.nodup_iff, ← cons_append, nodup_append]
    refine ⟨hx.nodup, hy.nodup, ?_⟩
    rintro k hk _ hk' rfl
    exact hd k hk hk'

theorem IsRing.splice_of_disjoint (hx : s.IsRing x xs) (hy : s.IsRing y ys) (hz : s.IsRing z l)
    (hzx : ∀ k ∈ z :: l, k ∉ x :: xs) (hzy : ∀ k ∈ z :: l, k ∉ y :: ys) :
    (s.splice x y).IsRing z l := by
  obtain ⟨nx, hnx, hxn⟩ := hx.runs.exists_linked_first
  obtain ⟨py, -, hyp⟩ := hy.runs.exists_linked_last
  have hnx' : nx ∈ x :: xs := by simpa [or_comm] using hnx
  have hkeep : ∀ u w, w ∈ z :: l → s.Linked u w → (s.splice x y).Linked u w := by
    intro u w hw h
    refine h.splice hxn hyp ?_ ?_
    · rintro rfl
      exact hzy w hw (by simp)
    · rintro rfl
      exact hzx w hw hnx'
  exact ⟨hz.runs.redirect (fun u w hw => hkeep u w (mem_cons_of_mem z hw))
    (fun u => hkeep u z (by simp)), hz.nodup⟩

end Splice

/-! ### Woven soups -/

/-- Every thing stands in a ring. -/
structure Woven (s : Soup κ α) : Prop where
  nodup : s.cells.keys.Nodup
  ring : ∀ x ∈ s.cells.keys, ∃ l, s.IsRing x l

namespace Woven

omit [LawfulBEq κ] in
theorem empty : Woven ({} : Soup κ α) := ⟨nodup_nil, by simp [Table.keys]⟩

variable (h : s.Woven) (hx : x ∈ s.cells.keys)

include h hx

theorem isRing_ringFrom : ∃ l, s.IsRing x l ∧ s.ringFrom x = x :: l := by
  obtain ⟨l, hl⟩ := h.ring x hx
  exact ⟨l, hl, hl.ringFrom_eq⟩

theorem mem_keys_of_mem (hy : y ∈ s.ringFrom x) : y ∈ s.cells.keys := by
  obtain ⟨l, hl, he⟩ := h.isRing_ringFrom hx
  exact hl.mem_keys y (he ▸ hy)

theorem mem_ringFrom_iff (hy : y ∈ s.ringFrom x) : z ∈ s.ringFrom y ↔ z ∈ s.ringFrom x := by
  obtain ⟨l, hl, he⟩ := h.isRing_ringFrom hx
  obtain ⟨m, hm, hz⟩ := hl.exists_of_mem (he ▸ hy)
  rw [hm.ringFrom_eq, he, hz]

theorem mem_ringFrom_symm (hy : y ∈ s.ringFrom x) : x ∈ s.ringFrom y :=
  (h.mem_ringFrom_iff hx hy).2 (by simp [ringFrom])

omit [LawfulBEq κ] in
theorem linked_next : s.Linked x (s.next x) := by
  obtain ⟨l, hl⟩ := h.ring x hx
  obtain ⟨w, -, hw⟩ := hl.runs.exists_linked_first
  rwa [hw.next_eq]

omit [LawfulBEq κ] in
theorem linked_prev : s.Linked (s.prev x) x := by
  obtain ⟨l, hl⟩ := h.ring x hx
  obtain ⟨u, -, hu⟩ := hl.runs.exists_linked_last
  rwa [hu.prev_eq]

omit [LawfulBEq κ] in
/-- A thing that comes after itself is alone in its ring. -/
theorem prev_eq_self (hn : s.next x = x) : s.prev x = x := by
  have hl := h.linked_next hx
  rw [hn] at hl
  exact hl.prev_eq

theorem ringFrom_eq_self (hn : s.next x = x) : s.ringFrom x = [x] := by
  have hl := h.linked_next hx
  rw [hn] at hl
  exact IsRing.ringFrom_eq ⟨hl, pairwise_singleton _ x⟩

theorem not_mem_of_alone (hy : y ∈ s.cells.keys)
    (hn : s.next y = y) (hxy : x ≠ y) : y ∉ s.ringFrom x := by
  intro hmem
  have hxy' := h.mem_ringFrom_symm hx hmem
  rw [h.ringFrom_eq_self hy hn] at hxy'
  exact hxy (mem_singleton.1 hxy')

/-- Rings with different things have none in common. -/
theorem disjoint (hy : y ∈ s.cells.keys)
    (hxy : y ∉ s.ringFrom x) : ∀ k ∈ s.ringFrom x, k ∉ s.ringFrom y := by
  intro k hkx hky
  have hyk : y ∈ s.ringFrom k := h.mem_ringFrom_symm hy hky
  exact hxy ((h.mem_ringFrom_iff hx hkx).1 hyk)

end Woven

/-- The soup `t` is the woven soup `s` with the rings of `a` and `b` made one. -/
structure Merges (s t : Soup κ α) (a b : κ) : Prop where
  woven : t.Woven
  keys : t.cells.keys = s.cells.keys
  value : ∀ k, (t.cells.get? k).map (·.value) = (s.cells.get? k).map (·.value)
  ring : ∀ x ∈ s.cells.keys, ∀ z, z ∈ t.ringFrom x ↔
    z ∈ s.ringFrom x ∨ (x ∈ s.ringFrom a ∧ z ∈ s.ringFrom b) ∨
      (x ∈ s.ringFrom b ∧ z ∈ s.ringFrom a)

theorem Merges.symm (h : s.Merges t a b) : s.Merges t b a :=
  ⟨h.woven, h.keys, h.value, fun x hx z => by rw [h.ring x hx z]; tauto⟩

/-- Things of one ring are joined already. -/
theorem Woven.merges_self (h : s.Woven) (ha : a ∈ s.cells.keys) (hb : b ∈ s.ringFrom a) :
    s.Merges s a b := by
  refine ⟨h, rfl, fun _ => rfl, ?_⟩
  intro x hx z
  refine ⟨Or.inl, ?_⟩
  rintro (hz | ⟨hxa, hzb⟩ | ⟨hxb, hza⟩)
  · exact hz
  · rw [h.mem_ringFrom_iff ha hxa]
    exact (h.mem_ringFrom_iff ha hb).1 hzb
  · have hxa : x ∈ s.ringFrom a := (h.mem_ringFrom_iff ha hb).1 hxb
    exact (h.mem_ringFrom_iff ha hxa).2 hza

theorem Woven.mem_ringFrom_splice (h : s.Woven) (ha : a ∈ s.cells.keys) (hb : b ∈ s.cells.keys)
    (hab : b ∉ s.ringFrom a) (hx : x ∈ s.ringFrom a ∨ x ∈ s.ringFrom b) :
    ∃ l, (s.splice a b).IsRing x l ∧
      ∀ z, z ∈ x :: l ↔ z ∈ s.ringFrom a ∨ z ∈ s.ringFrom b := by
  obtain ⟨as, has, hea⟩ := h.isRing_ringFrom ha
  obtain ⟨bs, hbs, heb⟩ := h.isRing_ringFrom hb
  have hone : (s.splice a b).IsRing a (b :: bs ++ as) :=
    has.splice hbs (hea ▸ heb ▸ h.disjoint ha hb hab)
  have hboth : ∀ z, z ∈ a :: (b :: bs ++ as) ↔ z ∈ s.ringFrom a ∨ z ∈ s.ringFrom b := by
    intro z
    rw [hea, heb]
    simp only [mem_cons, mem_append]
    tauto
  obtain ⟨l, hl, hmem⟩ := hone.exists_of_mem ((hboth x).2 hx)
  exact ⟨l, hl, fun z => (hmem z).trans (hboth z)⟩

theorem Woven.ringFrom_splice_of_not_mem (h : s.Woven) (ha : a ∈ s.cells.keys)
    (hb : b ∈ s.cells.keys) (hx : x ∈ s.cells.keys) (hxa : x ∉ s.ringFrom a)
    (hxb : x ∉ s.ringFrom b) :
    ∃ l, (s.splice a b).IsRing x l ∧ s.ringFrom x = x :: l := by
  obtain ⟨as, has, hea⟩ := h.isRing_ringFrom ha
  obtain ⟨bs, hbs, heb⟩ := h.isRing_ringFrom hb
  obtain ⟨xs, hxs, hex⟩ := h.isRing_ringFrom hx
  refine ⟨xs, has.splice_of_disjoint hbs hxs ?_ ?_, hex⟩
  · intro k hk hka
    exact h.disjoint ha hx hxa k (hea ▸ hka) (hex ▸ hk)
  · intro k hk hkb
    exact h.disjoint hb hx hxb k (heb ▸ hkb) (hex ▸ hk)

/-- The rings of two things that have none in common are spliced. -/
theorem Woven.merges_splice (h : s.Woven) (ha : a ∈ s.cells.keys) (hb : b ∈ s.cells.keys)
    (hab : b ∉ s.ringFrom a) : s.Merges (s.splice a b) a b := by
  have hrings : ∀ x ∈ s.cells.keys, ∃ l, (s.splice a b).IsRing x l ∧ ∀ z, z ∈ x :: l ↔
      z ∈ s.ringFrom x ∨ (x ∈ s.ringFrom a ∧ z ∈ s.ringFrom b) ∨
        (x ∈ s.ringFrom b ∧ z ∈ s.ringFrom a) := by
    intro x hx
    by_cases hxa : x ∈ s.ringFrom a
    · obtain ⟨l, hl, hmem⟩ := h.mem_ringFrom_splice ha hb hab (Or.inl hxa)
      have hxb := h.disjoint ha hb hab x hxa
      refine ⟨l, hl, fun z => ?_⟩
      rw [hmem, h.mem_ringFrom_iff ha hxa]
      tauto
    · by_cases hxb : x ∈ s.ringFrom b
      · obtain ⟨l, hl, hmem⟩ := h.mem_ringFrom_splice ha hb hab (Or.inr hxb)
        refine ⟨l, hl, fun z => ?_⟩
        rw [hmem, h.mem_ringFrom_iff hb hxb]
        tauto
      · obtain ⟨l, hl, hex⟩ := h.ringFrom_splice_of_not_mem ha hb hx hxa hxb
        refine ⟨l, hl, fun z => ?_⟩
        rw [hex]
        tauto
  refine ⟨⟨by simpa using h.nodup, ?_⟩, by simp, value_splice s a b, ?_⟩
  · intro x hx
    obtain ⟨l, hl, -⟩ := hrings x (by simpa using hx)
    exact ⟨l, hl⟩
  · intro x hx z
    obtain ⟨l, hl, hmem⟩ := hrings x hx
    rw [hl.ringFrom_eq, hmem]

/-! ### Joining -/

omit [LawfulBEq κ] in
theorem join_eq {ca cb : Cell κ α} (ha : s.cells.get? a = some ca)
    (hb : s.cells.get? b = some cb) :
    s.join a b =
      if a == b then .ok s
      else if s.next a == a && s.next b == b then
        if s.prev a == a && s.prev b == b then .ok ((s.link a b).link b a) else .error .broken
      else if s.next a == a then
        if s.prev a == a then .ok ((s.link b a).link a (s.next b)) else .error .broken
      else if s.next b == b then
        if s.prev b == b then .ok ((s.link a b).link b (s.next a)) else .error .broken
      else if (s.ringFrom a).contains b then .ok s
      else .ok (s.splice a b) := by
  simp only [join, cell, ha, hb, splice, next, prev, after?, before?, Option.map_some,
    Option.getD_some]
  rfl

theorem Woven.join (h : s.Woven) (ha : a ∈ s.cells.keys) (hb : b ∈ s.cells.keys) :
    ∃ t, s.join a b = .ok t ∧ s.Merges t a b := by
  obtain ⟨ca, hca⟩ := Table.mem_keys_iff.1 ha
  obtain ⟨cb, hcb⟩ := Table.mem_keys_iff.1 hb
  rw [join_eq hca hcb]
  by_cases hab : a = b
  · subst hab
    exact ⟨s, by simp, h.merges_self ha (by simp [ringFrom])⟩
  by_cases hnb : s.next b = b
  · have hpb : s.prev b = b := h.prev_eq_self hb hnb
    have hm := h.merges_splice ha hb (h.not_mem_of_alone ha hb hnb hab)
    rw [splice, hpb] at hm
    by_cases hna : s.next a = a
    · have hpa : s.prev a = a := h.prev_eq_self ha hna
      rw [hna] at hm
      exact ⟨_, by simp [hab, hna, hnb, hpa, hpb], hm⟩
    · exact ⟨_, by simp [hab, hna, hnb, hpb], hm⟩
  · by_cases hna : s.next a = a
    · -- only `a` is alone, and it is put after `b`
      have hpa : s.prev a = a := h.prev_eq_self ha hna
      have hm := h.merges_splice hb ha (h.not_mem_of_alone hb ha hna (Ne.symm hab))
      rw [splice, hpa] at hm
      exact ⟨_, by simp [hab, hna, hnb, hpa], hm.symm⟩
    · by_cases hmem : b ∈ s.ringFrom a
      · exact ⟨s, by simp [hab, hna, hnb, hmem], h.merges_self ha hmem⟩
      · exact ⟨_, by simp [hab, hna, hnb, hmem], h.merges_splice ha hb hmem⟩

omit [LawfulBEq κ] in
theorem join_eq_absent (h : s.cells.get? a = none ∨ s.cells.get? b = none) :
    s.join a b = .error .absent := by
  cases ha : s.cells.get? a with
  | none => simp [Soup.join, cell, ha, bind, Except.bind]
  | some c =>
    have hb : s.cells.get? b = none := by simpa [ha] using h
    simp [Soup.join, cell, ha, hb, bind, Except.bind]

end Boardwright.Soup
