import Boardwright.Proofs.Ring.Join
import Mathlib.Logic.Relation

/-!
# Rings as classes

What a soup says of a relation `R` between keys: `Classes s R` holds if every thing
stands in a ring and the ring of a thing is its class under the equivalence that `R`
generates. Adding a thing keeps `R`, and joining two things adds one pair to it, so
`R` is all the pairs that were joined (`Classes.add`, `Classes.join`).

The rings are listed by going through the things in the order in which they were added
and passing over those that were met before. So every ring is listed once and from its
earliest thing, in the order of these.
-/

namespace Boardwright.Soup

open Relation List Table

variable {κ α : Type} [BEq κ] [LawfulBEq κ] {s t : Soup κ α} {R : κ → κ → Prop}
  {a b k x y z : κ} {v : α}

/-! ### Adding a thing -/

omit [LawfulBEq κ] in
theorem add_eq (s : Soup κ α) (k : κ) (v : α) :
    s.add k v =
      if s.cells.contains k then .error .occupied else .ok ⟨s.cells.set k ⟨v, k, k⟩⟩ := rfl

theorem add_of_mem (h : k ∈ s.cells.keys) : s.add k v = .error .occupied := by
  rw [add_eq, if_pos (contains_iff_mem_keys.2 h)]

theorem add_of_not_mem (h : k ∉ s.cells.keys) :
    s.add k v = .ok ⟨s.cells.set k ⟨v, k, k⟩⟩ := by
  rw [add_eq, if_neg (fun h' => h (contains_iff_mem_keys.1 h'))]

theorem Linked.set (h : s.Linked x y) (hk : k ∉ s.cells.keys) :
    Linked ⟨s.cells.set k ⟨v, k, k⟩⟩ x y := by
  have hx : x ≠ k := fun e => hk (e ▸ mem_keys_of_after? h.1)
  have hy : y ≠ k := fun e => hk (e ▸ mem_keys_of_before? h.2)
  constructor
  · rw [after?, get?_set_of_ne _ _ hx]
    exact h.1
  · rw [before?, get?_set_of_ne _ _ hy]
    exact h.2

theorem IsRing.set {l : List κ} (h : s.IsRing x l) (hk : k ∉ s.cells.keys) :
    IsRing ⟨s.cells.set k ⟨v, k, k⟩⟩ x l :=
  ⟨h.runs.redirect (fun _ _ _ h' => h'.set hk) (fun _ h' => h'.set hk), h.nodup⟩

theorem isRing_set_self : IsRing ⟨s.cells.set k ⟨v, k, k⟩⟩ k [] := by
  refine ⟨⟨?_, ?_⟩, pairwise_singleton _ k⟩
  · simp [after?]
  · simp [before?]

theorem Woven.set (h : s.Woven) (hk : k ∉ s.cells.keys) :
    Woven ⟨s.cells.set k ⟨v, k, k⟩⟩ := by
  refine ⟨keys_nodup_set k _ h.nodup, ?_⟩
  intro x hx
  obtain rfl | hx := mem_keys_set.1 hx
  · exact ⟨[], isRing_set_self⟩
  · obtain ⟨l, hl⟩ := h.ring x hx
    exact ⟨l, hl.set hk⟩

/-! ### Classes -/

/-- The rings of a soup are the classes of the equivalence that `R` generates. -/
structure Classes (s : Soup κ α) (R : κ → κ → Prop) : Prop where
  woven : s.Woven
  mem : ∀ x y, R x y → x ∈ s.cells.keys ∧ y ∈ s.cells.keys
  ring : ∀ x ∈ s.cells.keys, ∀ y, y ∈ s.ringFrom x ↔ EqvGen R x y

omit [BEq κ] [LawfulBEq κ] in
/-- A relation between the members of a list relates nothing else but what is equal. -/
theorem eq_or_mem_of_eqvGen {D : List κ} (hR : ∀ x y, R x y → x ∈ D ∧ y ∈ D)
    (h : EqvGen R x y) : x = y ∨ x ∈ D ∧ y ∈ D := by
  induction h with
  | rel x y hxy => exact Or.inr (hR x y hxy)
  | refl x => exact Or.inl rfl
  | symm x y _ ih => exact ih.imp Eq.symm And.symm
  | trans x y z _ _ hxy hyz =>
    obtain rfl | hxy := hxy
    · exact hyz
    · obtain rfl | hyz := hyz
      · exact Or.inr hxy
      · exact Or.inr ⟨hxy.1, hyz.2⟩

omit [LawfulBEq κ] in
theorem Classes.empty : Classes ({} : Soup κ α) fun _ _ => False :=
  ⟨Woven.empty, fun _ _ h => h.elim, by simp [Table.keys]⟩

theorem Classes.add (h : s.Classes R) (hk : k ∉ s.cells.keys) :
    Classes ⟨s.cells.set k ⟨v, k, k⟩⟩ R := by
  refine ⟨h.woven.set hk, ?_, ?_⟩
  · intro x y hxy
    obtain ⟨hx, hy⟩ := h.mem x y hxy
    exact ⟨mem_keys_set.2 (Or.inr hx), mem_keys_set.2 (Or.inr hy)⟩
  · intro x hx y
    obtain rfl | hx := mem_keys_set.1 hx
    · rw [isRing_set_self.ringFrom_eq, mem_singleton]
      constructor
      · rintro rfl
        exact EqvGen.refl y
      · intro hxy
        obtain rfl | hmem := eq_or_mem_of_eqvGen h.mem hxy
        · rfl
        · exact absurd hmem.1 hk
    · obtain ⟨l, hl, hex⟩ := h.woven.isRing_ringFrom hx
      rw [(hl.set hk).ringFrom_eq, ← hex, h.ring x hx]

theorem Woven.mem_ringFrom_of_eqvGen (h : s.Woven)
    (hR : ∀ x y, R x y → x ∈ s.cells.keys ∧ y ∈ s.ringFrom x) (hxy : EqvGen R x y) :
    x = y ∨ x ∈ s.cells.keys ∧ y ∈ s.ringFrom x := by
  induction hxy with
  | rel x y hxy => exact Or.inr (hR x y hxy)
  | refl x => exact Or.inl rfl
  | symm x y _ ih =>
    obtain rfl | ⟨hx, hy⟩ := ih
    · exact Or.inl rfl
    · exact Or.inr ⟨h.mem_keys_of_mem hx hy, h.mem_ringFrom_symm hx hy⟩
  | trans x y z _ _ hxy hyz =>
    obtain rfl | ⟨hx, hy⟩ := hxy
    · exact hyz
    · obtain rfl | ⟨-, hz⟩ := hyz
      · exact Or.inr ⟨hx, hy⟩
      · exact Or.inr ⟨hx, (h.mem_ringFrom_iff hx hy).1 hz⟩

/-- Joining `a` and `b` adds the pair of them to the relation. -/
theorem Classes.merges (h : s.Classes R) (hm : s.Merges t a b) (ha : a ∈ s.cells.keys)
    (hb : b ∈ s.cells.keys) : t.Classes fun x y => R x y ∨ x = a ∧ y = b := by
  have hmem : ∀ x y, (R x y ∨ x = a ∧ y = b) → x ∈ t.cells.keys ∧ y ∈ t.cells.keys := by
    rw [hm.keys]
    rintro x y (hxy | ⟨rfl, rfl⟩)
    · exact h.mem x y hxy
    · exact ⟨ha, hb⟩
  refine ⟨hm.woven, hmem, ?_⟩
  intro x hx y
  have hx' := hx
  rw [hm.keys] at hx'
  constructor
  · have hmono : ∀ {u w}, EqvGen R u w → EqvGen (fun x y => R x y ∨ x = a ∧ y = b) u w :=
      fun hu => EqvGen.mono (fun _ _ => Or.inl) _ _ hu
    have hab : EqvGen (fun x y => R x y ∨ x = a ∧ y = b) a b := .rel a b (Or.inr ⟨rfl, rfl⟩)
    rw [hm.ring x hx', h.ring x hx', h.ring a ha, h.ring b hb, h.ring a ha, h.ring b hb]
    rintro (hxy | ⟨hax, hby⟩ | ⟨hbx, hay⟩)
    · exact hmono hxy
    · exact .trans _ _ _ (.symm _ _ (hmono hax)) (.trans _ _ _ hab (hmono hby))
    · exact .trans _ _ _ (.symm _ _ (hmono hbx)) (.trans _ _ _ (.symm _ _ hab) (hmono hay))
  · have hR : ∀ x y, (R x y ∨ x = a ∧ y = b) → x ∈ t.cells.keys ∧ y ∈ t.ringFrom x := by
      intro x y hxy
      have hxt := (hmem x y hxy).1
      have hxs := hxt
      rw [hm.keys] at hxs
      refine ⟨hxt, ?_⟩
      rw [hm.ring x hxs]
      obtain hxy | ⟨rfl, rfl⟩ := hxy
      · exact Or.inl ((h.ring x hxs y).2 (.rel x y hxy))
      · exact Or.inr (Or.inl ⟨by simp [ringFrom], by simp [ringFrom]⟩)
    intro hxy
    obtain rfl | ⟨-, hy⟩ := hm.woven.mem_ringFrom_of_eqvGen hR hxy
    · simp [ringFrom]
    · exact hy

/-! ### Listing the rings -/

section Listing

variable {seen ks g : List κ}

omit [LawfulBEq κ] in
theorem groupsFrom_cons (s : Soup κ α) (seen : List κ) (k : κ) (ks : List κ) :
    s.groupsFrom seen (k :: ks) =
      if seen.contains k then s.groupsFrom seen ks
      else s.ringFrom k :: s.groupsFrom (seen ++ s.ringFrom k) ks := rfl

def SeenWhole (s : Soup κ α) (seen : List κ) : Prop :=
  ∀ x ∈ s.cells.keys, ∀ y ∈ s.ringFrom x, x ∈ seen → y ∈ seen

theorem Woven.seenWhole_append (h : s.Woven) (hk : k ∈ s.cells.keys) (hs : s.SeenWhole seen) :
    s.SeenWhole (seen ++ s.ringFrom k) := by
  intro x hx y hy hmem
  rw [mem_append] at hmem ⊢
  obtain hseen | hxk := hmem
  · exact Or.inl (hs x hx y hy hseen)
  · exact Or.inr ((h.mem_ringFrom_iff hk hxk).1 hy)

theorem Woven.mem_flatten_groupsFrom (h : s.Woven) (hks : ∀ k ∈ ks, k ∈ s.cells.keys)
    (hs : s.SeenWhole seen) :
    y ∈ (s.groupsFrom seen ks).flatten ↔ y ∉ seen ∧ ∃ k ∈ ks, y ∈ s.ringFrom k := by
  induction ks generalizing seen with
  | nil => simp [groupsFrom]
  | cons k ks ih =>
    have hk : k ∈ s.cells.keys := hks k (by simp)
    have hks' : ∀ k ∈ ks, k ∈ s.cells.keys := fun j hj => hks j (mem_cons_of_mem k hj)
    rw [groupsFrom_cons]
    by_cases hseen : k ∈ seen
    · rw [if_pos (by simpa using hseen), ih hks' hs]
      have hring : y ∈ s.ringFrom k → y ∈ seen := fun hy => hs k hk y hy hseen
      simp only [mem_cons, exists_eq_or_imp]
      tauto
    · rw [if_neg (by simpa using hseen), flatten_cons, mem_append,
        ih hks' (h.seenWhole_append hk hs)]
      have hring : y ∈ s.ringFrom k → y ∉ seen := by
        intro hy hys
        exact hseen (hs y (h.mem_keys_of_mem hk hy) k (h.mem_ringFrom_symm hk hy) hys)
      simp only [mem_cons, exists_eq_or_imp, mem_append]
      tauto

theorem Woven.nodup_flatten_groupsFrom (h : s.Woven) (hks : ∀ k ∈ ks, k ∈ s.cells.keys)
    (hs : s.SeenWhole seen) : (s.groupsFrom seen ks).flatten.Nodup := by
  induction ks generalizing seen with
  | nil => simp [groupsFrom]
  | cons k ks ih =>
    have hk : k ∈ s.cells.keys := hks k (by simp)
    have hks' : ∀ k ∈ ks, k ∈ s.cells.keys := fun j hj => hks j (mem_cons_of_mem k hj)
    rw [groupsFrom_cons]
    split
    · exact ih hks' hs
    · have hs' := h.seenWhole_append hk hs
      obtain ⟨l, hl, he⟩ := h.isRing_ringFrom hk
      rw [flatten_cons, nodup_append]
      refine ⟨he ▸ hl.nodup, ih hks' hs', ?_⟩
      rintro y hy _ hy' rfl
      rw [h.mem_flatten_groupsFrom hks' hs'] at hy'
      exact hy'.1 (mem_append_right seen hy)

/-- A listed ring starts at a thing that none of its things is listed before. -/
theorem Woven.exists_of_mem_groupsFrom (h : s.Woven) (hks : ∀ k ∈ ks, k ∈ s.cells.keys)
    (hs : s.SeenWhole seen) (hg : g ∈ s.groupsFrom seen ks) :
    ∃ p k q, ks = p ++ k :: q ∧ g = s.ringFrom k ∧ k ∉ seen ∧ ∀ y ∈ g, y ∉ p := by
  induction ks generalizing seen with
  | nil => simp [groupsFrom] at hg
  | cons j ks ih =>
    have hj : j ∈ s.cells.keys := hks j (by simp)
    have hks' : ∀ k ∈ ks, k ∈ s.cells.keys := fun k hk => hks k (mem_cons_of_mem j hk)
    -- once `j` has been seen, a ring that starts later does not hold it
    have hlater : ∀ seen', s.SeenWhole seen' → j ∈ seen' → g ∈ s.groupsFrom seen' ks →
        ∃ p k q, j :: ks = p ++ k :: q ∧ g = s.ringFrom k ∧ k ∉ seen' ∧ ∀ y ∈ g, y ∉ p := by
      intro seen' hs' hjs hg'
      obtain ⟨p, k, q, rfl, rfl, hk, hp⟩ := ih hks' hs' hg'
      refine ⟨j :: p, k, q, rfl, rfl, hk, ?_⟩
      intro y hy hyp
      obtain rfl | hyp := mem_cons.1 hyp
      · have hkk : k ∈ s.cells.keys := hks' k (by simp)
        exact hk (hs' y hj k (h.mem_ringFrom_symm hkk hy) hjs)
      · exact hp y hy hyp
    rw [groupsFrom_cons] at hg
    split at hg
    · next hseen => exact hlater seen hs (by simpa using hseen) hg
    · next hseen =>
        obtain rfl | hg := mem_cons.1 hg
        · exact ⟨[], j, ks, rfl, rfl, by simpa using hseen, by simp⟩
        · obtain ⟨p, k, q, he, rfl, hk, hp⟩ :=
            hlater _ (h.seenWhole_append hj hs) (by simp [ringFrom]) hg
          exact ⟨p, k, q, he, rfl, fun hk' => hk (mem_append_left _ hk'), hp⟩

omit [LawfulBEq κ] in
/-- The first things of the listed rings stand in the order in which they are listed. -/
theorem heads_groupsFrom_sublist (s : Soup κ α) (seen ks : List κ) :
    ((s.groupsFrom seen ks).filterMap List.head?).Sublist ks := by
  induction ks generalizing seen with
  | nil => exact List.Sublist.slnil
  | cons k ks ih =>
    rw [groupsFrom_cons]
    split
    · exact (ih seen).cons k
    · exact (ih _).cons_cons k

end Listing

end Boardwright.Soup
