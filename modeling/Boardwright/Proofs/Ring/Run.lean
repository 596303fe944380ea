import Boardwright.Proofs.Ring.Classes
import Mathlib.Data.List.Nodup
import Mathlib.Data.Set.Function

/-!
# Runs of a soup

A soup is used by adding things and joining them, in any order. An operation that
fails leaves the soup as it is. What a run has done is also told without rings, as the
list of the things that were taken in and the list of the pairs that were joined: its
`History`.

`run_faithful` says that the rings tell the history: the thing after a thing and the
thing before it are inverse to each other, every ring closes, no ring is ever found
broken, and the groups are the classes of the things under the joined pairs, each from
its earliest thing and in the order of these.
-/

namespace Boardwright.Soup

open Relation List Table

variable {κ α : Type} [BEq κ]

/-- What can be done with a soup. -/
inductive Op (α : Type)
  | add (x : α)
  | join (x y : α)

/-- What becomes of an operation on things that are known by `key`. -/
def Op.apply (key : α → κ) (s : Soup κ α) : Op α → Except Fault (Soup κ α)
  | .add x => s.add (key x) x
  | .join x y => s.join (key x) (key y)

/-- The soup after an operation, whether it failed or not. -/
def step (key : α → κ) (s : Soup κ α) (op : Op α) : Soup κ α :=
  match op.apply key s with
  | .ok t => t
  | .error _ => s

def run (key : α → κ) (ops : List (Op α)) : Soup κ α := ops.foldl (step key) {}

/-- The things that were taken in, in order, and the pairs that were joined. -/
structure History (α : Type) where
  things : List α := []
  joined : List (α × α) := []

namespace History

def knows (key : α → κ) (h : History α) (x : α) : Bool := h.things.any fun y => key y == key x

/-- The history after an operation: a key is taken in once, and only things that were
taken in can be joined. -/
def step (key : α → κ) (h : History α) : Op α → History α
  | .add x => if h.knows key x then h else { h with things := h.things ++ [x] }
  | .join x y =>
    if h.knows key x && h.knows key y then { h with joined := h.joined ++ [(x, y)] } else h

def run (key : α → κ) (ops : List (Op α)) : History α := ops.foldl (step key) {}

def Joined (key : α → κ) (h : History α) (a b : κ) : Prop :=
  ∃ p ∈ h.joined, a = key p.1 ∧ b = key p.2

end History

/-- The rings of a soup tell a history. -/
structure Faithful (key : α → κ) (s : Soup κ α) (h : History α) : Prop where
  /-- The soup holds the things that were taken in. -/
  keys : s.cells.keys = h.things.map key
  /-- The thing after a thing is after no other, and every thing is after one. -/
  next_bijOn : Set.BijOn s.next {k | k ∈ s.cells.keys} {k | k ∈ s.cells.keys}
  /-- The thing before is the inverse of the thing after. -/
  prev_invOn : Set.InvOn s.prev s.next {k | k ∈ s.cells.keys} {k | k ∈ s.cells.keys}
  /-- Going on from a thing one comes back to it, having met nothing twice. -/
  ring : ∀ k ∈ s.cells.keys, ∃ n, 0 < n ∧ s.ringFrom k = List.iterate s.next k n ∧
    s.next^[n] k = k ∧ (s.ringFrom k).Nodup
  /-- No ring ends because too many things have been met. -/
  bound : ∀ k ∈ s.cells.keys, ∀ fuel, s.cells.size ≤ fuel →
    s.ringFrom k = k :: s.followed k fuel k
  /-- A thing is refused if and only if its key was taken in. -/
  add : ∀ x, (∃ f, s.add (key x) x = .error f) ↔ h.knows key x
  /-- Things are not joined if and only if one of them was not taken in. -/
  join : ∀ x y, (∃ f, s.join (key x) (key y) = .error f) ↔ ¬(h.knows key x ∧ h.knows key y)
  /-- Joining never finds a ring broken. -/
  not_broken : ∀ a b, s.join a b ≠ .error .broken
  /-- Every thing is in one group, and once. -/
  perm : s.groups.flatten.Perm h.things
  /-- No group is empty. -/
  nonempty : [] ∉ s.groups
  /-- Things are in one group if and only if they are joined, directly or not. -/
  classes : ∀ x ∈ h.things, ∀ y ∈ h.things,
    (∃ g ∈ s.groups, x ∈ g ∧ y ∈ g) ↔ EqvGen (h.Joined key) (key x) (key y)
  /-- A group starts with the thing that was taken in before the others of it. -/
  earliest : ∀ x g, x :: g ∈ s.groups → ∀ y ∈ g, [x, y].Sublist h.things
  /-- The groups stand in the order in which their first things were taken in. -/
  ordered : (s.groups.filterMap List.head?).Sublist h.things

/-! ### What a run keeps -/

/-- The soup holds the things of a history, and its rings are the classes of what was
joined. -/
structure Tells (key : α → κ) (s : Soup κ α) (h : History α) : Prop where
  classes : s.Classes (h.Joined key)
  keys : s.cells.keys = h.things.map key
  value : ∀ x ∈ h.things, (s.cells.get? (key x)).map (·.value) = some x

variable {key : α → κ} {s t : Soup κ α} {h : History α} {x y : α}

theorem step_of_ok (op : Op α) (ho : op.apply key s = .ok t) : step key s op = t := by
  rw [step, ho]

theorem step_of_error (op : Op α) {f : Fault} (ho : op.apply key s = .error f) :
    step key s op = s := by
  rw [step, ho]

omit [BEq κ] in
theorem History.joined_nil (key : α → κ) : History.Joined key {} = fun _ _ => False := by
  funext a b
  simp [History.Joined]

omit [BEq κ] in
theorem History.joined_append (key : α → κ) (h : History α) (x y : α) :
    History.Joined key { h with joined := h.joined ++ [(x, y)] } =
      fun a b => h.Joined key a b ∨ a = key x ∧ b = key y := by
  funext a b
  simp only [History.Joined, mem_append, mem_singleton, or_and_right, exists_or,
    exists_eq_left]

theorem Tells.empty (key : α → κ) : Tells key {} {} := by
  refine ⟨?_, rfl, by simp⟩
  rw [History.joined_nil]
  exact Classes.empty

variable [LawfulBEq κ]

theorem Tells.knows_iff (ht : Tells key s h) (x : α) : h.knows key x ↔ key x ∈ s.cells.keys := by
  rw [ht.keys, History.knows, any_eq_true, mem_map]
  simp only [beq_iff_eq]

theorem Tells.add (ht : Tells key s h) (x : α) :
    Tells key (step key s (.add x)) (h.step key (.add x)) := by
  by_cases hx : key x ∈ s.cells.keys
  · rw [step_of_error (.add x) (add_of_mem hx), History.step,
      if_pos ((ht.knows_iff x).2 hx)]
    exact ht
  · rw [step_of_ok (.add x) (add_of_not_mem hx), History.step,
      if_neg (fun h' => hx ((ht.knows_iff x).1 h'))]
    refine ⟨ht.classes.add hx, ?_, ?_⟩
    · rw [keys_set_of_not_mem _ hx, ht.keys, map_append]
      rfl
    · intro y hy
      obtain hy | hy := mem_append.1 hy
      · have hyk : key y ∈ s.cells.keys := by
          rw [ht.keys]
          exact mem_map_of_mem hy
        have hyx : key y ≠ key x := fun e => hx (e ▸ hyk)
        rw [get?_set_of_ne _ _ hyx]
        exact ht.value y hy
      · rw [mem_singleton.1 hy, get?_set_self]
        rfl

theorem Tells.join (ht : Tells key s h) (x y : α) :
    Tells key (step key s (.join x y)) (h.step key (.join x y)) := by
  by_cases hxy : key x ∈ s.cells.keys ∧ key y ∈ s.cells.keys
  · obtain ⟨t, hj, hm⟩ := ht.classes.woven.join hxy.1 hxy.2
    have hk : (h.knows key x && h.knows key y) = true := by
      rw [Bool.and_eq_true, ht.knows_iff, ht.knows_iff]
      exact hxy
    rw [step_of_ok (.join x y) hj, History.step, if_pos hk]
    refine ⟨?_, hm.keys.trans ht.keys, ?_⟩
    · rw [History.joined_append]
      exact ht.classes.merges hm hxy.1 hxy.2
    · intro z hz
      rw [hm.value]
      exact ht.value z hz
  · have hk : ¬(h.knows key x && h.knows key y) = true := by
      rw [Bool.and_eq_true, ht.knows_iff, ht.knows_iff]
      exact hxy
    have hnone : s.cells.get? (key x) = none ∨ s.cells.get? (key y) = none := by
      rw [get?_eq_none_iff, get?_eq_none_iff]
      tauto
    rw [step_of_error (.join x y) (join_eq_absent hnone), History.step, if_neg hk]
    exact ht

theorem Tells.add_eq_ok (ht : Tells key s h) (ho : s.add (key x) x = .ok t) :
    Tells key t { h with things := h.things ++ [x] } := by
  have hx : key x ∉ s.cells.keys := by
    intro hx
    rw [add_of_mem hx] at ho
    cases ho
  have hadd := ht.add x
  rwa [step_of_ok (.add x) ho, History.step, if_neg fun h' => hx ((ht.knows_iff x).1 h')] at hadd

theorem Tells.join_eq_ok (ht : Tells key s h) (ho : s.join (key x) (key y) = .ok t) :
    Tells key t { h with joined := h.joined ++ [(x, y)] } := by
  have hxy : key x ∈ s.cells.keys ∧ key y ∈ s.cells.keys := by
    rw [← not_not (a := _ ∧ _)]
    intro hxy
    rw [join_eq_absent] at ho
    · cases ho
    · rw [get?_eq_none_iff, get?_eq_none_iff]
      tauto
  have hjoin := ht.join x y
  rwa [step_of_ok (.join x y) ho, History.step, if_pos] at hjoin
  rw [Bool.and_eq_true, ht.knows_iff, ht.knows_iff]
  exact hxy

theorem tells_run (key : α → κ) (ops : List (Op α)) :
    Tells key (run key ops) (History.run key ops) := by
  suffices hrun : ∀ s h, Tells key s h →
      Tells key (ops.foldl (step key) s) (ops.foldl (History.step key) h) from
    hrun {} {} (Tells.empty key)
  induction ops with
  | nil =>
    intro s h ht
    exact ht
  | cons op ops ih =>
    intro s h ht
    apply ih
    cases op with
    | add x => exact ht.add x
    | join x y => exact ht.join x y

/-! ### What the rings tell -/

theorem Woven.bijOn_next (hw : s.Woven) :
    Set.BijOn s.next {k | k ∈ s.cells.keys} {k | k ∈ s.cells.keys} := by
  refine ⟨?_, ?_, ?_⟩
  · intro k hk
    exact mem_keys_of_before? (hw.linked_next hk).2
  · intro k hk j hj hkj
    have hl := hw.linked_next hk
    rw [hkj] at hl
    exact hl.left_unique (hw.linked_next hj)
  · intro k hk
    have hl := hw.linked_prev hk
    exact ⟨s.prev k, mem_keys_of_after? hl.1, hl.next_eq⟩

omit [LawfulBEq κ] in
theorem Woven.invOn_prev (hw : s.Woven) :
    Set.InvOn s.prev s.next {k | k ∈ s.cells.keys} {k | k ∈ s.cells.keys} :=
  ⟨fun _ hk => (hw.linked_next hk).prev_eq, fun _ hk => (hw.linked_prev hk).next_eq⟩

omit [LawfulBEq κ] in
theorem seenWhole_nil (s : Soup κ α) : s.SeenWhole [] :=
  fun _ _ _ _ h => absurd h not_mem_nil

namespace Tells

variable (ht : Tells key s h) {l g : List α} {ks : List κ}

include ht

omit [LawfulBEq κ] in
theorem eq_of_key_eq (hx : x ∈ h.things) (hy : y ∈ h.things) (hxy : key x = key y) : x = y := by
  have hvx := ht.value x hx
  rw [hxy, ht.value y hy] at hvx
  exact (Option.some.inj hvx).symm

omit [LawfulBEq κ] in
theorem mem_of_key_mem_map (hl : ∀ z ∈ l, z ∈ h.things)
    (hx : x ∈ h.things) (hk : key x ∈ l.map key) : x ∈ l := by
  obtain ⟨z, hz, hzx⟩ := mem_map.1 hk
  rwa [← ht.eq_of_key_eq (hl z hz) hx hzx]

omit [LawfulBEq κ] in
theorem valuesOf_map (hl : ∀ x ∈ l, x ∈ h.things) : s.valuesOf (l.map key) = l := by
  induction l with
  | nil => rfl
  | cons x l ih =>
    have hx := ht.value x (hl x (by simp))
    have ih := ih fun y hy => hl y (mem_cons_of_mem x hy)
    rw [valuesOf] at ih ⊢
    rw [map_cons, filterMap_cons, hx, ih]

omit [LawfulBEq κ] in
theorem exists_map_eq (hks : ∀ k ∈ ks, k ∈ s.cells.keys) :
    ∃ l : List α, l.map key = ks ∧ ∀ x ∈ l, x ∈ h.things := by
  induction ks with
  | nil => exact ⟨[], rfl, by simp⟩
  | cons k ks ih =>
    obtain ⟨l, rfl, hl⟩ := ih fun j hj => hks j (mem_cons_of_mem k hj)
    have hk := hks k (by simp)
    rw [ht.keys] at hk
    obtain ⟨x, hx, rfl⟩ := mem_map.1 hk
    exact ⟨x :: l, rfl, by simpa using ⟨hx, hl⟩⟩

theorem mem_groupKeys (hks : ks ∈ s.groupKeys) :
    (∃ p k q, s.cells.keys = p ++ k :: q ∧ ks = s.ringFrom k ∧ ∀ j ∈ ks, j ∉ p) ∧
      (s.valuesOf ks).map key = ks ∧ ∀ x ∈ s.valuesOf ks, x ∈ h.things := by
  obtain ⟨p, k, q, he, rfl, -, hp⟩ := ht.classes.woven.exists_of_mem_groupsFrom
    (fun _ => id) (seenWhole_nil s) hks
  refine ⟨⟨p, k, q, he, rfl, hp⟩, ?_⟩
  have hk : k ∈ s.cells.keys := by simp [he]
  obtain ⟨l, hl, hmem⟩ := ht.exists_map_eq fun y hy => ht.classes.woven.mem_keys_of_mem hk hy
  rw [← hl, ht.valuesOf_map hmem]
  exact ⟨rfl, hmem⟩

theorem groupKeys_eq : s.groups.map (List.map key) = s.groupKeys := by
  rw [groups, List.map_map]
  conv_rhs => rw [← map_id s.groupKeys]
  apply map_congr_left
  intro ks hks
  exact (ht.mem_groupKeys hks).2.1

theorem mem_groups (hg : g ∈ s.groups) :
    g.map key ∈ s.groupKeys ∧ ∀ x ∈ g, x ∈ h.things := by
  obtain ⟨ks, hks, rfl⟩ := mem_map.1 hg
  obtain ⟨-, hmap, hmem⟩ := ht.mem_groupKeys hks
  exact ⟨hmap.symm ▸ hks, hmem⟩

theorem exists_group_iff (hx : x ∈ h.things) (hy : y ∈ h.things) :
    (∃ g ∈ s.groups, x ∈ g ∧ y ∈ g) ↔ key y ∈ s.ringFrom (key x) := by
  have hw := ht.classes.woven
  have hkx : key x ∈ s.cells.keys := ht.keys ▸ mem_map_of_mem hx
  constructor
  · rintro ⟨g, hg, hxg, hyg⟩
    obtain ⟨⟨p, k, q, he, hr, -⟩, -⟩ := ht.mem_groupKeys (ht.mem_groups hg).1
    have hk : k ∈ s.cells.keys := by simp [he]
    have hkx' : key x ∈ s.ringFrom k := hr ▸ mem_map_of_mem hxg
    rw [hw.mem_ringFrom_iff hk hkx', ← hr]
    exact mem_map_of_mem hyg
  · intro hyx
    have hflat : key x ∈ s.groupKeys.flatten :=
      (hw.mem_flatten_groupsFrom (fun _ => id) (seenWhole_nil s)).2
        ⟨not_mem_nil, key x, hkx, by simp [ringFrom]⟩
    obtain ⟨ks, hks, hxks⟩ := mem_flatten.1 hflat
    obtain ⟨⟨p, k, q, he, rfl, -⟩, hmap, hmem⟩ := ht.mem_groupKeys hks
    have hk : k ∈ s.cells.keys := by simp [he]
    refine ⟨s.valuesOf (s.ringFrom k), mem_map_of_mem hks, ?_, ?_⟩
    · exact ht.mem_of_key_mem_map hmem hx (hmap.symm ▸ hxks)
    · exact ht.mem_of_key_mem_map hmem hy
        (hmap.symm ▸ (hw.mem_ringFrom_iff hk hxks).1 hyx)

theorem exists_group_iff_joined (hx : x ∈ h.things) (hy : y ∈ h.things) :
    (∃ g ∈ s.groups, x ∈ g ∧ y ∈ g) ↔ EqvGen (h.Joined key) (key x) (key y) := by
  rw [ht.exists_group_iff hx hy]
  exact ht.classes.ring _ (ht.keys ▸ mem_map_of_mem hx) _

theorem nil_not_mem_groups : [] ∉ s.groups := by
  intro hnil
  obtain ⟨⟨p, k, q, -, hr, -⟩, -⟩ := ht.mem_groupKeys (ht.mem_groups hnil).1
  simp [ringFrom] at hr

omit [LawfulBEq κ] in
theorem nodup_things : h.things.Nodup := by
  have hn := ht.classes.woven.nodup
  rw [ht.keys] at hn
  exact List.Nodup.of_map key hn

theorem groups_perm : s.groups.flatten.Perm h.things := by
  have hn : (s.groups.flatten.map key).Nodup := by
    rw [map_flatten, ht.groupKeys_eq]
    exact ht.classes.woven.nodup_flatten_groupsFrom (fun _ => id) (seenWhole_nil s)
  rw [perm_ext_iff_of_nodup (List.Nodup.of_map key hn) ht.nodup_things]
  intro x
  rw [mem_flatten]
  constructor
  · rintro ⟨g, hg, hx⟩
    exact (ht.mem_groups hg).2 x hx
  · intro hx
    obtain ⟨g, hg, hxg, -⟩ := (ht.exists_group_iff hx hx).2 (by simp [ringFrom])
    exact ⟨g, hg, hxg⟩

theorem groups_earliest (hg : x :: g ∈ s.groups) (hy : y ∈ g) :
    [x, y].Sublist h.things := by
  obtain ⟨hgk, hmem⟩ := ht.mem_groups hg
  obtain ⟨⟨p, k, q, he, hr, hp⟩, -⟩ := ht.mem_groupKeys hgk
  have hk : k ∈ s.cells.keys := by simp [he]
  obtain ⟨l, hl, hkl⟩ := ht.classes.woven.isRing_ringFrom hk
  have hxk : key x = k ∧ g.map key = l := by
    rw [hkl, map_cons] at hr
    simpa using hr
  have hyp : key y ∉ p := hp (key y) (mem_map_of_mem (mem_cons_of_mem x hy))
  have hyk : key y ≠ k := by
    rintro rfl
    exact (nodup_cons.1 hl.nodup).1 (hxk.2 ▸ mem_map_of_mem hy)
  have hyq : key y ∈ q := by
    have hyall : key y ∈ s.cells.keys :=
      ht.keys ▸ mem_map_of_mem (hmem y (mem_cons_of_mem x hy))
    rw [he] at hyall
    simpa [hyp, hyk] using hyall
  -- the split of the keys is one of the things
  rw [ht.keys, map_eq_append_iff] at he
  obtain ⟨l₁, l₂, hsplit, -, h₂⟩ := he
  obtain ⟨z, l₃, rfl, hz, rfl⟩ := map_eq_cons_iff.1 h₂
  have hzx : z = x := by
    apply ht.eq_of_key_eq (by simp [hsplit]) (hmem x (by simp))
    rw [hz, hxk.1]
  have hyl : y ∈ l₃ :=
    ht.mem_of_key_mem_map (fun w hw => by simp [hsplit, hw])
      (hmem y (mem_cons_of_mem x hy)) hyq
  rw [hsplit, hzx]
  have hsub : [x, y].Sublist (x :: l₃) :=
    List.Sublist.cons_cons x (singleton_sublist.2 hyl)
  exact hsub.trans (sublist_append_right l₁ _)

theorem groups_ordered : (s.groups.filterMap List.head?).Sublist h.things := by
  have hsub := heads_groupsFrom_sublist s [] s.cells.keys
  rw [← groupKeys, ← ht.groupKeys_eq, ht.keys, filterMap_map] at hsub
  have hheads : s.groups.filterMap (List.head? ∘ List.map key) =
      (s.groups.filterMap List.head?).map key := by
    rw [map_filterMap]
    simp
  rw [hheads, sublist_map_iff] at hsub
  obtain ⟨l, hl, heq⟩ := hsub
  have hmem : ∀ x ∈ s.groups.filterMap List.head?, x ∈ h.things := by
    intro x hx
    obtain ⟨g, hg, hxg⟩ := mem_filterMap.1 hx
    exact (ht.mem_groups hg).2 x (mem_of_mem_head? hxg)
  rw [← ht.valuesOf_map hmem, heq, ht.valuesOf_map fun x hx => hl.subset hx]
  exact hl

end Tells

theorem Woven.ring_iterate (hw : s.Woven) {k : κ} (hk : k ∈ s.cells.keys) :
    ∃ n, 0 < n ∧ s.ringFrom k = List.iterate s.next k n ∧ s.next^[n] k = k ∧
      (s.ringFrom k).Nodup := by
  obtain ⟨l, hl, he⟩ := hw.isRing_ringFrom hk
  obtain ⟨hit, hback⟩ := hl.runs.iterate
  exact ⟨l.length + 1, Nat.succ_pos _, he.trans hit, hback, he ▸ hl.nodup⟩

theorem Woven.join_ne_broken (hw : s.Woven) (a b : κ) : s.join a b ≠ .error .broken := by
  intro hj
  by_cases hab : s.cells.get? a = none ∨ s.cells.get? b = none
  · rw [join_eq_absent hab] at hj
    simp at hj
  · rw [get?_eq_none_iff, get?_eq_none_iff, not_or, not_not, not_not] at hab
    obtain ⟨t, ht, -⟩ := hw.join hab.1 hab.2
    rw [ht] at hj
    simp at hj

theorem Tells.add_error_iff (ht : Tells key s h) (x : α) :
    (∃ f, s.add (key x) x = .error f) ↔ h.knows key x := by
  rw [ht.knows_iff]
  by_cases hx : key x ∈ s.cells.keys
  · simp [add_of_mem hx, hx]
  · simp [add_of_not_mem hx, hx]

theorem Tells.join_error_iff (ht : Tells key s h) (x y : α) :
    (∃ f, s.join (key x) (key y) = .error f) ↔ ¬(h.knows key x ∧ h.knows key y) := by
  rw [ht.knows_iff, ht.knows_iff]
  by_cases hxy : key x ∈ s.cells.keys ∧ key y ∈ s.cells.keys
  · obtain ⟨t, hj, -⟩ := ht.classes.woven.join hxy.1 hxy.2
    simp [hj, hxy]
  · have hnone : s.cells.get? (key x) = none ∨ s.cells.get? (key y) = none := by
      rw [get?_eq_none_iff, get?_eq_none_iff]
      tauto
    simp [join_eq_absent hnone, hxy]

/-- The rings of a soup tell what was done with it, whatever was done. -/
theorem run_faithful (key : α → κ) (ops : List (Op α)) :
    Faithful key (run key ops) (History.run key ops) := by
  have ht := tells_run key ops
  have hw := ht.classes.woven
  refine {
    keys := ht.keys
    next_bijOn := hw.bijOn_next
    prev_invOn := hw.invOn_prev
    ring := fun _ => hw.ring_iterate
    bound := ?_
    add := ht.add_error_iff
    join := ht.join_error_iff
    not_broken := hw.join_ne_broken
    perm := ht.groups_perm
    nonempty := ht.nil_not_mem_groups
    classes := fun _ hx _ => ht.exists_group_iff_joined hx
    earliest := fun _ _ hg _ => ht.groups_earliest hg
    ordered := ht.groups_ordered }
  intro k hk fuel hfuel
  obtain ⟨l, hl, he⟩ := hw.isRing_ringFrom hk
  rw [he, hl.followed_eq hfuel]

/-- Steps on numbers that are known by their last digit: a digit is refused the second
time, and one that was not taken in is not joined. -/
def lastDigitSteps : List (Op Nat) :=
  [.add 1, .add 2, .add 11, .join 1 3, .add 3, .add 4, .add 5, .add 6, .join 3 1, .join 4 5,
   .join 2 4, .join 5 13]

/-- Two rings grow and become one, and `6` stays alone. -/
theorem run_faithful_last_digit :
    (run (· % 10) lastDigitSteps : Soup Nat Nat).groups = [[1, 4, 2, 5, 3], [6]] ∧
      Faithful (· % 10) (run (· % 10) lastDigitSteps : Soup Nat Nat)
        (History.run (· % 10) lastDigitSteps) :=
  ⟨by decide, run_faithful _ _⟩

end Boardwright.Soup
