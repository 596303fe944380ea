import Boardwright.Ring
import Boardwright.Proofs.Table
import Mathlib.Data.List.Defs
import Mathlib.Logic.Function.Iterate
import Mathlib.Tactic.Tauto

/-!
# Rings

`Runs s x l z` says that going on from `x` one meets the things of `l` one after
another and then `z`, and that each of them also knows the one before it. The current
thing is carried along, so no index arithmetic is needed; `runs_append` splits a run in
the middle. A ring `IsRing s x l` is a run from `x` back to `x` that meets nothing
twice, and it can be read from any of its things (`IsRing.rotate`).

The bound of `followed` is the number of things. A ring meets each of them at most
once, so the bound is never what ends it: `IsRing.ringFrom_eq`.
-/

open List

namespace Boardwright.Soup

variable {κ α : Type} [BEq κ] {s : Soup κ α} {x y z : κ} {l p q : List κ}

/-- The key that the thing of a key has after it. -/
def after? (s : Soup κ α) (k : κ) : Option κ := (s.cells.get? k).map (·.after)

/-- The key that the thing of a key has before it. -/
def before? (s : Soup κ α) (k : κ) : Option κ := (s.cells.get? k).map (·.before)

/-- The key after a key; the key itself if it has no thing. -/
def next (s : Soup κ α) (k : κ) : κ := (s.after? k).getD k

/-- The key before a key; the key itself if it has no thing. -/
def prev (s : Soup κ α) (k : κ) : κ := (s.before? k).getD k

/-- The thing `y` comes after `x`, and each of them says so. -/
def Linked (s : Soup κ α) (x y : κ) : Prop := s.after? x = some y ∧ s.before? y = some x

/-- From `x` on come the things of `l` and then `z`. -/
def Runs (s : Soup κ α) : κ → List κ → κ → Prop
  | x, [], z => s.Linked x z
  | x, y :: l, z => s.Linked x y ∧ Runs s y l z

/-- The ring of `x` has `l` after `x`. -/
structure IsRing (s : Soup κ α) (x : κ) (l : List κ) : Prop where
  runs : s.Runs x l x
  nodup : (x :: l).Nodup

/-! ### Links and runs -/

theorem Linked.next_eq (h : s.Linked x y) : s.next x = y := by
  simp [next, h.1]

theorem Linked.prev_eq (h : s.Linked x y) : s.prev y = x := by
  simp [prev, h.2]

theorem Linked.right_unique (h : s.Linked x y) (h' : s.Linked x z) : y = z :=
  Option.some.inj (h.1.symm.trans h'.1)

theorem Linked.left_unique (h : s.Linked x z) (h' : s.Linked y z) : x = y :=
  Option.some.inj (h.2.symm.trans h'.2)

theorem runs_cons : s.Runs x (y :: l) z ↔ s.Linked x y ∧ s.Runs y l z := Iff.rfl

theorem runs_append : s.Runs x (p ++ y :: q) z ↔ s.Runs x p y ∧ s.Runs y q z := by
  induction p generalizing x with
  | nil => rfl
  | cons w p ih => rw [cons_append, runs_cons, ih, runs_cons, and_assoc]

/-- A run in another soup that has the same links, except that the last one may lead
elsewhere. -/
theorem Runs.redirect {t : Soup κ α} {z' : κ} (hl : ∀ u w, w ∈ l → s.Linked u w → t.Linked u w)
    (hz : ∀ u, s.Linked u z → t.Linked u z') (h : s.Runs x l z) : t.Runs x l z' := by
  induction l generalizing x with
  | nil => exact hz x h
  | cons y l ih =>
    refine ⟨hl x y (by simp) h.1, ih ?_ h.2⟩
    intro u w hw
    exact hl u w (mem_cons_of_mem y hw)

theorem Runs.exists_linked_last (h : s.Runs x l z) : ∃ u ∈ x :: l, s.Linked u z := by
  induction l generalizing x with
  | nil => exact ⟨x, by simp, h⟩
  | cons y l ih =>
    obtain ⟨u, hu, hz⟩ := ih h.2
    exact ⟨u, mem_cons_of_mem x hu, hz⟩

theorem Runs.exists_linked_first (h : s.Runs x l z) : ∃ w ∈ l ++ [z], s.Linked x w := by
  cases l with
  | nil => exact ⟨z, by simp, h⟩
  | cons y l => exact ⟨y, by simp, h.1⟩

theorem Runs.iterate (h : s.Runs x l z) :
    x :: l = List.iterate s.next x (l.length + 1) ∧ s.next^[l.length + 1] x = z := by
  induction l generalizing x with
  | nil => exact ⟨rfl, Linked.next_eq h⟩
  | cons y l ih =>
    obtain ⟨hl, hz⟩ := ih h.2
    have hy : s.next x = y := h.1.next_eq
    constructor
    · rw [length_cons, List.iterate, hy, ← hl]
    · rw [length_cons, Function.iterate_succ_apply, hy, hz]

/-- A ring read from another of its things. -/
theorem IsRing.rotate (h : s.IsRing x (p ++ y :: q)) : s.IsRing y (q ++ x :: p) := by
  obtain ⟨hp, hq⟩ := runs_append.1 h.runs
  refine ⟨runs_append.2 ⟨hq, hp⟩, ?_⟩
  have hperm : ((x :: p) ++ y :: q).Perm ((y :: q) ++ x :: p) := perm_append_comm
  exact hperm.nodup_iff.1 h.nodup

/-- The ring of a thing that stands in the ring of `x` has the same things. -/
theorem IsRing.exists_of_mem (h : s.IsRing x l) (hy : y ∈ x :: l) :
    ∃ m, s.IsRing y m ∧ ∀ z, z ∈ y :: m ↔ z ∈ x :: l := by
  obtain rfl | hy := mem_cons.1 hy
  · exact ⟨l, h, fun _ => Iff.rfl⟩
  · obtain ⟨p, q, rfl⟩ := append_of_mem hy
    refine ⟨q ++ x :: p, h.rotate, ?_⟩
    intro z
    simp only [mem_cons, mem_append]
    tauto

/-! ### Following a ring -/

variable [LawfulBEq κ] {fuel : Nat}

theorem mem_keys_of_after? (h : s.after? x = some y) : x ∈ s.cells.keys := by
  obtain ⟨c, hc, -⟩ := Option.map_eq_some_iff.1 h
  exact Table.mem_keys_of_get? hc

theorem mem_keys_of_before? (h : s.before? x = some y) : x ∈ s.cells.keys := by
  obtain ⟨c, hc, -⟩ := Option.map_eq_some_iff.1 h
  exact Table.mem_keys_of_get? hc

theorem Runs.mem_keys (h : s.Runs x l z) : ∀ k ∈ x :: l, k ∈ s.cells.keys := by
  induction l generalizing x with
  | nil =>
    intro k hk
    rw [mem_singleton.1 hk]
    exact mem_keys_of_after? (And.left h)
  | cons y l ih =>
    intro k hk
    obtain rfl | hk := mem_cons.1 hk
    · exact mem_keys_of_after? h.1.1
    · exact ih h.2 k hk

theorem followed_of_runs {start : κ} (h : s.Runs x l start) (hl : start ∉ l)
    (hfuel : l.length < fuel) : s.followed start fuel x = l := by
  induction l generalizing x fuel with
  | nil =>
    obtain ⟨fuel, rfl⟩ := Nat.exists_eq_add_of_lt hfuel
    obtain ⟨c, hc, hcz⟩ := Option.map_eq_some_iff.1 (And.left h)
    simp [followed, hc, hcz]
  | cons y l ih =>
    obtain ⟨fuel, rfl⟩ : ∃ n, fuel = n + 1 := ⟨fuel - 1, by simp at hfuel; omega⟩
    obtain ⟨c, hc, hcy⟩ := Option.map_eq_some_iff.1 h.1.1
    have hys : y ≠ start := fun e => hl (by simp [e])
    have hl' : start ∉ l := fun h' => hl (mem_cons_of_mem y h')
    have ih := ih h.2 hl' (by simpa using hfuel)
    simp [followed, hc, hcy, hys, ih]

theorem IsRing.mem_keys (h : s.IsRing x l) : ∀ k ∈ x :: l, k ∈ s.cells.keys :=
  h.runs.mem_keys

theorem IsRing.length_lt (h : s.IsRing x l) : l.length < s.cells.size := by
  have hle := h.nodup.length_le_of_subset h.mem_keys
  rwa [length_cons, Table.length_keys] at hle

theorem IsRing.followed_eq (h : s.IsRing x l) (hfuel : s.cells.size ≤ fuel) :
    s.followed x fuel x = l :=
  followed_of_runs h.runs (nodup_cons.1 h.nodup).1 (Nat.lt_of_lt_of_le h.length_lt hfuel)

theorem IsRing.ringFrom_eq (h : s.IsRing x l) : s.ringFrom x = x :: l := by
  rw [ringFrom, h.followed_eq (Nat.le_refl _)]

end Boardwright.Soup
