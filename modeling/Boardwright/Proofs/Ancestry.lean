import Boardwright.Ancestry
import Boardwright.Proofs.Table

/-!
# The lowest common ancestor

Chains of ancestors in one forest that have a key in common have all keys above it in common. So
the keys of the first chain that another one has are those from some place on, and the furthest of
these places is that of the first item whose key all chains have.
-/

namespace Boardwright.Ancestry

open List

variable {α κ : Type} {parent : κ → Option κ} {i j m : Nat} {k x : κ} {ks ks' : List κ}

/-- The keys from a node of a forest up to its root: the parent of each is the next one, and the
last one has none. -/
def Ascent (parent : κ → Option κ) (ks : List κ) : Prop :=
  ks.map parent = ks.tail.map some ++ [none]

namespace Ascent

theorem parent_eq (h : Ascent parent ks) (hi : ks[i]? = some k) : parent k = ks[i + 1]? := by
  have hparent := congrArg (·[i]?) h
  simp only [getElem?_map, hi, Option.map_some, getElem?_append, length_map, getElem?_tail,
    length_tail] at hparent
  split at hparent <;> grind

theorem above_eq (h : Ascent parent ks) (h' : Ascent parent ks') (hi : ks[i]? = some k)
    (hj : ks'[j]? = some k) (n : Nat) : ks[i + n]? = ks'[j + n]? := by
  induction n with
  | zero => exact hi.trans hj.symm
  | succ n ih =>
    cases hx : ks[i + n]? with
    | some x => exact (h.parent_eq hx).symm.trans (h'.parent_eq (ih ▸ hx))
    | none =>
      have hx' := ih ▸ hx
      rw [getElem?_eq_none_iff] at hx hx'
      exact (getElem?_eq_none (Nat.le_succ_of_le hx)).trans
        (getElem?_eq_none (Nat.le_succ_of_le hx')).symm

theorem nodup (h : Ascent parent ks) : ks.Nodup := by
  refine pairwise_iff_getElem.2 fun i j hi hj hij heq => ?_
  have hend := h.above_eq h (getElem?_eq_getElem hi) (heq ▸ getElem?_eq_getElem hj) (ks.length - j)
  rw [getElem?_eq_getElem (by omega), getElem?_eq_none (by omega)] at hend
  cases hend

/-- From the first key that it shares with another one, a chain goes on as that one. -/
theorem mem_iff_le (h : Ascent parent ks) (h' : Ascent parent ks') (hi : ks[i]? = some k)
    (hj : ks'[j]? = some k) (hfirst : ∀ n < j, ∀ b, ks'[n]? = some b → b ∉ ks)
    (hm : ks[m]? = some x) : x ∈ ks' ↔ i ≤ m := by
  have hsame := h.above_eq h' hi hj
  constructor
  · intro hx
    obtain ⟨n, hn⟩ := mem_iff_getElem?.1 hx
    have hle : j ≤ n := Nat.le_of_not_lt fun hlt => hfirst n hlt x hn (mem_of_getElem? hm)
    rw [← Nat.add_sub_cancel' hle, ← hsame, ← hm] at hn
    have hlt := (List.getElem?_eq_some_iff.1 hm).1
    rw [(getElem?_inj hlt h.nodup).1 hn.symm]
    exact Nat.le_add_right ..
  · intro hle
    refine mem_of_getElem? (i := j + (m - i)) ?_
    rw [← hsame, Nat.add_sub_cancel' hle, hm]

end Ascent

variable {key : α → κ} {xs ys : List α} {rest : List (List α)} [BEq κ] [LawfulBEq κ]

theorem get?_places (h : (xs.map key).Nodup) :
    (places key xs).get? k = some i ↔ (xs.map key)[i]? = some k := by
  have hfst : (xs.map key).zipIdx.map Prod.fst = xs.map key := zipIdx_map_fst ..
  have hentries := Table.entries_ofList (hfst.symm ▸ h)
  rw [places, Table.get?_eq_some_iff, hentries, mem_zipIdx_iff_getElem?]
  rwa [Table.keys, hentries, hfst]

theorem get?_places_eq_none (h : (xs.map key).Nodup) :
    (places key xs).get? k = none ↔ k ∉ xs.map key := by
  simp only [Option.eq_none_iff_forall_ne_some, ne_eq, get?_places h, mem_iff_getElem?, not_exists]

/-- Where a chain meets the first one, if it does. -/
theorem place_cases (hxs : Ascent parent (xs.map key)) (hys : Ascent parent (ys.map key)) :
    (∃ j < xs.length, (ys.findSome? fun y => (places key xs).get? (key y)) = some j ∧
      ∀ m x, xs[m]? = some x → (key x ∈ ys.map key ↔ j ≤ m)) ∨
    (ys.findSome? fun y => (places key xs).get? (key y)) = none ∧ ∀ y ∈ ys, key y ∉ xs.map key := by
  cases hfound : ys.findSome? fun y => (places key xs).get? (key y) with
  | none =>
    exact .inr ⟨rfl, fun y hy => (get?_places_eq_none hxs.nodup).1 (findSome?_eq_none_iff.1 hfound y hy)⟩
  | some j =>
    obtain ⟨before, y, after, rfl, hy, hbefore⟩ := findSome?_eq_some_iff.1 hfound
    rw [get?_places hxs.nodup] at hy
    have hj := (List.getElem?_eq_some_iff.1 hy).1
    refine .inl ⟨j, by rwa [length_map] at hj, rfl, fun m x hx => ?_⟩
    refine hxs.mem_iff_le hys hy (j := before.length) (by simp) (fun n hn b hb => ?_) (by simp [hx])
    rw [getElem?_map, getElem?_append_left hn] at hb
    obtain ⟨z, hz, rfl⟩ := Option.map_eq_some_iff.1 hb
    exact (get?_places_eq_none hxs.nodup).1 (hbefore z (mem_of_getElem? hz))

theorem furthest_cases (hxs : Ascent parent (xs.map key))
    (hrest : ∀ ys ∈ rest, Ascent parent (ys.map key)) (hi : i < xs.length) (validate : Bool) :
    (∃ n < xs.length, furthest key validate xs (places key xs) rest i = .ok n ∧
      ∀ m x, xs[m]? = some x → ((∀ ys ∈ rest, key x ∈ ys.map key) ∧ i ≤ m ↔ n ≤ m)) ∨
    furthest key validate xs (places key xs) rest i = .error .nothingShared ∧
      ∃ ys ∈ rest, ∀ y ∈ ys, key y ∉ xs.map key := by
  induction rest generalizing i with
  | nil => exact .inl ⟨i, hi, rfl, by simp⟩
  | cons ys rest ih =>
    rw [forall_mem_cons] at hrest
    rw [furthest]
    rcases place_cases hxs hrest.1 with ⟨j, hj, hfound, hmeets⟩ | ⟨hfound, hnone⟩ <;> rw [hfound]
    · -- the furthest place so far is moved to where this chain meets the first one
      have hstep : (if i < j then do
            reached validate xs (places key xs) j
            furthest key validate xs (places key xs) rest j
          else furthest key validate xs (places key xs) rest i) =
          furthest key validate xs (places key xs) rest (max i j) := by
        split
        · next hij =>
            rw [reached, if_pos (by simp [hj]), Nat.max_eq_right (Nat.le_of_lt hij)]
            rfl
        · next hij => rw [Nat.max_eq_left (Nat.le_of_not_lt hij)]
      dsimp only
      rw [hstep]
      refine (ih hrest.2 (Nat.max_lt.2 ⟨hi, hj⟩)).imp ?_ ?_
      · rintro ⟨n, hn, hok, hcommon⟩
        refine ⟨n, hn, hok, fun m x hx => ?_⟩
        rw [← hcommon m x hx, forall_mem_cons, hmeets m x hx, Nat.max_le]
        grind
      · rintro ⟨herror, ys', hys', hnone⟩
        exact ⟨herror, ys', mem_cons_of_mem ys hys', hnone⟩
    · exact .inr ⟨rfl, ys, mem_cons_self, hnone⟩

/-- Whether the key of an item occurs in all chains. -/
def isShared (key : α → κ) (chains : List (List α)) (x : α) : Bool :=
  chains.all fun ys => (ys.map key).contains (key x)

theorem closestCommon_eq (hchains : ∀ ys ∈ xs :: rest, Ascent parent (ys.map key))
    (validate : Bool) :
    closestCommon key validate (xs :: rest) =
        (xs.find? (isShared key rest)).elim (.error .nothingShared) .ok ∧
      (xs.find? (isShared key rest) = none ↔ ∃ ys ∈ rest, ∀ y ∈ ys, key y ∉ xs.map key) := by
  rw [forall_mem_cons] at hchains
  have hpos : 0 < xs.length := by
    refine length_pos_iff.2 ?_
    rintro rfl
    cases hchains.1
  have hmeet : ∀ x ∈ xs, isShared key rest x = true → ¬∃ ys ∈ rest, ∀ y ∈ ys, key y ∉ xs.map key := by
    rintro x hx hall ⟨ys, hys, hnone⟩
    obtain ⟨y, hy, hyx⟩ := mem_map.1 (contains_iff_mem.1 (all_eq_true.1 hall ys hys))
    exact hnone y hy (hyx ▸ mem_map_of_mem hx)
  rw [closestCommon, reached, if_pos (by simp [hpos])]
  rcases furthest_cases hchains.1 hchains.2 hpos validate with ⟨n, hn, hok, hplace⟩ | ⟨herror, hnone⟩
  · have hplace : ∀ m (hm : m < xs.length), isShared key rest xs[m] = true ↔ n ≤ m := by
      intro m hm
      rw [← hplace m xs[m] (getElem?_eq_getElem hm)]
      simp [isShared]
    have hfirst := (hplace n hn).2 (Nat.le_refl n)
    have hfind : xs.find? (isShared key rest) = some xs[n] := by
      refine find?_eq_some_iff_getElem.2 ⟨hfirst, n, hn, rfl, fun m hm => ?_⟩
      simpa using mt (hplace m (Nat.lt_trans hm hn)).1 (Nat.not_le_of_lt hm)
    rw [hfind]
    refine ⟨?_, iff_of_false nofun (hmeet _ (getElem_mem hn) hfirst)⟩
    simp only [bind, Except.bind, hok, getElem?_eq_getElem hn]
    rfl
  · have hfind : xs.find? (isShared key rest) = none :=
      find?_eq_none.2 fun x hx hall => hmeet x hx hall hnone
    rw [hfind]
    refine ⟨?_, iff_of_true rfl hnone⟩
    simp only [bind, Except.bind, herror]
    rfl

/-- For a family of chains of ancestors in a forest, the closest common item is the first item of
the first chain whose key occurs in all chains, whatever the order of the others and whether the
root is validated or not. There is none exactly if some chain shares no key with the first one. -/
theorem closestCommon_lowest (hchains : ∀ ys ∈ xs :: rest, Ascent parent (ys.map key))
    (validate : Bool) :
    closestCommon key validate (xs :: rest) =
        (xs.find? (isShared key rest)).elim (.error .nothingShared) .ok ∧
      (closestCommon key validate (xs :: rest) = .error .nothingShared ↔
        ∃ ys ∈ rest, ∀ y ∈ ys, key y ∉ xs.map key) ∧
      ∀ rest' validate', rest'.Perm rest →
        closestCommon key validate' (xs :: rest') = closestCommon key validate (xs :: rest) := by
  obtain ⟨heq, hnone⟩ := closestCommon_eq hchains validate
  refine ⟨heq, ?_, fun rest' validate' hperm => ?_⟩
  · rw [← hnone, heq]
    cases xs.find? _ <;> simp
  · have hchains' := fun ys hys => hchains ys ((hperm.cons xs).mem_iff.1 hys)
    have hshared : isShared key rest' = isShared key rest := funext fun x => hperm.all_eq
    rw [heq, (closestCommon_eq hchains' validate').1, hshared]

/-- The forest in which a number stands below its half. -/
def half (n : Nat) : Option Nat := if n ≤ 1 then none else some (n / 2)

theorem closestCommon_lowest_half :
    (∀ ys ∈ [[5, 2, 1], [9, 4, 2, 1], [3, 1]], Ascent half (ys.map id)) ∧
      closestCommon id true [[5, 2, 1], [9, 4, 2, 1], [3, 1]] = .ok 1 := by
  have h : ∀ ys ∈ [[5, 2, 1], [9, 4, 2, 1], [3, 1]], Ascent half (ys.map id) := by
    unfold Ascent
    decide
  exact ⟨h, (closestCommon_lowest h true).1⟩

end Boardwright.Ancestry
