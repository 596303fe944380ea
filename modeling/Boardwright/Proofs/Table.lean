import Boardwright.Table
import Mathlib.Data.List.Induction

/-!
# Laws of tables

What each operation does to the two views of a table: the value of a key, `get?`,
and the list of keys in order. Setting, changing and erasing a key concern this key
alone. A key that is set for the first time comes last; setting it again and changing
its value leave the keys as they are.

The keys of a table are distinct as soon as they were made by `set`, and then an entry
is the same as a key with its value.
-/

open List

namespace Boardwright.Table

variable {κ ν : Type}

@[simp] theorem keys_empty : (∅ : Table κ ν).keys = [] := rfl

@[simp] theorem length_keys (t : Table κ ν) : t.keys.length = t.size := by
  simp [keys, size]

variable [BEq κ] {μ : Type}

@[simp] theorem get?_empty (k : κ) : (∅ : Table κ ν).get? k = none := rfl

@[simp] theorem keys_modify (t : Table κ ν) (k : κ) (f : ν → ν) :
    (t.modify k f).keys = t.keys := by
  simp only [keys, modify, map_map]
  apply map_congr_left
  intro e _
  by_cases he : e.1 == k <;> simp [he]

theorem lookup_cons (k : κ) (e : κ × ν) (es : List (κ × ν)) :
    (e :: es).lookup k = if k == e.1 then some e.2 else es.lookup k := by
  rw [List.lookup_cons]
  cases k == e.1 <;> rfl

theorem erase_comm (t : Table κ ν) (k k' : κ) : (t.erase k).erase k' = (t.erase k').erase k := by
  simp only [erase, filter_filter, Bool.and_comm]

theorem foldl_erase_erase (ks : List κ) (t : Table κ ν) (k : κ) :
    ks.foldl erase (t.erase k) = (ks.foldl erase t).erase k := by
  induction ks generalizing t with
  | nil => rfl
  | cons k' ks ih => rw [foldl_cons, foldl_cons, erase_comm, ih]

theorem get?_map (t : Table κ ν) (f : ν → μ) (k : κ) :
    (t.map f).get? k = (t.get? k).map f := by
  obtain ⟨es⟩ := t
  rw [map, get?, get?]
  induction es with
  | nil => rfl
  | cons e es ih =>
    rw [map_cons, lookup_cons, lookup_cons, ih]
    cases k == e.1 <;> rfl

theorem map_set (t : Table κ ν) (f : ν → μ) (k : κ) (v : ν) :
    (t.set k v).map f = (t.map f).set k (f v) := by
  obtain ⟨es⟩ := t
  rw [map, set, set, map, mk.injEq]
  induction es with
  | nil => rfl
  | cons e es ih =>
    rw [map_cons, setEntry, setEntry]
    cases he : e.1 == k <;> simp [ih]

theorem ofList_concat (es : List (κ × ν)) (e : κ × ν) :
    ofList (es ++ [e]) = (ofList es).set e.1 e.2 := by
  simp [ofList, foldl_append]

variable [LawfulBEq κ] {k k' : κ} {t : Table κ ν} {es : List (κ × ν)} {e : κ × ν}

theorem lookup_setEntry (k k' : κ) (v : ν) (es : List (κ × ν)) :
    (setEntry k v es).lookup k' = if k' == k then some v else es.lookup k' := by
  induction es with
  | nil =>
    by_cases h : k' == k <;> simp [setEntry, lookup_cons, h]
  | cons e es ih =>
    by_cases he : e.1 == k
    · have hk : e.1 = k := eq_of_beq he
      by_cases h : k' == k <;> simp [setEntry, lookup_cons, hk, h]
    · by_cases h : k' == e.1
      · have hk : k' = e.1 := eq_of_beq h
        simp [setEntry, lookup_cons, he, hk]
      · simp [setEntry, lookup_cons, he, h, ih]

theorem get?_set (t : Table κ ν) (k k' : κ) (v : ν) :
    (t.set k v).get? k' = if k' == k then some v else t.get? k' :=
  lookup_setEntry k k' v t.entries

@[simp] theorem get?_set_self (t : Table κ ν) (k : κ) (v : ν) :
    (t.set k v).get? k = some v := by
  simp [get?_set]

theorem get?_set_of_ne (t : Table κ ν) (v : ν) (h : k' ≠ k) :
    (t.set k v).get? k' = t.get? k' := by
  simp [get?_set, h]

theorem get?_erase (t : Table κ ν) (k k' : κ) :
    (t.erase k).get? k' = if k' == k then none else t.get? k' := by
  obtain ⟨es⟩ := t
  simp only [get?, erase]
  induction es with
  | nil => simp
  | cons e es ih =>
    by_cases he : e.1 == k
    · have hk : e.1 = k := eq_of_beq he
      by_cases h : k' == k <;> simp [lookup_cons, hk, h, ih]
    · by_cases h : k' == e.1
      · have hk : k' = e.1 := eq_of_beq h
        simp [lookup_cons, he, hk]
      · simp [lookup_cons, he, h, ih]

theorem get?_erase_of_ne (t : Table κ ν) (h : k' ≠ k) :
    (t.erase k).get? k' = t.get? k' := by
  simp [get?_erase, h]

theorem get?_foldl_erase (ks : List κ) (t : Table κ ν) (k : κ) :
    (ks.foldl erase t).get? k = if ks.contains k then none else t.get? k := by
  induction ks generalizing t with
  | nil => rfl
  | cons x ks ih =>
    rw [foldl_cons, ih, get?_erase, contains_cons]
    by_cases hx : k == x <;> simp [hx]

theorem get?_modify (t : Table κ ν) (k k' : κ) (f : ν → ν) :
    (t.modify k f).get? k' = if k' == k then (t.get? k').map f else t.get? k' := by
  obtain ⟨es⟩ := t
  simp only [get?, modify]
  induction es with
  | nil => simp
  | cons e es ih =>
    by_cases h : k' == e.1
    · have hk : k' = e.1 := eq_of_beq h
      by_cases he : e.1 == k <;> simp [lookup_cons, hk, he]
    · by_cases he : e.1 == k <;> simp [lookup_cons, h, he, ih]

@[simp] theorem get?_modify_self (t : Table κ ν) (k : κ) (f : ν → ν) :
    (t.modify k f).get? k = (t.get? k).map f := by
  simp [get?_modify]

theorem get?_modify_of_ne (t : Table κ ν) (f : ν → ν) (h : k' ≠ k) :
    (t.modify k f).get? k' = t.get? k' := by
  simp [get?_modify, h]

/-! ### Keys -/

theorem contains_iff_mem_keys : t.contains k ↔ k ∈ t.keys := by
  simp [contains, keys]

theorem get?_isSome_iff : (t.get? k).isSome ↔ k ∈ t.keys := by
  obtain ⟨es⟩ := t
  simp only [get?, keys]
  induction es with
  | nil => simp
  | cons e es ih =>
    by_cases h : k == e.1
    · simp [lookup_cons, eq_of_beq h]
    · have hk : k ≠ e.1 := by simpa using h
      rw [lookup_cons, if_neg h, ih, map_cons, mem_cons, or_iff_right hk]

theorem contains_eq_isSome (t : Table κ ν) (k : κ) : t.contains k = (t.get? k).isSome := by
  rw [Bool.eq_iff_iff, contains_iff_mem_keys, get?_isSome_iff]

theorem mem_entries_of_get? {v : ν} (h : t.get? k = some v) :
    (k, v) ∈ t.entries := by
  obtain ⟨es, es', he, -⟩ := lookup_eq_some_iff.1 h
  simp [he]

theorem mem_keys_iff : k ∈ t.keys ↔ ∃ v, t.get? k = some v := by
  rw [← get?_isSome_iff, Option.isSome_iff_exists]

theorem mem_keys_of_get? {v : ν} (h : t.get? k = some v) :
    k ∈ t.keys :=
  mem_keys_iff.2 ⟨v, h⟩

theorem get?_eq_none_iff : t.get? k = none ↔ k ∉ t.keys := by
  rw [← get?_isSome_iff]
  simp

theorem keys_set_of_mem (v : ν) (h : k ∈ t.keys) :
    (t.set k v).keys = t.keys := by
  obtain ⟨es⟩ := t
  simp only [keys, set] at h ⊢
  induction es with
  | nil => simp at h
  | cons e es ih =>
    by_cases he : e.1 == k
    · simp [setEntry, he]
    · have hk : k ≠ e.1 := fun h' => he (by simp [h'])
      have hmem : k ∈ es.map (·.1) := by simpa [hk] using h
      simp only [setEntry, he, Bool.false_eq_true, if_false, map_cons, ih hmem]

theorem entries_set_of_not_mem (v : ν) (h : k ∉ t.keys) :
    (t.set k v).entries = t.entries ++ [(k, v)] := by
  obtain ⟨es⟩ := t
  simp only [keys, set] at h ⊢
  induction es with
  | nil => rfl
  | cons e es ih =>
    have he : (e.1 == k) = false := by
      rw [beq_eq_false_iff_ne]
      rintro rfl
      simp at h
    have hmem : k ∉ es.map (·.1) := fun h' => h (by simp [h'])
    simp only [setEntry, he, Bool.false_eq_true, if_false, ih hmem, cons_append]

theorem keys_set_of_not_mem (v : ν) (h : k ∉ t.keys) :
    (t.set k v).keys = t.keys ++ [k] := by
  rw [keys, entries_set_of_not_mem v h, map_append]
  rfl

theorem mem_keys_set {v : ν} :
    k' ∈ (t.set k v).keys ↔ k' = k ∨ k' ∈ t.keys := by
  by_cases h : k ∈ t.keys
  · rw [keys_set_of_mem v h]
    exact ⟨Or.inr, fun h' => h'.elim (fun e => e ▸ h) id⟩
  · rw [keys_set_of_not_mem v h]
    simp [or_comm]

theorem erase_set_of_not_mem (v : ν) (h : k ∉ t.keys) :
    (t.set k v).erase k = t := by
  obtain ⟨es⟩ := t
  simp only [erase, entries_set_of_not_mem v h, filter_append]
  have hes : es.filter (fun e => !(e.1 == k)) = es := by
    rw [filter_eq_self]
    intro e he
    have hk : e.1 ≠ k := by
      rintro rfl
      exact h (mem_map_of_mem he)
    simpa using hk
  simp [hes]

theorem keys_nodup_set (k : κ) (v : ν) (h : t.keys.Nodup) :
    (t.set k v).keys.Nodup := by
  by_cases hk : k ∈ t.keys
  · rwa [keys_set_of_mem v hk]
  · rw [keys_set_of_not_mem v hk, nodup_append]
    refine ⟨h, by simp, ?_⟩
    intro a ha b hb
    rw [mem_singleton.1 hb]
    rintro rfl
    exact hk ha

/-! ### Tables made from lists -/

theorem mem_setEntry {v : ν} (he : e ∈ setEntry k v es) :
    e = (k, v) ∨ e ∈ es := by
  induction es with
  | nil => exact Or.inl (mem_singleton.1 he)
  | cons e' es ih =>
    rw [setEntry] at he
    split at he
    · next hk =>
        rw [eq_of_beq hk] at he
        exact (mem_cons.1 he).imp_right (mem_cons_of_mem e')
    · rcases mem_cons.1 he with rfl | he
      · exact Or.inr mem_cons_self
      · exact (ih he).imp_right (mem_cons_of_mem e')

theorem mem_of_mem_ofList (he : e ∈ (ofList es).entries) :
    e ∈ es := by
  have hfold : ∀ (es : List (κ × ν)) (t : Table κ ν),
      e ∈ (es.foldl (fun t e => t.set e.1 e.2) t).entries → e ∈ t.entries ∨ e ∈ es := by
    intro es
    induction es with
    | nil => exact fun t h => Or.inl h
    | cons e' es ih =>
      intro t h
      rcases ih _ h with h | h
      · rcases mem_setEntry h with rfl | h
        · exact Or.inr mem_cons_self
        · exact Or.inl h
      · exact Or.inr (mem_cons_of_mem e' h)
  exact (hfold es ∅ he).resolve_left not_mem_nil

/-- Entries with different keys are kept as they are. -/
theorem entries_ofList (h : (es.map (·.1)).Nodup) :
    (ofList es).entries = es := by
  have hfold : ∀ (es : List (κ × ν)) (t : Table κ ν), (t.keys ++ es.map (·.1)).Nodup →
      (es.foldl (fun t e => t.set e.1 e.2) t).entries = t.entries ++ es := by
    intro es
    induction es with
    | nil => exact fun t _ => (append_nil _).symm
    | cons e es ih =>
      intro t ht
      have hnot : e.1 ∉ t.keys := by
        intro hmem
        exact (nodup_append.1 ht).2.2 e.1 hmem e.1 (by simp) rfl
      have hnodup : ((t.set e.1 e.2).keys ++ es.map (·.1)).Nodup := by
        rw [keys_set_of_not_mem e.2 hnot]
        simpa using ht
      rw [foldl_cons, ih _ hnodup, entries_set_of_not_mem e.2 hnot]
      simp
  exact hfold es ∅ (by simpa using h)

theorem get?_eq_some_iff (h : t.keys.Nodup) {v : ν} :
    t.get? k = some v ↔ (k, v) ∈ t.entries := by
  refine ⟨mem_entries_of_get?, fun hmem => ?_⟩
  obtain ⟨es⟩ := t
  simp only [get?, keys] at h hmem ⊢
  induction es with
  | nil => exact absurd hmem not_mem_nil
  | cons e es ih =>
    rw [map_cons, nodup_cons] at h
    rcases mem_cons.1 hmem with rfl | hmem
    · simp [lookup_cons]
    · have hk : k ≠ e.1 := by
        rintro rfl
        exact h.1 (mem_map.2 ⟨_, hmem, rfl⟩)
      rw [lookup_cons, if_neg (by simpa using hk)]
      exact ih h.2 hmem

theorem get?_ofList [DecidableEq κ] (es : List (κ × ν)) (k : κ) :
    (ofList es).get? k = (es.filterMap fun e => if e.1 = k then some e.2 else none).getLast? := by
  induction es using List.reverseRecOn with
  | nil => rfl
  | append_singleton es e ih =>
    rw [ofList_concat, filterMap_append, getLast?_append]
    by_cases hk : k = e.1
    · simp [hk]
    · rw [get?_set_of_ne _ _ hk, ih]
      simp [Ne.symm hk]

theorem keys_nodup_ofList (es : List (κ × ν)) : (ofList es).keys.Nodup := by
  induction es using List.reverseRecOn with
  | nil => exact nodup_nil
  | append_singleton es e ih =>
    rw [ofList_concat]
    exact keys_nodup_set e.1 e.2 ih

theorem get?_foldl_set {α : Type} (key : α → κ) (value : α → ν) (xs : List α) (t : Table κ ν)
    (k : κ) :
    (xs.foldl (fun t x => t.set (key x) (value x)) t).get? k =
      ((xs.foldl (fun t x => t.set (key x) (value x)) (∅ : Table κ ν)).get? k).or (t.get? k) := by
  induction xs generalizing t with
  | nil => rfl
  | cons x xs ih =>
    rw [foldl_cons, foldl_cons, ih, ih (Table.set ∅ (key x) (value x)), Option.or_assoc]
    congr 1
    by_cases h : k = key x <;> simp [get?_set, h]

/-! ### Items gathered under their keys -/

theorem flatten_values_gather (t : Table κ (List ν)) (k : κ) (x : ν) :
    (t.set k ((t.get? k).getD [] ++ [x])).values.flatten.Perm (t.values.flatten ++ [x]) := by
  obtain ⟨es⟩ := t
  simp only [values, set, get?]
  induction es with
  | nil => simp [setEntry]
  | cons e es ih =>
    rw [setEntry, lookup_cons]
    by_cases h : k = e.1
    · simpa [h] using (perm_append_singleton x _).symm.append_left e.2
    · simpa [h, Ne.symm h] using ih.append_left e.2

/-- Each item is gathered once. -/
theorem flatten_values_groupBy (key : ν → κ) (xs : List ν) :
    (groupBy key xs).values.flatten.Perm xs := by
  have hfold : ∀ (xs : List ν) (t : Table κ (List ν)),
      (xs.foldl (fun t x => t.set (key x) ((t.get? (key x)).getD [] ++ [x])) t).values.flatten.Perm
        (t.values.flatten ++ xs) := by
    intro xs
    induction xs with
    | nil => simp
    | cons x xs ih =>
      intro t
      have hstep := (flatten_values_gather t (key x) x).append_right xs
      rw [append_assoc, singleton_append] at hstep
      exact (ih _).trans hstep
  exact hfold xs ∅

theorem nil_not_mem_groupBy (key : ν → κ) (xs : List ν) : [] ∉ (groupBy key xs).values := by
  have hfold : ∀ (xs : List ν) (t : Table κ (List ν)), [] ∉ t.values →
      [] ∉ (xs.foldl (fun t x => t.set (key x) ((t.get? (key x)).getD [] ++ [x])) t).values := by
    intro xs
    induction xs with
    | nil => exact fun t ht => ht
    | cons x xs ih =>
      intro t ht
      refine ih _ fun hmem => ?_
      obtain ⟨e, he, hnil⟩ := mem_map.1 hmem
      rcases mem_setEntry he with rfl | he
      · simp at hnil
      · exact ht (mem_map.2 ⟨e, he, hnil⟩)
  exact hfold xs ∅ not_mem_nil

/-! ### Tables that agree -/

/-- Tables with the same values under some of the keys. -/
def AgreeOn (A : κ → Prop) (s t : Table κ ν) : Prop := ∀ k, A k → s.get? k = t.get? k

section AgreeOn

variable {A : κ → Prop} {s t : Table κ ν}

theorem AgreeOn.set (h : AgreeOn A s t) (k : κ) (v : ν) : AgreeOn A (s.set k v) (t.set k v) := by
  intro k' hk'
  rw [get?_set, get?_set, h k' hk']

theorem AgreeOn.modify (h : AgreeOn A s t) (k : κ) (f : ν → ν) :
    AgreeOn A (s.modify k f) (t.modify k f) := by
  intro k' hk'
  rw [get?_modify, get?_modify, h k' hk']

theorem AgreeOn.erase (h : AgreeOn A s t) (k : κ) : AgreeOn A (s.erase k) (t.erase k) := by
  intro k' hk'
  rw [get?_erase, get?_erase, h k' hk']

theorem AgreeOn.set_left (h : AgreeOn (¬A ·) s t) (v : ν) (hk : A k) :
    AgreeOn (¬A ·) (s.set k v) t := by
  intro k' hk'
  rw [get?_set_of_ne _ _ (by rintro rfl; exact hk' hk), h k' hk']

theorem AgreeOn.modify_left (h : AgreeOn (¬A ·) s t) (f : ν → ν) (hk : A k) :
    AgreeOn (¬A ·) (s.modify k f) t := by
  intro k' hk'
  rw [get?_modify_of_ne _ _ (by rintro rfl; exact hk' hk), h k' hk']

theorem AgreeOn.erase_left (h : AgreeOn (¬A ·) s t) (hk : A k) :
    AgreeOn (¬A ·) (s.erase k) t := by
  intro k' hk'
  rw [get?_erase_of_ne _ (by rintro rfl; exact hk' hk), h k' hk']

end AgreeOn

end Boardwright.Table

/-! ### Tables with related values -/

namespace Boardwright.Table

variable {κ ν : Type} [BEq κ] {K K' : κ → ν → ν → Prop} {s t : Table κ ν} {k : κ}

/-- Tables with related values under the same keys. -/
def Matches (K : κ → ν → ν → Prop) (s t : Table κ ν) : Prop :=
  ∀ k, Option.Rel (K k) (s.get? k) (t.get? k)

namespace Matches

theorem refl (hK : ∀ k v, K k v v) (t : Table κ ν) : Matches K t t := by
  intro k
  cases t.get? k with
  | none => exact .none
  | some v => exact .some (hK k v)

variable (h : Matches K s t)

include h

theorem symm (hK : ∀ k x y, K k x y → K' k y x) : Matches K' t s := by
  intro k
  have hk := h k
  generalize s.get? k = x at hk ⊢
  generalize t.get? k = y at hk ⊢
  cases hk with
  | none => exact .none
  | some hxy => exact .some (hK k _ _ hxy)

theorem exists_get? {v : ν} (hv : s.get? k = some v) : ∃ w, t.get? k = some w ∧ K k v w := by
  have hk := h k
  rw [hv] at hk
  generalize t.get? k = y at hk
  cases hk with
  | some hvw => exact ⟨_, rfl, hvw⟩

theorem exists_get?' {w : ν} (hw : t.get? k = some w) : ∃ v, s.get? k = some v ∧ K k v w := by
  have hk := h k
  rw [hw] at hk
  generalize s.get? k = x at hk
  cases hk with
  | some hvw => exact ⟨_, rfl, hvw⟩

theorem isSome (k : κ) : (s.get? k).isSome = (t.get? k).isSome := by
  have hk := h k
  generalize s.get? k = x at hk
  generalize t.get? k = y at hk
  cases hk <;> rfl

variable [LawfulBEq κ]

theorem set {v w : ν} (hvw : K k v w) : Matches K (s.set k v) (t.set k w) := by
  intro k'
  by_cases hk : k' = k
  · subst hk
    simpa using hvw
  · rw [get?_set_of_ne _ _ hk, get?_set_of_ne _ _ hk]
    exact h k'

theorem modify {f g : ν → ν} (hfg : ∀ v w, K k v w → K k (f v) (g w)) :
    Matches K (s.modify k f) (t.modify k g) := by
  intro k'
  have hk' := h k'
  by_cases hk : k' = k
  · subst hk
    rw [get?_modify_self, get?_modify_self]
    generalize s.get? k' = x at hk' ⊢
    generalize t.get? k' = y at hk' ⊢
    cases hk' with
    | none => exact .none
    | some hvw => exact .some (hfg _ _ hvw)
  · rw [get?_modify_of_ne _ _ hk, get?_modify_of_ne _ _ hk]
    exact hk'

theorem erase (k : κ) : Matches K (s.erase k) (t.erase k) := by
  intro k'
  rw [get?_erase, get?_erase]
  split
  · exact .none
  · exact h k'

end Matches

end Boardwright.Table
