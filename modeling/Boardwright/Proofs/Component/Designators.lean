import Boardwright.Component.Attribute
import Boardwright.Component.Designator
import Boardwright.Proofs.Design.Reading

/-!
# Designators are distinct

A designator is a word with the first number that makes it free. As many numbers as designators
are used are looked at, and one more is left: if all those that are looked at are taken, they are
all that is used, so the one that is left is free. Hence no two components of a root have the
same designator, and each has one: `designators_eq_ok`.

What a component says of itself is read off its instance, and nothing is changed by it.
-/

namespace Boardwright

open Work Library List

namespace Designator

variable {κ : Type} {used : List String} {named : List (κ × String)}

theorem append_toString_injective (word : String) :
    Function.Injective fun n : Nat => word ++ toString n := by
  intro m n h
  have htexts := congrArg String.toList h
  simp only [String.toList_append, append_cancel_left_eq] at htexts
  exact Text.toString_injective (String.toList_inj.1 htexts)

/-- The numbers that are passed over are taken, and the one that is found is free, unless it is
the last. -/
theorem freeFrom_eq (word : String) (used : List String) (fuel n : Nat) :
    ∃ m ≤ fuel, freeFrom word used fuel n = n + m ∧
      (∀ i < m, word ++ toString (n + i) ∈ used) ∧
      (m < fuel → word ++ toString (n + m) ∉ used) := by
  induction fuel generalizing n with
  | zero => exact ⟨0, Nat.le_refl 0, rfl, by simp, by simp⟩
  | succ fuel ih =>
    rw [freeFrom]
    split
    · next htaken =>
        obtain ⟨m, hm, heq, hpassed, hfree⟩ := ih (n + 1)
        rw [Nat.add_right_comm, Nat.add_assoc] at hfree heq
        refine ⟨m + 1, Nat.succ_le_succ hm, heq, ?_, fun hlt => hfree (Nat.lt_of_succ_lt_succ hlt)⟩
        intro i hi
        cases i with
        | zero => simpa using htaken
        | succ i =>
          have hnext := hpassed i (Nat.lt_of_succ_lt_succ hi)
          rwa [Nat.add_right_comm, Nat.add_assoc] at hnext
    · next hfree => exact ⟨0, Nat.zero_le _, rfl, by simp, fun _ => by simpa using hfree⟩

theorem free_not_mem (word : String) (used : List String) : free word used ∉ used := by
  obtain ⟨m, hm, heq, hpassed, hfree⟩ := freeFrom_eq word used used.length 1
  rw [free, heq]
  intro hmem
  rcases Nat.lt_or_eq_of_le hm with hlt | hlast
  · exact hfree hlt hmem
  -- one more number than there are designators in use would be taken
  · have hinj : Function.Injective fun i : Nat => word ++ toString (1 + i) :=
      fun i j h => Nat.add_left_cancel (append_toString_injective word h)
    have hsubset : (List.range (m + 1)).map (fun i => word ++ toString (1 + i)) ⊆ used := by
      intro d hd
      obtain ⟨i, hi, rfl⟩ := mem_map.1 hd
      rcases Nat.lt_succ_iff_lt_or_eq.1 (mem_range.1 hi) with hi | rfl
      · exact hpassed i hi
      · exact hmem
    have hlength := ((nodup_range.map hinj).subperm hsubset).length_le
    rw [length_map, length_range, hlast] at hlength
    exact Nat.not_succ_le_self _ hlength

theorem map_fst_assign (used : List String) (named : List (κ × String)) :
    (assign used named).map (·.1) = named.map (·.1) := by
  induction named generalizing used with
  | nil => rfl
  | cons e named ih => simp [assign, ih]

theorem nodup_assign (used : List String) (named : List (κ × String)) :
    ((assign used named).map (·.2)).Nodup ∧ ∀ d ∈ (assign used named).map (·.2), d ∉ used := by
  induction named generalizing used with
  | nil => simp [assign]
  | cons e named ih =>
    obtain ⟨hnodup, hnew⟩ := ih (free e.2 used :: used)
    simp only [mem_cons, not_or] at hnew
    rw [assign, map_cons, nodup_cons, forall_mem_cons]
    exact ⟨⟨fun hmem => (hnew _ hmem).1 rfl, hnodup⟩, free_not_mem e.2 used,
      fun d hd => (hnew d hd).2⟩

theorem eq_of_get? [BEq κ] [LawfulBEq κ] {ds : Table κ String} (hds : ds.values.Nodup) {a b : κ}
    {d : String} (ha : ds.get? a = some d) (hb : ds.get? b = some d) : a = b := by
  have hentries := inj_on_of_nodup_map hds (Table.mem_entries_of_get? ha)
    (Table.mem_entries_of_get? hb) rfl
  exact (Prod.mk.inj hentries).1

end Designator

namespace Component

variable {files : Files} {searched : List Route} {lib lib' : Library} {a r root : Address}
  {cs : List Address}

/-! ### What a component says of itself -/

section Reads

variable (h : Shares files searched r lib lib) (ha : r.Tree a)

include h ha

theorem reads_word : Guards (· = lib) (word a) :=
  (h.reads_dataOf ha).bind fun _ _ => .pure trivial

theorem reads_namedPart : Guards (· = lib) (namedPart a) := by
  refine (h.reads_dataOf ha).bind fun i _ => ?_
  split
  · exact .pure trivial
  · exact .throw _

theorem reads_generic (kind : PartKind) : Guards (· = lib) (generic a kind) := by
  have hwish {α : Type} {f : PartWish Float → Work Library α} (hf : ∀ w, Guards (· = lib) (f w)) :
      Guards (· = lib) (do f (← Work.ofExcept (wish a kind (← dataOf a)))) :=
    (h.reads_dataOf ha).bind fun i _ => .ofExcept_bind hf
  refine hwish fun w => ?_
  split
  · exact .throw _
  · refine hwish fun w => ?_
    split
    · exact .pure trivial
    · exact .throw _

theorem reads_part : Guards (· = lib) (part a) := by
  refine (reads_namedPart h ha).bind fun named _ => ?_
  split
  · exact (reads_generic h ha _).bind fun _ _ => .pure trivial
  · exact .pure trivial

theorem reads_value : Guards (· = lib) (value a) := by
  refine (reads_namedPart h ha).bind fun named _ => ?_
  split
  · exact (reads_generic h ha _).bind fun _ _ => .pure trivial
  · exact (h.reads_dataOf ha).bind fun _ _ => .pure trivial

theorem reads_footprint : Guards (· = lib) (footprint a) := by
  refine (h.reads_dataOf ha).bind fun i _ => ?_
  split
  · exact .pure trivial
  · exact .throw _

end Reads

/-! ### Components and their designators -/

theorem below_eq_ok (h : (below root).outcome lib = (.ok cs, lib')) :
    ∃ as, (descendants root).outcome lib = (.ok as, lib') ∧
      cs = as.filter (lib'.made [.component]) ∧ ∀ a ∈ as, ∃ i, lib'.instances.get? a = some i := by
  obtain ⟨as, lib₁, has, hfilter⟩ := bind_eq_ok.1 h
  obtain rfl := (reads_filterM _ as).state rfl hfilter
  exact ⟨as, has, (reads_filterM _ as).result rfl hfilter⟩

theorem below_tree (hlib : Reached files searched lib)
    (h : (below root).outcome lib = (.ok cs, lib')) :
    ∃ (r : Address) (as : List Address), r.Tree root ∧
      (descendants root).outcome lib = (.ok as, lib') ∧ cs = as.filter (lib'.made [.component]) ∧
      Shares files searched r lib' lib' ∧ (descendants root).outcome lib' = (.ok as, lib') ∧
      ∀ a ∈ as, r.Tree a := by
  obtain ⟨as, has, hcs, hthere⟩ := below_eq_ok h
  have hwalk : Keeps (Sound files searched) (fun as => root ∈ as) (descendants root) :=
    keeps_descendants Sound.keeps_tree root
  obtain ⟨i, hi⟩ := hthere root (hwalk.result hlib.sound has)
  obtain ⟨r, q, hr, hq, hrq⟩ := ((hwalk.state hlib.sound has).instances root i hi).1
  have hroot : r.Tree root := ⟨hr, q, hq, hrq⟩
  exact ⟨r, as, hroot, has, hcs, hlib.descendants_tree hroot has⟩

/-- The components of a root, in the order in which they are met, have distinct designators. -/
theorem designators_eq_ok {ds : Table Address String} (h : Shares files searched r lib lib)
    (hds : (designators r).outcome lib = (.ok ds, lib')) :
    lib' = lib ∧ ds.values.Nodup ∧
      ∃ as, (descendants r).outcome lib = (.ok as, lib) ∧
        ds.keys = as.filter (lib.made [.component]) := by
  have hself : r.Tree r := ⟨h.root, .refl r⟩
  obtain ⟨cs, lib₁, hcs, hds⟩ := bind_eq_ok.1 hds
  obtain ⟨named, lib₂, hnamed, hend⟩ := bind_eq_ok.1 hds
  cases hend
  obtain ⟨as, has, rfl, -⟩ := below_eq_ok hcs
  obtain rfl := h.eq_of_descendants hself has
  have htree := (h.left.descendants_tree hself has).2.2
  have hkeeps : Keeps (· = lib₁) (List.Forall₂ (fun a p => a = p.1) _)
      ((as.filter (lib₁.made [.component])).mapM fun a => do return (a, ← word a)) :=
    Keeps.mapM fun a ha => (reads_word h (htree a (mem_filter.1 ha).1)).bind
      fun w _ => .pure rfl
  have hkeys := map_eq_map_of_forall₂ (f := id) (g := Prod.fst) (hkeeps.result rfl hnamed)
    fun _ _ h => h
  refine ⟨hkeeps.state rfl hnamed, (Designator.nodup_assign [] named).1, as, has, ?_⟩
  rw [Table.keys, Designator.map_fst_assign, ← hkeys, map_id]

end Component

end Boardwright
