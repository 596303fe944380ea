import Boardwright.Proofs.Design.Library
import Boardwright.Proofs.Files
import Mathlib.Algebra.GroupWithZero.Nat
import Mathlib.Algebra.Order.BigOperators.Group.Finset
import Mathlib.Logic.Relation

/-!
# What a block requires

A block requires the block that it extends and those that its statements name, to make an
instance of them or to put them in the place of others. From a block only finitely many blocks
are required, directly or indirectly: names lead to blocks of the same file, of files that are
imported, or to built-in ones, and the files that an import can lead to are finitely many.

So each block has a `cost`: the room that it takes and the room of all blocks that it requires. A
block that does not require itself costs more than those that it requires, by its own room:
`cost_add_room_le`.
-/

namespace Boardwright

open Syntax Relation List Library

variable {files : Files} {searched : List Route} {a b c : Address} {d : Definition} {r : Reference}
  {s : Scope} {src : Source}

/-- The block that a statement names: one to make an instance of, or one to take the place of
another. -/
def Syntax.Simple.block? : Simple → Option Reference
  | .assign _ _ (.new _ block) => some block.names
  | .retype _ _ block => some block.names
  | _ => none

/-- A block and one that it requires: the one it extends, or one that a statement of it names. -/
inductive Library.Requires (files : Files) (searched : List Route) (a : Address) : Address → Prop
  | base {b : Address} {d : Definition} (ha : Builtin.ofAddress? a = none)
    (hd : Library.defined files searched a = some d) (hb : d.lookup d.base = .ok b) :
    Requires files searched a b
  | named {b : Address} {d : Definition} {s : Simple} {r : Reference}
    (ha : Builtin.ofAddress? a = none) (hd : Library.defined files searched a = some d)
    (hs : s ∈ simplesOf d.body) (hr : s.block? = some r) (hb : d.lookup r = .ok b) :
    Requires files searched a b

/-- The blocks that a block requires, computed. -/
def Library.required (files : Files) (searched : List Route) (a : Address) : List Address :=
  match Builtin.ofAddress? a, Library.defined files searched a with
  | none, some d => (d.base :: (simplesOf d.body).filterMap Simple.block?).filterMap fun r =>
    (d.lookup r).toOption
  | _, _ => []

theorem Library.Requires.mem_required (h : Requires files searched a b) :
    b ∈ Library.required files searched a := by
  cases h with
  | base ha hd hb =>
    rw [required, ha, hd]
    exact mem_filterMap.2 ⟨_, mem_cons_self, by rw [hb]; rfl⟩
  | named ha hd hs hr hb =>
    rw [required, ha, hd]
    refine mem_filterMap.2 ⟨_, mem_cons_of_mem _ ?_, by rw [hb]; rfl⟩
    exact mem_filterMap.2 ⟨_, hs, hr⟩

/-- If in a list of blocks each one comes after those that require it, none of them requires
itself, nor does any block that they require. -/
theorem Library.acyclic_of_rank {blocks : List Address} (rank : Address → Nat)
    (h : ∀ a ∈ blocks, ∀ b ∈ Library.required files searched a, b ∈ blocks ∧ rank b < rank a)
    (ha : a ∈ blocks) : ∀ x, ReflTransGen (Requires files searched) a x →
      ¬TransGen (Requires files searched) x x := by
  have hmem : ∀ x, ReflTransGen (Requires files searched) a x → x ∈ blocks := by
    intro x hx
    induction hx with
    | refl => exact ha
    | tail _ hreq ih => exact (h _ ih _ hreq.mem_required).1
  have hlt : ∀ x y, x ∈ blocks → TransGen (Requires files searched) x y →
      y ∈ blocks ∧ rank y < rank x := by
    intro x y hx hxy
    induction hxy with
    | single hreq => exact h x hx _ hreq.mem_required
    | tail _ hreq ih =>
      obtain ⟨hc, hrank⟩ := h _ ih.1 _ hreq.mem_required
      exact ⟨hc, hrank.trans ih.2⟩
  exact fun x hx hcycle => Nat.lt_irrefl _ (hlt x x (hmem x hx) hcycle).2

/-! ### What names lead to -/

def Scope.declared (s : Scope) : List Address :=
  s.blocks.map s.address.entryAt ++ s.imports.values.map (·.address)

theorem Scope.mem_declared_of_find (h : s.find r = .ok (some a)) : a ∈ s.declared := by
  unfold find at h
  split at h
  · split at h <;> cases h
  · next n more =>
      split at h
      · next hn =>
          split at h
          · cases h
          · split at h <;> cases h
            exact mem_append_left _ (mem_map_of_mem (contains_iff_mem.1 hn))
      · obtain ⟨i, hi, rfl⟩ := Option.map_eq_some_iff.1 (Except.ok.inj h)
        have hmem : i ∈ s.imports.values := mem_map.2 ⟨_, Table.mem_entries_of_get? hi, rfl⟩
        exact mem_append_right _ (mem_map_of_mem hmem)

/-- A name leads to a built-in block or to what a scope around it declares. -/
theorem mem_of_lookupIn {ss : List Scope} (h : lookupIn r ss = .ok b) :
    b ∈ Builtin.all.map Builtin.address ∨ ∃ s ∈ ss, b ∈ s.declared := by
  induction ss with
  | nil =>
    rw [lookupIn] at h
    split at h
    · next k hk =>
        cases h
        exact Or.inl (mem_map_of_mem (mem_of_find?_eq_some hk))
    · cases h
  | cons s ss ih =>
    rw [lookupIn] at h
    rcases hfind : s.find r with e | _ | x <;> rw [hfind] at h
    · cases h
    · rcases ih h with hb | ⟨s', hs', hb⟩
      · exact Or.inl hb
      · exact Or.inr ⟨s', mem_cons_of_mem s hs', hb⟩
    · cases h
      exact Or.inr ⟨s, mem_cons_self, Scope.mem_declared_of_find hfind⟩

def Files.importable (fs : Files) : Set String :=
  (fun r : Route => (Address.mk r.text).file) '' {r | (∃ x, r = fs.resolve x) ∧ fs.exists? r}

theorem Source.file_mem_importable {word : Token} {what : Path} {file : Token}
    {i : Reference × Import} (h : src.imported word what file = .ok i) :
    i.2.address.file ∈ src.files.importable := by
  unfold imported at h
  split at h
  · cases h
  · next r hr =>
      split at h
      · next a ha =>
          cases h
          obtain ⟨x, -, hx⟩ := mem_map.1 (mem_of_find?_eq_some hr)
          exact ⟨r, ⟨⟨_, hx.symm⟩, find?_some hr⟩, (Address.file_addEntries ha).symm⟩
      · cases h

theorem Source.IsScope.file_of_mem_declared {file : String}
    (hs : src.IsScope file s) (hb : b ∈ s.declared) :
    b.file = file ∨ b.file ∈ src.files.importable := by
  obtain ⟨hfile, pos, stmts, hscope⟩ := hs
  rcases mem_append.1 hb with hb | hb
  · obtain ⟨n, -, rfl⟩ := mem_map.1 hb
    exact Or.inl (by rw [Address.file_entryAt, hfile])
  · obtain ⟨i, hi, rfl⟩ := mem_map.1 hb
    obtain ⟨e, he, rfl⟩ := mem_map.1 hi
    rw [hscope] at he
    obtain ⟨r, hr, hre⟩ := mem_filterMap.1 (Table.mem_of_mem_ofList he)
    obtain ⟨v, -, hv⟩ := mem_filterMap.1 hr
    cases v with
    | importing word what from_ file =>
      cases hv
      rcases himp : src.imported word what file with f | i <;> rw [himp] at hre <;> cases hre
      exact Or.inr (file_mem_importable himp)
    | _ => cases hv

namespace Library

/-! ### Finitely many blocks are required -/

def nameable (files : Files) (searched : List Route) (file : String) : List Address :=
  Builtin.all.map Builtin.address ++ match read { files, searched } file with
    | .ok ds => ds.flatMap fun d => d.closure.flatMap Scope.declared
    | .error _ => []

theorem makes_of_defined (h : defined files searched a = some d) :
    ∃ src : Source, src.files = files ∧ src.Makes a.file d := by
  obtain ⟨ds, hds, hd, -⟩ := exists_read_of_defined h
  obtain ⟨text, f, -, -, hds⟩ := read_eq_ok_iff.1 hds
  have hmakes := Source.makes_of_mem_definitions hds hd
  rw [Address.file_of_isFile (Address.isFile_file a)] at hmakes
  exact ⟨_, rfl, hmakes⟩

theorem Requires.exists_lookup (h : Requires files searched a b) :
    ∃ d r, defined files searched a = some d ∧ d.lookup r = .ok b := by
  cases h with
  | base ha hd hb => exact ⟨_, _, hd, hb⟩
  | named ha hd hs hr hb => exact ⟨_, _, hd, hb⟩

theorem Requires.mem_nameable (h : Requires files searched a b) :
    b ∈ nameable files searched a.file := by
  obtain ⟨d, r, hd, hb⟩ := h.exists_lookup
  obtain ⟨ds, hds, hmem, -⟩ := exists_read_of_defined hd
  simp only [nameable, hds, mem_append, mem_flatMap]
  rcases mem_of_lookupIn hb with hb | ⟨s, hs, hb⟩
  · exact Or.inl hb
  · exact Or.inr ⟨d, hmem, s, hs, hb⟩

theorem Requires.file (h : Requires files searched a b) :
    b.file = a.file ∨ b.file = "<Built-in>" ∨ b.file ∈ files.importable := by
  obtain ⟨d, r, hd, hb⟩ := h.exists_lookup
  obtain ⟨src, rfl, hmakes⟩ := makes_of_defined hd
  rcases mem_of_lookupIn hb with hb | ⟨s, hs, hb⟩
  · obtain ⟨k, -, rfl⟩ := mem_map.1 hb
    right
    left
    cases k <;> decide
  · rcases (hmakes.closure s hs).file_of_mem_declared hb with hfile | hfile
    · exact Or.inl hfile
    · exact Or.inr (Or.inr hfile)

theorem finite_required (files : Files) (searched : List Route) (a : Address) :
    {b | ReflTransGen (Requires files searched) a b}.Finite := by
  let fs : Set String := insert a.file (insert "<Built-in>" files.importable)
  have hfs : fs.Finite := ((files.finite_resolved.image _).insert _).insert _
  have hfile : ∀ b, ReflTransGen (Requires files searched) a b → b.file ∈ fs := by
    intro b hb
    induction hb with
    | refl => exact Or.inl rfl
    | tail _ hreq ih =>
      rcases hreq.file with h | h | h
      · rwa [h]
      · exact Or.inr (Or.inl h)
      · exact Or.inr (Or.inr h)
  have hnamed := hfs.biUnion fun f _ => (nameable files searched f).finite_toSet
  apply (hnamed.insert a).subset
  intro b hb
  rcases reflTransGen_iff_eq_or_transGen.1 hb with rfl | hb
  · exact Or.inl rfl
  · obtain ⟨c, hc, hcb⟩ := TransGen.tail'_iff.1 hb
    exact Or.inr (Set.mem_biUnion (hfile c hc) hcb.mem_nameable)

/-! ### What a block costs -/

/-- The room that a block takes: enough for one more name, and for each path that it replaces. -/
def room (files : Files) (searched : List Route) (a : Address) : Nat :=
  2 + match defined files searched a with
    | some d => (d.replacements.keys.map fun r => 2 * r.length).sum
    | none => 0

/-- The room of a block and of all that it requires. -/
noncomputable def cost (files : Files) (searched : List Route) (a : Address) : Nat :=
  ∑ b ∈ (finite_required files searched a).toFinset, room files searched b

theorem cost_le_of_reflTransGen (h : ReflTransGen (Requires files searched) a b) :
    cost files searched b ≤ cost files searched a := by
  apply Finset.sum_le_sum_of_subset
  intro c hc
  simp only [Set.Finite.mem_toFinset] at hc ⊢
  exact h.trans hc

theorem cost_add_room_le (ha : ¬TransGen (Requires files searched) a a)
    (h : Requires files searched a b) :
    cost files searched b + room files searched a ≤ cost files searched a := by
  have hnot : a ∉ (finite_required files searched b).toFinset := by
    rw [Set.Finite.mem_toFinset]
    exact fun hba => ha (TransGen.head' h hba)
  rw [cost, add_comm, ← Finset.sum_insert hnot]
  apply Finset.sum_le_sum_of_subset
  intro c hc
  simp only [Finset.mem_insert, Set.Finite.mem_toFinset] at hc ⊢
  rcases hc with rfl | hc
  · exact ReflTransGen.refl
  · exact hc.head h

theorem two_le_room (files : Files) (searched : List Route) (a : Address) :
    2 ≤ room files searched a := Nat.le_add_right _ _

theorem length_le_room (hd : defined files searched a = some d) (hr : r ∈ d.replacements.keys) :
    2 * r.length ≤ room files searched a := by
  have hle : 2 * r.length ≤ (d.replacements.keys.map fun r => 2 * r.length).sum :=
    le_sum_of_mem (mem_map.2 ⟨r, hr, rfl⟩)
  simp only [room, hd]
  exact hle.trans (Nat.le_add_left _ _)

theorem IsLayer.exists_required {l : Layer} (h : IsLayer files searched a l) {v : Level}
    (hv : v ∈ l) (hd : v.definition = some d) :
    ∃ b, ReflTransGen (Requires files searched) a b ∧ Builtin.ofAddress? b = none ∧
      defined files searched b = some d := by
  induction h with
  | builtin hb =>
    rw [Builtin.definition_of_mem_layer hv] at hd
    cases hd
  | block ha hdef hbase hdata hrest ih =>
    rcases mem_cons.1 hv with rfl | hv
    · cases hd
      exact ⟨_, .refl, ha, hdef⟩
    · obtain ⟨b, hb, hnot, hdefb⟩ := ih hv
      exact ⟨b, hb.head (.base ha hdef hbase), hnot, hdefb⟩

theorem exists_block_of_mem_replacements (h : defined files searched a = some d)
    {e : Reference × Replacement} (he : e ∈ d.replacements.entries) :
    ∃ s ∈ simplesOf d.body, s.block? = some e.2.block := by
  obtain ⟨src, -, hmakes⟩ := makes_of_defined h
  rw [hmakes.replacements] at he
  obtain ⟨s, hs, hse⟩ := mem_filterMap.1 (Table.mem_of_mem_ofList he)
  cases s with
  | retype target mark block =>
    cases hse
    exact ⟨_, hs, rfl⟩
  | _ => cases hse

end Library

end Boardwright
