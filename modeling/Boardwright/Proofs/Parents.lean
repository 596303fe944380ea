import Boardwright.Proofs.Address

/-!
# The parents of an address

The parent of an address is found in its text, by cutting it at its last mark. Below a file or a
block this takes back the name that was put on last: `parent_addInstance`. So the parents of an
instance are the instances on the way to it, and a root has none.

`addInstances_addEntries_faithful` puts together what is read back from an address that is made of
a file, names of blocks and names of instances.
-/

open List

namespace Boardwright.Address

variable {a e e' p r : Address} {n file file' : String} {q es es' is is' : List String}

theorem parent_of_isFile (hr : r.IsFile) : r.parent = none := by
  have hnot : ':' ∉ r.text.toList.reverse := fun h => hr (mem_reverse.1 h)
  have hcut := Text.cut_append [':'] hnot []
  rw [append_nil] at hcut
  simp [parent, Text.cutLast, hcut, Text.cut]

theorem parent_of_isEntry (hr : r.IsEntry) : r.parent = none := by
  obtain ⟨F, E, hFE, hF, hE, -⟩ := hr
  have hfile : Text.cut [':', ':'] F.reverse = none := by
    have hcut := Text.cut_append (c := ':') [':'] (s := F.reverse) (by simpa using hF) []
    simpa [Text.cut] using hcut
  have hcolon : Text.cut [':', ':'] (':' :: F.reverse) = none := by
    have hnot : [':', ':'].isPrefixOf (':' :: F.reverse) = false := by
      cases hrev : F.reverse with
      | nil => rfl
      | cons c cs =>
        have hc : c ∈ F := mem_reverse.1 (by simp [hrev])
        have hne : ':' ≠ c := fun h => hF (h ▸ hc)
        simp [List.isPrefixOf, hne]
    simp [Text.cut, hnot, hfile]
  have hcut := Text.cut_append (c := ':') [':'] (s := E.reverse) (by simpa using hE)
    (':' :: F.reverse)
  simp [parent, Text.cutLast, hFE, hcut, hcolon]

/-- A file or a block of it has no parent. -/
theorem IsRoot.parent_eq_none (hr : r.IsRoot) : r.parent = none :=
  hr.elim parent_of_isFile parent_of_isEntry

/-! ### Below a file -/

theorem isInstance_of_sections {F : List Char}
    (h : a.sections = F :: q.flatMap fun n => [[], n.toList]) : a.isInstance = false := by
  rcases q with _ | ⟨m, _ | ⟨m', q⟩⟩ <;> simp [isInstance, instanceSection, h]

theorem IsFile.sections_addInstances (hr : r.IsFile) (hq : AreNames q) :
    (r.addInstances q).sections = r.text.toList :: q.flatMap fun n => [[], n.toList] := by
  induction q using List.reverseRecOn with
  | nil => exact sections_of_isFile hr
  | append_singleton q n ih =>
    rw [areNames_append, areNames_singleton] at hq
    have hsections := ih hq.1
    have htext : ((r.addInstances q).addInstance n).text.toList =
        (r.addInstances q).text.toList ++ ':' :: ([] ++ ':' :: n.toList) := by
      simp [toList_addInstance, mark, isInstance_of_sections hsections]
    rw [sections] at hsections
    rw [addInstances_concat, sections, htext, splitOn_append_cons_self,
      splitOn_append_cons_self, hsections, splitOn_eq_singleton hq.2.2.2]
    simp

theorem IsFile.instanceSection_addInstances (hr : r.IsFile) (hq : AreNames q) :
    (r.addInstances q).instanceSection = none ∨ (r.addInstances q).instanceSection = some "" := by
  rw [instanceSection, hr.sections_addInstances hq]
  rcases q with _ | ⟨m, _ | ⟨m', q⟩⟩ <;> simp

theorem IsFile.isInstance_addInstances (hr : r.IsFile) (hq : AreNames q) :
    (r.addInstances q).isInstance = false :=
  isInstance_of_sections (hr.sections_addInstances hq)

/-! ### The way back -/

theorem parent_of_not_isInstance (ha : a.isInstance = false) (hn : IsName n) :
    (a.addInstance n).parent = some a := by
  have htext : (a.addInstance n).text.toList = a.text.toList ++ ([':'] ++ [':']) ++ n.toList := by
    simp [toList_addInstance, mark, ha]
  have hcut := Text.cutLast_append [':'] a.text.toList hn.2.2
  have hne : n.toList ≠ [] := by simpa using hn.1
  rw [parent, htext]
  simp only [singleton_append] at hcut ⊢
  rw [hcut]
  simp [hne, hn.2.1]

theorem Reads.parent_addInstance {F E P : List Char} (h : a.Reads F E P) (hn : IsName n) :
    (a.addInstance n).parent = some a := by
  have hread := h.addInstance hn
  have hlast := Text.cutLast_append [':'] (F ++ ':' :: E) hread.path
  have hdot := Text.cutLast_append [] a.text.toList hn.2.1
  have htext : (a.addInstance n).text.toList = a.text.toList ++ ['.'] ++ n.toList := by
    simp [toList_addInstance, mark, h.isInstance]
  have hpath : (a.addInstance n).text.toList =
      F ++ ':' :: E ++ ([':'] ++ [':']) ++ (P ++ '.' :: n.toList) := by
    rw [hread.text]
    simp
  rw [← hpath] at hlast
  rw [nil_append, ← htext] at hdot
  rw [parent, show [':', ':'] = [':'] ++ [':'] from rfl, hlast]
  simp [hdot]

theorem IsRoot.parent_addInstance (hr : r.IsRoot) (hq : AreNames q) (hn : IsName n) :
    ((r.addInstances q).addInstance n).parent = some (r.addInstances q) := by
  rcases hr with hr | hr
  · exact parent_of_not_isInstance (hr.isInstance_addInstances hq) hn
  · cases q with
    | nil => exact parent_of_not_isInstance (IsRoot.isInstance_eq_false (.inr hr)) hn
    | cons m q =>
      obtain ⟨F, E, -, hread⟩ := hr.addInstances hq
      exact hread.parent_addInstance hn

theorem IsRoot.eq_addInstance_of_parent (hr : r.IsRoot) (hq : AreNames q)
    (hp : (r.addInstances q).parent = some p) :
    r.addInstances q = p.addInstance (r.addInstances q).name := by
  cases q using List.reverseRecOn with
  | nil =>
    rw [addInstances_nil, hr.parent_eq_none] at hp
    cases hp
  | append_singleton q n =>
    rw [areNames_append, areNames_singleton] at hq
    rw [addInstances_concat, hr.parent_addInstance hq.1 hq.2] at hp
    cases hp
    rw [addInstances_concat, name_addInstance _ hq.2]

/-- What stands below a block and is not read as an instance is the block. -/
theorem IsEntry.eq_of_not_isInstance (hr : r.IsEntry) (hq : AreNames q)
    (h : (r.addInstances q).isInstance = false) : r.addInstances q = r := by
  cases q with
  | nil => rfl
  | cons n q =>
    obtain ⟨F, E, -, hread⟩ := hr.addInstances hq
    cases hread.isInstance.symm.trans h

theorem IsRoot.exists_of_mem_parents (hr : r.IsRoot) (hq : AreNames q)
    (hp : p ∈ (r.addInstances q).parents) :
    ∃ q' q'', q = q' ++ q'' ∧ q'' ≠ [] ∧ p = r.addInstances q' := by
  unfold parents at hp
  generalize (r.addInstances q).text.length + 1 = fuel at hp
  induction fuel generalizing q with
  | zero => exact absurd hp not_mem_nil
  | succ fuel ih =>
    rw [parentsWithin] at hp
    cases q using List.reverseRecOn with
    | nil =>
      rw [addInstances_nil, hr.parent_eq_none] at hp
      exact absurd hp not_mem_nil
    | append_singleton q n =>
      rw [areNames_append, areNames_singleton] at hq
      rw [addInstances_concat, hr.parent_addInstance hq.1 hq.2] at hp
      dsimp only at hp
      split at hp
      · exact absurd hp not_mem_nil
      · rcases mem_cons.1 hp with rfl | hp
        · exact ⟨q, [n], rfl, cons_ne_nil _ _, rfl⟩
        · obtain ⟨q', q'', rfl, hne, rfl⟩ := ih hq.1 hp
          exact ⟨q', q'' ++ [n], append_assoc _ _ _, by simp, rfl⟩

/-! ### Addresses read back -/

theorem toList_join (n : String) (q : List String) :
    (Text.join "." (n :: q)).toList = n.toList ++ q.flatMap fun m => '.' :: m.toList := by
  rw [Text.join, String.toList_intercalate]
  induction q generalizing n with
  | nil => simp
  | cons m q ih => simpa [intercalate_cons_cons] using ih m

theorem join_concat (hes : es ≠ []) (m : String) :
    (Text.join "." (es ++ [m])).toList = (Text.join "." es).toList ++ '.' :: m.toList := by
  obtain ⟨n, q, rfl⟩ := exists_cons_of_ne_nil hes
  rw [cons_append, toList_join, toList_join]
  simp

/-- Names are read back from what they make with dots between them. -/
theorem join_injective (hes : AreNames es) (hes' : AreNames es') (hne : es ≠ []) (hne' : es' ≠ [])
    (h : Text.join "." es = Text.join "." es') : es = es' := by
  obtain ⟨n, q, rfl⟩ := exists_cons_of_ne_nil hne
  obtain ⟨n', q', rfl⟩ := exists_cons_of_ne_nil hne'
  have hsplit := congrArg (fun s => s.toList.splitOn '.') h
  simp only [toList_join, splitOn_path hes, splitOn_path hes'] at hsplit
  exact List.map_inj_right (fun _ _ => String.toList_inj.1) |>.1 hsplit

theorem colon_not_mem_join (hes : AreNames es) : ':' ∉ (Text.join "." es).toList := by
  cases es with
  | nil => simp [Text.join]
  | cons n q =>
    rw [areNames_cons] at hes
    simp only [toList_join, mem_append, mem_flatMap, mem_cons, not_or]
    exact ⟨hes.1.2.2, fun ⟨m, hm, hc⟩ => hc.elim (by decide) (hes.2 m hm).2.2⟩

/-- The text of a block: the file and the names that lead to the block, with dots between them. -/
structure Spells (e : Address) (file : String) (es : List String) : Prop where
  noColon : ':' ∉ file.toList
  names : AreNames es
  ne_nil : es ≠ []
  text : e.text.toList = file.toList ++ ':' :: (Text.join "." es).toList

theorem Spells.join_ne (h : e.Spells file es) : (Text.join "." es).toList ≠ [] := by
  obtain ⟨n, q, rfl⟩ := exists_cons_of_ne_nil h.ne_nil
  have hn : n ≠ "" := (areNames_cons.1 h.names).1.1
  simp [toList_join, hn]

theorem Spells.isEntry (h : e.Spells file es) : e.IsEntry :=
  ⟨_, _, h.text, h.noColon, colon_not_mem_join h.names, h.join_ne⟩

/-- The parts of an instance below a block, from the text of the block and the names. -/
theorem Spells.sections_addInstances (h : e.Spells file es) (his : AreNames is) :
    (e.addInstances is).sections = file.toList :: (Text.join "." es).toList ::
      if is = [] then [] else [[], (Text.join "." is).toList] := by
  cases is with
  | nil =>
    rw [addInstances_nil, sections, h.text, splitOn_append_cons_self,
      splitOn_eq_singleton h.noColon, splitOn_eq_singleton (colon_not_mem_join h.names)]
    rfl
  | cons n q =>
    have hnot := IsRoot.isInstance_eq_false (.inr h.isEntry)
    rw [areNames_cons] at his
    have hread : (e.addInstance n).Reads file.toList (Text.join "." es).toList n.toList :=
      { text := by simp [toList_addInstance, mark, hnot, h.text]
        file := h.noColon
        block := colon_not_mem_join h.names
        block_ne := h.join_ne
        path := his.1.2.2
        path_ne := by simpa using his.1.1 }
    rw [addInstances_cons, (hread.addInstances his.2).sections, if_neg (cons_ne_nil n q),
      toList_join]

theorem Spells.addEntry (h : e.Spells file es) (hn : IsName n) :
    ∃ e', e.addEntry n = .ok e' ∧ e'.Spells file (es ++ [n]) := by
  have hnot := IsRoot.isInstance_eq_false (.inr h.isEntry)
  have hsections := h.sections_addInstances areNames_nil
  have hany : e.entrySection.any (· ≠ "") = true := by
    simp only [addInstances_nil] at hsections
    simpa [entrySection, hsections] using h.join_ne
  refine ⟨e.entryAt n, by simp [Address.addEntry, hnot], h.noColon, h.names.concat hn, by simp, ?_⟩
  rw [entryAt, if_pos hany, join_concat h.ne_nil]
  simp [h.text]

theorem exists_addEntries (hfile : ':' ∉ file.toList) (hes : AreNames es) (hne : es ≠ []) :
    ∃ e, (Address.mk file).addEntries es = .ok e ∧ e.Spells file es := by
  induction es using List.reverseRecOn with
  | nil => exact absurd rfl hne
  | append_singleton es n ih =>
    rw [areNames_append, areNames_singleton] at hes
    by_cases hnil : es = []
    · subst hnil
      have hroot : IsRoot ⟨file⟩ := .inl hfile
      have hsection : (Address.mk file).entrySection = none := by
        simp [entrySection, sections_of_isFile hfile]
      refine ⟨(Address.mk file).entryAt n, ?_, hfile, areNames_singleton.2 hes.2, hne, ?_⟩
      · simp [addEntries, Address.addEntry, hroot.isInstance_eq_false]
      · simp [entryAt, hsection, Text.join]
    · obtain ⟨e, he, hspells⟩ := ih hes.1 hnil
      obtain ⟨e', he', hspells'⟩ := hspells.addEntry hes.2
      refine ⟨e', ?_, hspells'⟩
      unfold addEntries at he ⊢
      simp only [foldlM_append, he, foldlM_cons, foldlM_nil, bind_pure]
      exact he'

/-- The three parts of an instance below a block. -/
theorem Spells.parts (h : e.Spells file es) (his : AreNames is) :
    (e.addInstances is).file = file ∧
      (e.addInstances is).entrySection = some (Text.join "." es) ∧
      (e.addInstances is).instanceSection =
        if is = [] then none else some (Text.join "." is) := by
  simp only [Address.file, entrySection, instanceSection, h.sections_addInstances his]
  by_cases hnil : is = [] <;> simp [hnil]

theorem Spells.injective (h : e.Spells file es) (h' : e'.Spells file' es') (his : AreNames is)
    (his' : AreNames is') (heq : e.addInstances is = e'.addInstances is') :
    file = file' ∧ es = es' ∧ is = is' := by
  obtain ⟨hfile, hentry, hinstance⟩ := h.parts his
  obtain ⟨hfile', hentry', hinstance'⟩ := h'.parts his'
  rw [heq, hfile'] at hfile
  rw [heq, hentry', Option.some_inj] at hentry
  rw [heq, hinstance'] at hinstance
  refine ⟨hfile.symm, join_injective h.names h'.names h.ne_nil h'.ne_nil hentry.symm, ?_⟩
  split at hinstance <;> split at hinstance
  · simp_all
  · cases hinstance
  · cases hinstance
  · exact join_injective his his' ‹_› ‹_› (Option.some_inj.1 hinstance).symm

theorem Spells.name (h : e.Spells file es) (his : AreNames is) :
    (es ++ is).getLast? = some (e.addInstances is).name := by
  cases is using List.reverseRecOn with
  | nil =>
    cases es using List.reverseRecOn with
    | nil => exact absurd rfl h.ne_nil
    | append_singleton es n =>
      have hn := (areNames_append.1 h.names).2 n (mem_singleton_self n)
      rw [append_nil, getLast?_concat, addInstances_nil, Option.some_inj]
      by_cases hnil : es = []
      · have htext : e.text.toList = file.toList ++ ':' :: n.toList := by
          simp [h.text, hnil, Text.join]
        exact (name_of_toList (.inr rfl) hn htext).symm
      · have htext := h.text
        rw [join_concat hnil, ← cons_append, ← append_assoc] at htext
        exact (name_of_toList (.inl rfl) hn htext).symm
  | append_singleton is n =>
    rw [areNames_append, areNames_singleton] at his
    rw [← append_assoc, getLast?_concat, addInstances_concat,
      name_addInstance _ his.2]

/-- Enough steps up from an instance pass all that it stands below, nearest first. -/
theorem IsEntry.parentsWithin_addInstances (he : e.IsEntry) (his : AreNames is) {fuel : Nat}
    (hfuel : is.length < fuel) : parentsWithin fuel (e.addInstances is) =
      ((List.range is.length).map fun k => e.addInstances (is.take k)).reverse := by
  induction is using List.reverseRecOn generalizing fuel with
  | nil =>
    obtain ⟨fuel, rfl⟩ := Nat.exists_eq_add_one.2 hfuel
    rw [addInstances_nil, parentsWithin, parent_of_isEntry he]
    rfl
  | append_singleton is n ih =>
    obtain ⟨fuel, rfl⟩ := Nat.exists_eq_add_one.2 (Nat.zero_lt_of_lt hfuel)
    rw [areNames_append, areNames_singleton] at his
    rw [length_append, length_singleton] at hfuel ⊢
    have hne : (e.addInstances is).text.isEmpty = false := by
      obtain ⟨F, E, htext, -⟩ := he
      have hle := length_le_addInstances e is
      rw [htext, length_append, length_cons] at hle
      rw [← Bool.not_eq_true, String.isEmpty_iff]
      intro hempty
      simp [hempty] at hle
    rw [addInstances_concat, parentsWithin, IsRoot.parent_addInstance (.inr he) his.1 his.2]
    simp only [hne, Bool.false_eq_true, if_false, ih his.1 (Nat.succ_lt_succ_iff.1 hfuel)]
    rw [range_succ, map_append, reverse_append]
    have htake : ∀ k ∈ List.range is.length, is.take k = (is ++ [n]).take k := by
      intro k hk
      rw [take_append_of_le_length (Nat.le_of_lt (mem_range.1 hk))]
    rw [map_congr_left fun k hk => congrArg e.addInstances (htake k hk)]
    simp

theorem length_le_length_addInstances (e : Address) (is : List String) :
    is.length ≤ (e.addInstances is).text.length := by
  induction is using List.reverseRecOn with
  | nil => exact Nat.zero_le _
  | append_singleton is n ih =>
    have hlt := length_lt_addInstance (e.addInstances is) n
    rw [addInstances_concat, length_append, length_singleton]
    simp only [String.length_toList] at hlt
    omega

/-- An address encodes a file, the names that lead to a block in it and the names that lead to an
instance below the block: all are read back, no two make one address, and the way up from the
instance passes what the shorter paths lead to, and ends. -/
theorem addInstances_addEntries_faithful (hfile : ':' ∉ file.toList) (hes : AreNames es)
    (hne : es ≠ []) (his : AreNames is) :
    ∃ e, (Address.mk file).addEntries es = .ok e ∧
      (e.addInstances is).file = file ∧
      (e.addInstances is).entry = e ∧
      (e.addInstances is).entrySection = some (Text.join "." es) ∧
      (e.addInstances is).instanceSection =
        (if is = [] then none else some (Text.join "." is)) ∧
      (es ++ is).getLast? = some (e.addInstances is).name ∧
      (∀ file' es' is' e', ':' ∉ file'.toList → AreNames es' → es' ≠ [] → AreNames is' →
        (Address.mk file').addEntries es' = .ok e' → e'.addInstances is' = e.addInstances is →
        file' = file ∧ es' = es ∧ is' = is) ∧
      (∀ n, IsName n → ((e.addInstances is).addInstance n).parent = some (e.addInstances is)) ∧
      (e.addInstances is).parents =
        ((List.range is.length).map fun k => e.addInstances (is.take k)).reverse ∧
      e.parent = none := by
  obtain ⟨e, he, hspells⟩ := exists_addEntries hfile hes hne
  obtain ⟨hf, hentry, hinstance⟩ := hspells.parts his
  refine ⟨e, he, hf, hspells.isEntry.entry_addInstances his, hentry, hinstance, hspells.name his,
    ?_, fun n hn => IsRoot.parent_addInstance (.inr hspells.isEntry) his hn, ?_,
    parent_of_isEntry hspells.isEntry⟩
  · intro file' es' is' e' hfile' hes' hne' his' he' heq
    obtain ⟨e'', he'', hspells'⟩ := exists_addEntries hfile' hes' hne'
    rw [he', Except.ok.injEq] at he''
    subst he''
    exact hspells'.injective hspells his' his heq
  · exact hspells.isEntry.parentsWithin_addInstances his
      (Nat.lt_succ_of_le (length_le_length_addInstances e is))

theorem addInstances_addEntries_nested : ∃ e,
    (Address.mk "/proj/main.ato").addEntries ["Board", "Power"] = .ok e ∧
      (e.addInstances ["ldo", "c_in"]).parents = [e.addInstances ["ldo"], e] := by
  have hfile : ':' ∉ "/proj/main.ato".toList := by decide
  have hes : AreNames ["Board", "Power"] := by decide
  have his : AreNames ["ldo", "c_in"] := by decide
  obtain ⟨e, he, h⟩ := addInstances_addEntries_faithful hfile hes (by decide) his
  exact ⟨e, he, h.2.2.2.2.2.2.2.1⟩

end Boardwright.Address
