import Boardwright.Address
import Boardwright.Proofs.Text
import Mathlib.Data.List.Induction

/-!
# Addresses and the names they are built from

A name has no dot and no colon in it and is not empty. Following names from an address
never makes two addresses out of one path or one out of two: `addInstances_injective`,
for any address to start from. The reason is that the last name of a text is what stands
after its last dot or colon, and this mark also says which of the two marks was put
before the name.

An address of a block, `IsEntry`, has one colon. What is made below it is read back in
parts: `IsEntry.entry_addInstances` and `IsEntry.instanceSection_addInstances` give the block
and the names.
-/

open List

namespace Boardwright

variable {A : List Char} {c : Char} {f : Address → String → Address} {ns : List String} {n : String}

def IsName (n : String) : Prop := n ≠ "" ∧ '.' ∉ n.toList ∧ ':' ∉ n.toList

instance (n : String) : Decidable (IsName n) := inferInstanceAs (Decidable (_ ∧ _))

def AreNames (ns : List String) : Prop := ∀ n ∈ ns, IsName n

instance (ns : List String) : Decidable (AreNames ns) := List.decidableBAll _ ns

@[simp] theorem areNames_nil : AreNames [] := fun _ h => absurd h not_mem_nil

theorem areNames_cons : AreNames (n :: ns) ↔ IsName n ∧ AreNames ns :=
  forall_mem_cons

theorem areNames_append {ms : List String} : AreNames (ms ++ ns) ↔ AreNames ms ∧ AreNames ns :=
  forall_mem_append

theorem areNames_singleton : AreNames [n] ↔ IsName n := forall_mem_singleton

theorem AreNames.concat (hns : AreNames ns) (hn : IsName n) : AreNames (ns ++ [n]) :=
  areNames_append.2 ⟨hns, areNames_singleton.2 hn⟩

namespace Address

variable {a b : Address} {m n : String} {p q : List String}

/-! ### Following names -/

@[simp] theorem addInstances_nil (a : Address) : a.addInstances [] = a := rfl

theorem addInstances_cons (a : Address) (n : String) (p : List String) :
    a.addInstances (n :: p) = (a.addInstance n).addInstances p := rfl

theorem addInstances_append (a : Address) (p q : List String) :
    a.addInstances (p ++ q) = (a.addInstances p).addInstances q := foldl_append

theorem addInstances_concat (a : Address) (p : List String) (n : String) :
    a.addInstances (p ++ [n]) = (a.addInstances p).addInstance n := addInstances_append a p [n]

def mark (a : Address) : List Char := if a.isInstance then ['.'] else [':', ':']

theorem toList_addInstance (a : Address) (n : String) :
    (a.addInstance n).text.toList = a.text.toList ++ a.mark ++ n.toList := by
  unfold addInstance mark
  split <;> simp

theorem length_lt_addInstance (a : Address) (n : String) :
    a.text.toList.length < (a.addInstance n).text.toList.length := by
  rw [toList_addInstance]
  unfold mark
  split <;> simp

theorem length_le_foldl (hf : ∀ a n, a.text.toList.length < (f a n).text.toList.length)
    (a : Address) (p : List String) : a.text.toList.length ≤ (p.foldl f a).text.toList.length := by
  induction p generalizing a with
  | nil => exact Nat.le_refl _
  | cons n p ih => exact Nat.le_trans (Nat.le_of_lt (hf a n)) (ih _)

theorem length_le_addInstances (a : Address) (p : List String) :
    a.text.toList.length ≤ (a.addInstances p).text.toList.length :=
  length_le_foldl length_lt_addInstance a p

/-- Names that are added one after the other can be told from what comes out, if each can. -/
theorem foldl_injective (hlonger : ∀ a n, a.text.toList.length < (f a n).text.toList.length)
    (hf : ∀ {a b m n}, IsName m → IsName n → f a m = f b n → a = b ∧ m = n) (hp : AreNames p)
    (hq : AreNames q) (h : p.foldl f a = q.foldl f a) : p = q := by
  have hconcat : ∀ r n, (r ++ [n]).foldl f a = f (r.foldl f a) n := fun r n => foldl_append
  have hne : ∀ r n, (r ++ [n]).foldl f a ≠ a := by
    intro r n he
    have hlt := hlonger (r.foldl f a) n
    rw [← hconcat, he] at hlt
    exact absurd (length_le_foldl hlonger a r) (Nat.not_le_of_lt hlt)
  induction p using List.reverseRecOn generalizing q with
  | nil =>
    cases q using List.reverseRecOn with
    | nil => rfl
    | append_singleton q n => exact absurd h.symm (hne q n)
  | append_singleton p m ih =>
    cases q using List.reverseRecOn with
    | nil => exact absurd h (hne p m)
    | append_singleton q n =>
      rw [hconcat, hconcat] at h
      rw [areNames_append, areNames_singleton] at hp hq
      obtain ⟨hpq, rfl⟩ := hf hp.2 hq.2 h
      rw [ih hp.1 hq.1 hpq]

def IsMark (c : Char) : Prop := c = '.' ∨ c = ':'

theorem not_isMark_of_mem (hn : IsName n) (hc : c ∈ n.toList) : ¬IsMark c := by
  rintro (rfl | rfl)
  · exact hn.2.1 hc
  · exact hn.2.2 hc

/-- A text is cut in one way before its last mark. -/
theorem eq_of_cut_eq {B M N : List Char} {d : Char} (hc : IsMark c) (hd : IsMark d)
    (hM : ∀ x ∈ M, ¬IsMark x) (hN : ∀ x ∈ N, ¬IsMark x) (h : A ++ c :: M = B ++ d :: N) :
    A = B ∧ c = d ∧ M = N := by
  obtain ⟨w, rfl, hw⟩ | ⟨w, rfl, hw⟩ := append_eq_append_iff.1 h
  · cases w with
    | nil => simpa using hw
    | cons x w =>
      obtain ⟨rfl, rfl⟩ := cons_eq_cons.1 hw
      exact absurd hd (hM d (by simp))
  · cases w with
    | nil => simpa [eq_comm] using hw
    | cons x w =>
      obtain ⟨rfl, rfl⟩ := cons_eq_cons.1 hw
      exact absurd hc (hN c (by simp))

theorem ext_toList (h : a.text.toList = b.text.toList) : a = b := by
  cases a
  cases b
  simpa using String.toList_inj.1 h

theorem addInstance_injective (hm : IsName m) (hn : IsName n)
    (h : a.addInstance m = b.addInstance n) : a = b ∧ m = n := by
  have hlist : (a.text.toList ++ a.mark) ++ m.toList = (b.text.toList ++ b.mark) ++ n.toList := by
    rw [← toList_addInstance, ← toList_addInstance, h]
  have hM : ∀ x ∈ m.toList, ¬IsMark x := fun _ => not_isMark_of_mem hm
  have hN : ∀ x ∈ n.toList, ¬IsMark x := fun _ => not_isMark_of_mem hn
  have hdot : IsMark '.' := Or.inl rfl
  have hcolon : IsMark ':' := Or.inr rfl
  by_cases ha : a.isInstance <;> by_cases hb : b.isInstance
  · obtain ⟨hab, -, hmn⟩ := eq_of_cut_eq hdot hdot hM hN (by simpa [mark, ha, hb] using hlist)
    exact ⟨ext_toList hab, String.toList_inj.1 hmn⟩
  · obtain ⟨-, hmark, -⟩ := eq_of_cut_eq (B := b.text.toList ++ [':']) hdot hcolon hM hN
      (by simpa [mark, ha, hb] using hlist)
    exact absurd hmark (by decide)
  · obtain ⟨-, hmark, -⟩ := eq_of_cut_eq (A := a.text.toList ++ [':']) hcolon hdot hM hN
      (by simpa [mark, ha, hb] using hlist)
    exact absurd hmark (by decide)
  · obtain ⟨hab, -, hmn⟩ := eq_of_cut_eq (A := a.text.toList ++ [':'])
      (B := b.text.toList ++ [':']) hcolon hcolon hM hN (by simpa [mark, ha, hb] using hlist)
    exact ⟨ext_toList (append_cancel_right hab), String.toList_inj.1 hmn⟩

/-- Different paths lead to different addresses. -/
theorem addInstances_injective (hp : AreNames p) (hq : AreNames q)
    (h : a.addInstances p = a.addInstances q) : p = q :=
  foldl_injective length_lt_addInstance addInstance_injective hp hq h

/-! ### Going into blocks -/

/-- The address reached from `a` by going into blocks. -/
def inside (a : Address) (path : List String) : Address := path.foldl entryAt a

theorem exists_toList_entryAt (a : Address) (n : String) :
    ∃ c, IsMark c ∧ (a.entryAt n).text.toList = a.text.toList ++ c :: n.toList := by
  unfold entryAt
  split
  · exact ⟨'.', .inl rfl, by simp⟩
  · exact ⟨':', .inr rfl, by simp⟩

theorem entryAt_injective (hm : IsName m) (hn : IsName n) (h : a.entryAt m = b.entryAt n) :
    a = b ∧ m = n := by
  obtain ⟨c, hc, ha⟩ := exists_toList_entryAt a m
  obtain ⟨d, hd, hb⟩ := exists_toList_entryAt b n
  obtain ⟨hab, -, hmn⟩ := eq_of_cut_eq hc hd (fun _ => not_isMark_of_mem hm)
    (fun _ => not_isMark_of_mem hn) (by rw [← ha, ← hb, h])
  exact ⟨ext_toList hab, String.toList_inj.1 hmn⟩

theorem length_lt_entryAt (a : Address) (n : String) :
    a.text.toList.length < (a.entryAt n).text.toList.length := by
  obtain ⟨c, -, ha⟩ := exists_toList_entryAt a n
  rw [ha]
  simp

/-- Different paths lead to different blocks. -/
theorem inside_injective (hp : AreNames p) (hq : AreNames q) (h : a.inside p = a.inside q) :
    p = q :=
  foldl_injective length_lt_entryAt entryAt_injective hp hq h

/-! ### How deep an address stands -/

def depth (a : Address) : Nat := a.text.toList.countP fun c => c == '.' || c == ':'

theorem depth_addInstance (a : Address) (hn : IsName n) :
    a.depth < (a.addInstance n).depth ∧ (a.addInstance n).depth ≤ a.depth + 2 := by
  have hname : n.toList.countP (fun c => c == '.' || c == ':') = 0 := by
    rw [countP_eq_zero]
    intro c hc
    simpa [IsMark] using not_isMark_of_mem hn hc
  rw [depth, depth, toList_addInstance, countP_append, countP_append, hname]
  unfold mark
  split <;> simp

theorem depth_addInstances_le (a : Address) (hq : AreNames q) :
    (a.addInstances q).depth ≤ a.depth + 2 * q.length := by
  induction q generalizing a with
  | nil => simp
  | cons n q ih =>
    rw [areNames_cons] at hq
    have hn := (depth_addInstance a hq.1).2
    have hq' := ih (a.addInstance n) hq.2
    rw [addInstances_cons, length_cons]
    omega

/-! ### Reading names back -/

/-- The last piece of a text ends as the text does, up to the last mark it is cut at. -/
theorem exists_getLastD_splitOn (c : Char) (A : List Char) {B : List Char} (hB : c ∉ B) :
    ∃ L, ((A ++ B).splitOn c).getLastD [] = L ++ B := by
  induction A with
  | nil => exact ⟨[], by simp [splitOn_eq_singleton hB]⟩
  | cons x A ih =>
    obtain ⟨L, hL⟩ := ih
    obtain ⟨w, ws, hw⟩ := exists_cons_of_ne_nil (splitOn_ne_nil c (A ++ B))
    rw [cons_append, splitOn_cons_eq_if_modifyHead]
    rw [hw] at hL ⊢
    split
    · exact ⟨L, by simpa using hL⟩
    · cases ws with
      | nil => exact ⟨x :: L, by simpa using hL⟩
      | cons v ws => exact ⟨L, by simpa using hL⟩

theorem name_of_toList (hc : IsMark c) (hn : IsName n) (h : a.text.toList = A ++ c :: n.toList) :
    a.name = n := by
  rw [name, sections, h]
  rcases hc with rfl | rfl
  · have hB : ':' ∉ '.' :: n.toList := by simpa using hn.2.2
    obtain ⟨L, hL⟩ := exists_getLastD_splitOn ':' A hB
    rw [hL, splitOn_append_cons_self, splitOn_eq_singleton hn.2.1]
    simp
  · rw [splitOn_append_cons_self, splitOn_eq_singleton hn.2.2]
    simp [splitOn_eq_singleton hn.2.1]

theorem name_addInstance (a : Address) (hn : IsName n) : (a.addInstance n).name = n := by
  by_cases ha : a.isInstance
  · have htext : (a.addInstance n).text.toList = a.text.toList ++ '.' :: n.toList := by
      simp [toList_addInstance, mark, ha]
    exact name_of_toList (Or.inl rfl) hn htext
  · have htext : (a.addInstance n).text.toList = (a.text.toList ++ [':']) ++ ':' :: n.toList := by
      simp [toList_addInstance, mark, ha]
    exact name_of_toList (Or.inr rfl) hn htext

theorem name_entryAt (a : Address) (hn : IsName n) : (a.entryAt n).name = n := by
  obtain ⟨c, hc, htext⟩ := exists_toList_entryAt a n
  exact name_of_toList hc hn htext

theorem text_injective : Function.Injective Address.text := by
  rintro ⟨s⟩ ⟨t⟩ h
  exact congrArg mk h

/-! ### Files and blocks -/

def IsFile (a : Address) : Prop := ':' ∉ a.text.toList

def IsEntry (a : Address) : Prop :=
  ∃ F E, a.text.toList = F ++ ':' :: E ∧ ':' ∉ F ∧ ':' ∉ E ∧ E ≠ []

def IsRoot (a : Address) : Prop := a.IsFile ∨ a.IsEntry

theorem not_mem_of_mem_splitOn {c : Char} {A w : List Char} (hw : w ∈ A.splitOn c) : c ∉ w := by
  by_cases hc : c ∈ A
  · obtain ⟨s, t, rfl, hs⟩ := eq_append_cons_of_mem hc
    rw [splitOn_append_cons_self_of_not_mem hs, mem_cons] at hw
    exact hw.elim (· ▸ hs) not_mem_of_mem_splitOn
  · rw [splitOn_eq_singleton hc, mem_singleton] at hw
    exact hw ▸ hc
termination_by A.length

theorem isFile_file (a : Address) : IsFile ⟨a.file⟩ := by
  obtain ⟨w, ws, hw⟩ := exists_cons_of_ne_nil (splitOn_ne_nil ':' a.text.toList)
  have hmem : w ∈ a.text.toList.splitOn ':' := by simp [hw]
  simpa [IsFile, file, sections, hw] using not_mem_of_mem_splitOn hmem

theorem IsEntry.not_isFile (ha : a.IsEntry) : ¬a.IsFile := by
  obtain ⟨F, E, hFE, -⟩ := ha
  simp [IsFile, hFE]

theorem sections_of_isFile (ha : a.IsFile) : a.sections = [a.text.toList] :=
  splitOn_eq_singleton ha

theorem IsRoot.entryAt (ha : a.IsRoot) (hn : IsName n) : (a.entryAt n).IsEntry := by
  have hne : n.toList ≠ [] := by simpa using hn.1
  obtain ha | ⟨F, E, hFE, hF, hE, hEne⟩ := ha
  · have hsec : a.entrySection = none := by
      simp [entrySection, sections_of_isFile ha]
    refine ⟨a.text.toList, n.toList, ?_, ha, hn.2.2, hne⟩
    simp [Address.entryAt, hsec]
  · have hsec : a.sections = [F, E] := by
      rw [sections, hFE, splitOn_append_cons_self, splitOn_eq_singleton hF,
        splitOn_eq_singleton hE]
      rfl
    have hany : a.entrySection.any (· ≠ "") = true := by
      simp [entrySection, hsec, hEne]
    refine ⟨F, E ++ '.' :: n.toList, ?_, hF, ?_, by simp⟩
    · rw [Address.entryAt, if_pos hany]
      simp [hFE]
    · simpa using ⟨hE, hn.2.2⟩

theorem file_of_toList {F R : List Char} (h : a.text.toList = F ++ ':' :: R) (hF : ':' ∉ F) :
    a.file = String.ofList F := by
  rw [file, sections, h, splitOn_append_cons_self, splitOn_eq_singleton hF]
  rfl

theorem file_of_isFile (ha : a.IsFile) : a.file = a.text := by
  simp [file, sections_of_isFile ha]

/-- The blocks of a file have its address before their first colon. -/
@[simp] theorem file_entryAt (a : Address) (n : String) : (a.entryAt n).file = a.file := by
  by_cases ha : a.IsFile
  · have hsec : a.entrySection = none := by
      simp [entrySection, sections_of_isFile ha]
    have htext : (a.entryAt n).text.toList = a.text.toList ++ ':' :: n.toList := by
      simp [Address.entryAt, hsec]
    rw [file_of_toList htext ha, file_of_isFile ha, String.ofList_toList]
  · obtain ⟨F, E, hFE, hF⟩ := eq_append_cons_of_mem (not_not.1 ha)
    obtain ⟨c, -, htext⟩ := exists_toList_entryAt a n
    rw [hFE, append_assoc, cons_append] at htext
    rw [file_of_toList htext hF, file_of_toList hFE hF]

theorem file_inside (a : Address) (p : List String) : (a.inside p).file = a.file := by
  induction p generalizing a with
  | nil => rfl
  | cons n p ih => exact (ih _).trans (file_entryAt a n)

theorem eq_inside_of_addEntries (h : a.addEntries p = .ok b) : b = a.inside p := by
  unfold addEntries at h
  induction p generalizing a with
  | nil =>
    cases h
    rfl
  | cons n p ih =>
    rw [foldlM_cons, addEntry] at h
    split at h
    · cases h
    · exact ih h

theorem file_addEntries (h : a.addEntries p = .ok b) : b.file = a.file :=
  eq_inside_of_addEntries h ▸ file_inside a p

/-! ### Instances below a block -/

/-- The text of an instance: the file, the block in it, and the path below the block. -/
structure Reads (a : Address) (F E P : List Char) : Prop where
  text : a.text.toList = F ++ ':' :: (E ++ ':' :: ':' :: P)
  file : ':' ∉ F
  block : ':' ∉ E
  block_ne : E ≠ []
  path : ':' ∉ P
  path_ne : P ≠ []

variable {e : Address} {F E P : List Char}

theorem Reads.sections (h : a.Reads F E P) : a.sections = [F, E, [], P] := by
  rw [Address.sections, h.text, splitOn_append_cons_self, splitOn_append_cons_self,
    splitOn_eq_singleton h.file, splitOn_eq_singleton h.block,
    ← nil_append (':' :: P), splitOn_append_cons_self,
    splitOn_eq_singleton h.path]
  simp

theorem Reads.instanceSection (h : a.Reads F E P) :
    a.instanceSection = some (String.ofList P) := by
  simp [Address.instanceSection, h.sections]

theorem Reads.isInstance (h : a.Reads F E P) : a.isInstance = true := by
  simp [Address.isInstance, h.instanceSection, h.path_ne]

theorem Reads.addInstance (h : a.Reads F E P) (hn : IsName n) :
    (a.addInstance n).Reads F E (P ++ '.' :: n.toList) := by
  refine ⟨?_, h.file, h.block, h.block_ne, ?_, by simp⟩
  · rw [toList_addInstance, mark, if_pos h.isInstance, h.text]
    simp
  · simpa using ⟨h.path, hn.2.2⟩

theorem Reads.addInstances (h : a.Reads F E P) (hq : AreNames q) :
    (a.addInstances q).Reads F E (P ++ q.flatMap fun n => '.' :: n.toList) := by
  induction q generalizing a P with
  | nil => simpa using h
  | cons n q ih =>
    rw [areNames_cons] at hq
    simpa [addInstances_cons] using ih (h.addInstance hq.1) hq.2

theorem instanceSection_of_isEntry (he : e.IsEntry) : e.instanceSection = none := by
  obtain ⟨F, E, hFE, hF, hE, -⟩ := he
  rw [instanceSection, sections, hFE, splitOn_append_cons_self,
    splitOn_eq_singleton hF, splitOn_eq_singleton hE]
  rfl

/-- Neither a file nor a block of it is an instance. -/
theorem IsRoot.isInstance_eq_false (ha : a.IsRoot) : a.isInstance = false := by
  cases ha with
  | inl ha => simp [isInstance, instanceSection, sections_of_isFile ha]
  | inr ha => simp [isInstance, instanceSection_of_isEntry ha]

theorem IsEntry.addInstance (he : e.IsEntry) (hn : IsName n) :
    ∃ F E, e.text.toList = F ++ ':' :: E ∧ (e.addInstance n).Reads F E n.toList := by
  have hnot := IsRoot.isInstance_eq_false (.inr he)
  obtain ⟨F, E, hFE, hF, hE, hne⟩ := he
  refine ⟨F, E, hFE, ?_, hF, hE, hne, hn.2.2, by simpa using hn.1⟩
  rw [toList_addInstance, mark, if_neg (by simp [hnot]), hFE]
  simp

/-- Every instance below a block is read back as the file, the block and the path. -/
theorem IsEntry.addInstances (he : e.IsEntry) (hq : AreNames (n :: q)) :
    ∃ F E, e.text.toList = F ++ ':' :: E ∧ (e.addInstances (n :: q)).Reads F E
      (n.toList ++ q.flatMap fun m => '.' :: m.toList) := by
  rw [areNames_cons] at hq
  obtain ⟨F, E, hFE, hread⟩ := he.addInstance hq.1
  exact ⟨F, E, hFE, hread.addInstances hq.2⟩

theorem splitOn_path (hq : AreNames (n :: q)) :
    (n.toList ++ q.flatMap fun m => '.' :: m.toList).splitOn '.' =
      (n :: q).map String.toList := by
  induction q generalizing n with
  | nil =>
    rw [areNames_singleton] at hq
    simp [splitOn_eq_singleton hq.2.1]
  | cons m q ih =>
    rw [areNames_cons] at hq
    rw [flatMap_cons, cons_append, splitOn_append_cons_self,
      splitOn_eq_singleton hq.1.2.1, ih hq.2]
    rfl

theorem IsEntry.instanceSection_addInstances (he : e.IsEntry) (hq : AreNames (n :: q)) :
    ∃ path, (e.addInstances (n :: q)).instanceSection = some path ∧ path ≠ "" ∧
      Text.split "." path = n :: q := by
  obtain ⟨F, E, -, hread⟩ := he.addInstances hq
  refine ⟨_, hread.instanceSection, by simpa using hread.path_ne, ?_⟩
  have hsplit := Text.splitOn_singleton '.' (n.toList ++ q.flatMap fun m => '.' :: m.toList)
  rw [splitOn_path hq] at hsplit
  simp [Text.split, hsplit]

/-! ### The block of an address -/

theorem entry_eq_self_of_isEntry (he : e.IsEntry) : e.entry = e := by
  obtain ⟨F, E, hFE, hF, hE, hne⟩ := he
  obtain ⟨c, E, rfl⟩ := exists_cons_of_ne_nil hne
  have hc : c ≠ ':' := fun h => hE (by simp [h])
  have hcut : Text.cut [':', ':'] (F ++ ':' :: c :: E) = none := by
    have hnone : Text.cut [':', ':'] (c :: E) = none := by
      have happend := Text.cut_append (c := ':') [':'] hE []
      rwa [append_nil] at happend
    rw [Text.cut_append _ hF, Text.cut, hnone]
    simp [hc.symm]
  rw [entry, hFE, hcut]

theorem Reads.entry (h : a.Reads F E P) : a.entry.text.toList = F ++ ':' :: E := by
  obtain ⟨c, E, rfl⟩ := exists_cons_of_ne_nil h.block_ne
  have hc : c ≠ ':' := fun h' => h.block (by simp [h'])
  have hcut : Text.cut [':', ':'] a.text.toList = some (F ++ ':' :: c :: E, P) := by
    have hsome : Text.cut [':', ':'] (c :: E ++ ':' :: ':' :: P) = some (c :: E, P) := by
      rw [Text.cut_append _ h.block]
      simp [Text.cut]
    rw [h.text, Text.cut_append _ h.file, Text.cut, hsome]
    simp [hc.symm]
  simp [Address.entry, hcut]

theorem IsEntry.entry_addInstances (he : e.IsEntry) (hq : AreNames q) :
    (e.addInstances q).entry = e := by
  cases q with
  | nil => exact entry_eq_self_of_isEntry he
  | cons n q =>
    obtain ⟨F, E, hFE, hread⟩ := he.addInstances hq
    exact ext_toList (hread.entry.trans hFE.symm)

/-- What stands below a file is cut off at the file. -/
theorem IsFile.entry_addInstances (ha : a.IsFile) (q : List String) :
    (a.addInstances q).entry = a := by
  have hcut : ∀ R, Text.cut [':', ':'] (a.text.toList ++ ':' :: ':' :: R) =
      some (a.text.toList, R) := by
    intro R
    rw [Text.cut_append _ ha]
    simp [Text.cut]
  have htext : ∀ (q : List String) (b : Address) (R : List Char),
      b.text.toList = a.text.toList ++ ':' :: ':' :: R →
      ∃ R', (b.addInstances q).text.toList = a.text.toList ++ ':' :: ':' :: R' := by
    intro q
    induction q with
    | nil => exact fun b R hb => ⟨R, hb⟩
    | cons n q ih =>
      intro b R hb
      refine ih (b.addInstance n) (R ++ b.mark ++ n.toList) ?_
      rw [toList_addInstance, hb]
      simp
  cases q with
  | nil =>
    have hnone := Text.cut_append [':'] ha []
    rw [append_nil] at hnone
    rw [addInstances_nil, Address.entry, hnone]
    rfl
  | cons n q =>
    have hnot := IsRoot.isInstance_eq_false (.inl ha)
    obtain ⟨R, hR⟩ := htext q (a.addInstance n) n.toList (by
      rw [toList_addInstance, mark, if_neg (by simp [hnot])]
      simp)
    rw [addInstances_cons, Address.entry, hR, hcut]
    exact ext_toList (by simp)

/-- What stands below a root is cut off at the root. -/
theorem IsRoot.entry_addInstances (ha : a.IsRoot) (hq : AreNames q) :
    (a.addInstances q).entry = a := by
  cases ha with
  | inl ha => exact ha.entry_addInstances q
  | inr ha => exact ha.entry_addInstances hq

/-- What stands below a root is neither a file nor a block. -/
theorem IsRoot.not_isRoot_addInstances (ha : a.IsRoot) (hq : AreNames q) (hn : IsName n) :
    ¬((a.addInstances q).addInstance n).IsRoot := by
  intro hroot
  have hentry := ha.entry_addInstances (hq.concat hn)
  have hself := hroot.entry_addInstances areNames_nil
  rw [addInstances_concat] at hentry
  rw [addInstances_nil, hentry] at hself
  have hlt := length_lt_addInstance (a.addInstances q) n
  have hle := length_le_addInstances a q
  rw [← hself] at hlt
  omega

theorem not_isFile_entry (ha : a.entrySection.any (· ≠ "") = true) : ¬a.entry.IsFile := by
  intro hf
  rw [Address.entry] at hf
  cases hcut : Text.cut [':', ':'] a.text.toList with
  | none =>
    rw [hcut] at hf
    simp [entrySection, sections_of_isFile hf] at ha
  | some w =>
    obtain ⟨b, r⟩ := w
    rw [hcut] at hf
    have hb : ':' ∉ b := by simpa [IsFile] using hf
    have hsec : a.sections = b :: [] :: r.splitOn ':' := by
      rw [sections, Text.eq_append_of_cut hcut, append_assoc, cons_append,
        splitOn_append_cons_self, splitOn_eq_singleton hb]
      have hrest := splitOn_append_cons_self (a := ':') [] r
      simpa using hrest
    simp [entrySection, hsec] at ha

/-- What stands below a block has the block in its address. -/
theorem IsEntry.entrySection_addInstances (he : e.IsEntry) (hq : AreNames q) :
    (e.addInstances q).entrySection.any (· ≠ "") = true := by
  cases q with
  | nil =>
    obtain ⟨F, E, hFE, hF, hE, hne⟩ := he
    have hsec : e.sections = [F, E] := by
      rw [sections, hFE, splitOn_append_cons_self, splitOn_eq_singleton hF,
        splitOn_eq_singleton hE]
      rfl
    simp [entrySection, hsec, hne]
  | cons n q =>
    obtain ⟨F, E, -, hread⟩ := he.addInstances hq
    have hsec : (e.addInstances (n :: q)).sections =
        F :: E :: (':' :: (n.toList ++ q.flatMap fun m => '.' :: m.toList)).splitOn ':' := by
      rw [sections, hread.text, splitOn_append_cons_self, splitOn_append_cons_self,
        splitOn_eq_singleton hread.file, splitOn_eq_singleton hread.block]
      rfl
    simp [entrySection, hsec, hread.block_ne]

end Address

end Boardwright
