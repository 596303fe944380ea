import Boardwright.Proofs.Design.Roots
import Boardwright.Proofs.Work.Lists

/-!
# Reading a tree that stays

Once the tree of a root is there, later work does not change it: `Later.shares`. Two libraries
that share the tree of a root give the same answers to questions about it, and questions leave
both as they are. Only the walk through the tree has to be looked at more closely, since the
number of instances bounds it, and this number may be different: the walk ends in both libraries,
and a higher bound changes nothing in what it finds.
-/

namespace Boardwright

variable {as : List Address}

namespace Library

variable {files : Files} {searched : List Route} {lib lib' s t s' : Library} {a e r : Address}
  {q : List String}

open Work

/-! ### Libraries that share a tree -/

/-- Two libraries that hold the same tree of a root. -/
structure Shares (files : Files) (searched : List Route) (e : Address) (s t : Library) : Prop where
  root : e.IsRoot
  left : Reached files searched s
  right : Reached files searched t
  there : s.instances.contains e
  agree : s.instances.AgreeOn e.Tree t.instances

theorem Shares.refl (he : e.IsRoot) (hlib : Reached files searched lib)
    (hc : lib.instances.contains e) : Shares files searched e lib lib :=
  ⟨he, hlib, hlib, hc, fun _ _ => rfl⟩

theorem Shares.there_right (h : Shares files searched e s t) : t.instances.contains e := by
  have hget := h.agree e ⟨h.root, .refl e⟩
  rw [Table.contains_eq_isSome, ← hget, ← Table.contains_eq_isSome]
  exact h.there

theorem Shares.right_refl (h : Shares files searched e s t) : Shares files searched e t t :=
  .refl h.root h.right h.there_right

/-- A library that further work leads to. -/
inductive Later (lib : Library) : Library → Prop
  | refl : Later lib lib
  | definition {lib' : Library} (h : Later lib lib') (a : Address) :
    Later lib ((definition a).outcome lib').2
  | layer {lib' : Library} (h : Later lib lib') (extension : Nat) (a : Address) :
    Later lib ((layerWithin extension a).outcome lib').2
  | tree {lib' : Library} (h : Later lib lib') (extension nesting : Nat) (a : Address) :
    Later lib ((treeWithin extension nesting a).outcome lib').2

/-- A tree that is there stays as it is. -/
theorem Later.shares (h : Later lib lib') (he : e.IsRoot) (hlib : Reached files searched lib)
    (hc : lib.instances.contains e) : Shares files searched e lib lib' := by
  induction h with
  | refl => exact .refl he hlib hc
  | @definition lib' h a ih =>
    refine ⟨he, hlib, ih.right.definition a, hc, ?_⟩
    rcases hout : (Library.definition a).outcome lib' with ⟨o, lib''⟩
    rw [(frame_definition hout).1]
    exact ih.agree
  | @layer lib' h extension a ih =>
    refine ⟨he, hlib, ih.right.layer extension a, hc, ?_⟩
    rcases hout : (layerWithin extension a).outcome lib' with ⟨o, lib''⟩
    rw [(frame_layerWithin hout).1]
    exact ih.agree
  | @tree lib' h extension nesting a ih =>
    refine ⟨he, hlib, ih.right.tree extension nesting a, hc, fun k hk => ?_⟩
    by_cases hca : lib'.instances.contains a
    · rw [treeWithin_of_contains hca]
      exact ih.agree k hk
    · have hsame := sameElsewhere_treeWithin ih.right.sound.settled extension nesting a
      rw [hsame.instances k, ih.agree k hk]
      intro hak
      rw [hak.eq_of_tree hk] at hca
      exact hca ih.there_right

theorem Later.reached (h : Later lib lib') (hlib : Reached files searched lib) :
    Reached files searched lib' := by
  induction h with
  | refl => exact hlib
  | definition _ a ih => exact ih.definition a
  | layer _ extension a ih => exact ih.layer extension a
  | tree _ extension nesting a ih => exact ih.tree extension nesting a

theorem Later.trans (h : Later lib lib') (h' : Later lib' s) : Later lib s := by
  induction h' with
  | refl => exact h
  | definition _ a ih => exact ih.definition a
  | layer _ extension a ih => exact ih.layer extension a
  | tree _ extension nesting a ih => exact ih.tree extension nesting a

/-! ### Questions change nothing but trees -/

theorem keeps_later_tree (a : Address) : Guards (Later lib) (tree a) :=
  fun _ h => ⟨h.tree _ _ a, fun _ _ => trivial⟩

/-! ### Questions about one instance -/

theorem reads_isAny (bs : List Builtin) (a : Address) :
    Keeps (· = lib) (fun c => ∃ i, lib.instances.get? a = some i ∧ i.isAny bs = c)
      (isAny bs a) := by
  intro lib' hlib'
  rw [hlib']
  unfold isAny instanceAt
  rw [outcome_bind, outcome_get_bind]
  cases hi : lib.instances.get? a with
  | none => exact ⟨rfl, nofun⟩
  | some i => exact ⟨rfl, fun c hc => ⟨i, rfl, Except.ok.inj hc⟩⟩

/-- Whether what stands under an address is made of one of several built-in blocks. -/
def made (lib : Library) (bs : List Builtin) (a : Address) : Bool :=
  (lib.instances.get? a).any (·.isAny bs)

theorem made_iff {bs : List Builtin} :
    lib.made bs a ↔ ∃ i, lib.instances.get? a = some i ∧ i.isAny bs := by
  simp [made, Option.any_eq_true]

/-- The instances of a list that are made of a built-in block are found if each of the list is
there. -/
theorem reads_filterM (bs : List Builtin) (as : List Address) :
    Keeps (· = lib) (fun found => found = as.filter (lib.made bs) ∧
      ∀ a ∈ as, ∃ i, lib.instances.get? a = some i) (as.filterM (isAny bs)) := by
  refine Keeps.filterM fun a _ => (reads_isAny bs a).imp fun c hc => ?_
  obtain ⟨i, hi, hic⟩ := hc
  exact ⟨by simp [made, hi, hic], i, hi⟩

namespace Shares

variable (h : Shares files searched e s t) {X : Failure → Prop} {i : Instance} {depth depth' : Nat}

include h

theorem inStep_instanceAt (ha : e.Tree a) :
    InStep X (Both s t) (fun i j => i = j ∧ s.instances.get? a = some i) (instanceAt a)
      (instanceAt a) := by
  apply InStep.both
  unfold instanceAt
  rw [outcome_get_bind, outcome_get_bind, ← h.agree a ha]
  cases hi : s.instances.get? a with
  | none => exact .error ⟨rfl, rfl⟩
  | some i => exact .ok ⟨rfl, rfl⟩ ⟨rfl, rfl⟩

theorem inStep_isAny (ha : e.Tree a) (bs : List Builtin) :
    InStep X (Both s t) (fun c d => c = d ∧ ∃ i, s.instances.get? a = some i ∧ i.isAny bs = c)
      (isAny bs a) (isAny bs a) :=
  (h.inStep_instanceAt ha).bind fun i _ hij => .pure ⟨by rw [hij.1], i, hij.2, rfl⟩

theorem tree_of_links (ha : e.Tree a) (hi : s.instances.get? a = some i) :
    ∀ k ∈ i.links, e.Tree k.source ∧ e.Tree k.target := by
  intro k hk
  obtain ⟨x, y, hx, hy, hsource, htarget⟩ := (h.left.sound.instances a i hi).2.links k hk
  rw [hsource, htarget]
  exact ⟨ha.addInstances hx, ha.addInstances hy⟩

theorem inStep_follow (a : Address) (q : List String) (ha : e.Tree a) (hq : AreNames q) :
    InStep X (Both s t) (fun x y => x = y ∧ x = a.addInstances q) (follow a q) (follow a q) := by
  induction q generalizing a with
  | nil => exact .pure ⟨rfl, rfl⟩
  | cons n q ih =>
    rw [areNames_cons] at hq
    refine (h.inStep_instanceAt ha).bind fun i j hij => ?_
    rw [← hij.1]
    split
    · exact ih _ (ha.addInstance hq.1) hq.2
    · exact .throw _

theorem inStep_tree : InStep X (Both s t) (fun _ _ => True) (tree e) (tree e) := by
  apply InStep.both
  rw [outcome_tree h.root h.there, outcome_tree h.root h.there_right]
  exact .ok trivial ⟨rfl, rfl⟩

/-- The children of an instance below a block are its own, and what stands below a file is read as
the file. -/
theorem inStep_children (ha : e.Tree a) :
    InStep X (Both s t) (fun ks ks' => ks = ks' ∧ ∃ x i, e.Tree x ∧ (e.IsEntry → x = a) ∧
      s.instances.get? x = some i ∧ ks = i.children.map x.addInstance) (children a)
      (children a) := by
  have hhere : ∀ x, e.Tree x → (e.IsEntry → x = a) → InStep X (Both s t)
      (fun ks ks' => ks = ks' ∧ ∃ x i, e.Tree x ∧ (e.IsEntry → x = a) ∧
        s.instances.get? x = some i ∧ ks = i.children.map x.addInstance)
      (do return (← instanceAt x).children.map x.addInstance)
      (do return (← instanceAt x).children.map x.addInstance) := by
    intro x hx hself
    exact (h.inStep_instanceAt hx).bind fun i j hij =>
      .pure ⟨by rw [hij.1], x, i, hx, hself, hij.2, rfl⟩
  have he : e.Tree e := ⟨h.root, .refl e⟩
  rcases h.root with hfile | hentry
  · have hself : e.IsEntry → e = a := fun hentry => absurd hfile hentry.not_isFile
    unfold children
    rw [ha.entry_eq]
    refine h.inStep_tree.bind fun _ _ _ => ?_
    obtain ⟨-, q, hq, rfl⟩ := ha
    rcases hfile.instanceSection_addInstances hq with hsection | hsection
    · rw [hsection]
      exact hhere e he hself
    · rw [hsection]
      exact hhere e he hself
  · obtain ⟨-, q, hq, rfl⟩ := id ha
    rw [children_addInstances hentry hq]
    refine h.inStep_tree.bind fun _ _ _ => (h.inStep_follow e q he hq).bind fun x y hxy => ?_
    rw [← hxy.1, hxy.2]
    exact hhere _ ha fun _ => rfl

theorem tree_of_children (ha : e.Tree a) (hi : s.instances.get? a = some i) :
    ∀ k ∈ i.children.map a.addInstance, e.Tree k := by
  intro k hk
  obtain ⟨n, hn, rfl⟩ := List.mem_map.1 hk
  exact ha.addInstance ((h.left.sound.instances a i hi).2.children n hn)

omit h in
theorem reads_dataOf (h : Shares files searched e s s) (ha : e.Tree a) :
    Guards (· = s) (dataOf a) := by
  unfold dataOf
  rw [ha.entry_eq]
  exact h.inStep_tree.keeps.bind fun _ _ => (h.inStep_instanceAt ha).keeps.imp fun _ _ => trivial

/-! ### The walk -/

omit h in
theorem inStep_descendantsOfAll {found found' : Address → Work Library (List Address)}
    {ks : List Address}
    (hks : ∀ k ∈ ks, InStep X (Both s t) (fun as bs => as = bs ∧ ∀ a ∈ as, e.Tree a) (found k)
      (found' k)) :
    InStep X (Both s t) (fun as bs => as = bs ∧ ∀ a ∈ as, e.Tree a) (descendantsOfAll found ks)
      (descendantsOfAll found' ks) := by
  induction ks with
  | nil => exact .pure ⟨rfl, by simp⟩
  | cons k ks ih =>
    rw [List.forall_mem_cons] at hks
    refine hks.1.bind fun as bs has => (ih hks.2).bind fun as' bs' has' => .pure ?_
    rw [has.1, has'.1] at *
    exact ⟨rfl, List.forall_mem_append.2 ⟨has.2, has'.2⟩⟩

/-- With a higher bound the walk finds what it found. -/
theorem inStep_descendantsWithin (hd : depth ≤ depth') (ha : e.Tree a) :
    InStep (fun _ => True) (Both s t) (fun as bs => as = bs ∧ ∀ a ∈ as, e.Tree a)
      (descendantsWithin depth a) (descendantsWithin depth' a) := by
  induction depth generalizing depth' a with
  | zero => exact fun _ _ _ => .excused trivial
  | succ depth ih =>
    cases depth' with
    | zero => exact absurd hd (Nat.not_succ_le_zero depth)
    | succ depth' =>
      rw [descendantsWithin, descendantsWithin]
      refine (h.inStep_children ha).bind fun ks _ hks => ?_
      obtain ⟨rfl, x, i, hx, -, hi, rfl⟩ := hks
      refine (inStep_descendantsOfAll fun k hk => ih (Nat.le_of_succ_le_succ hd)
        (h.tree_of_children hx hi k hk)).bind fun as bs has => .pure ⟨by rw [has.1], ?_⟩
      exact List.forall_mem_append.2 ⟨has.2, List.forall_mem_singleton.2 ha⟩

theorem descendantsWithin_unique {bs : List Address}
    (hs : (descendantsWithin depth e).outcome s = (.ok as, s'))
    (ht : (descendantsWithin depth' e).outcome t = (.ok bs, lib')) : as = bs := by
  have he : e.Tree e := ⟨h.root, .refl e⟩
  obtain ⟨as', _, has', -, rfl, -⟩ := (h.inStep_descendantsWithin
    (Nat.le_max_left depth depth') he).exists_ok ⟨rfl, rfl⟩ hs
  obtain ⟨bs', _, hbs', -, rfl, -⟩ := (h.right_refl.inStep_descendantsWithin
    (Nat.le_max_right depth depth') he).exists_ok ⟨rfl, rfl⟩ ht
  cases has'.symm.trans hbs'
  rfl

omit h in
theorem outcome_descendants (ha : e.Tree a) (hc : lib.instances.contains e) :
    (descendants a).outcome lib =
      (descendantsWithin (lib.instances.size + 1) a).outcome lib := by
  unfold descendants
  rw [ha.entry_eq, outcome_bind_ok _ (outcome_tree ha.1 hc), outcome_get_bind]

omit h in
/-- A walk through a tree that is there changes nothing. -/
theorem eq_of_descendants (h : Shares files searched e s s) (ha : e.Tree a)
    (has : (descendants a).outcome s = (.ok as, s')) : s' = s := by
  rw [outcome_descendants ha h.there] at has
  obtain ⟨_, _, -, ⟨hs', -⟩, -⟩ :=
    (h.inStep_descendantsWithin (Nat.le_refl _) ha).exists_ok ⟨rfl, rfl⟩ has
  exact hs'

theorem exists_descendants (has : (descendants e).outcome s = (.ok as, s')) :
    ∃ bs, (descendants e).outcome t = (.ok bs, t) := by
  have hsome := h.there_right
  rw [Table.contains_eq_isSome] at hsome
  have he : e.Tree e := ⟨h.root, .refl e⟩
  rcases h.root with hfile | hentry
  · obtain ⟨i, hi⟩ := Option.isSome_iff_exists.1 hsome
    have hi' := (h.agree e he).trans hi
    rw [outcome_descendants he h.there] at has
    obtain ⟨-, hchildren, -⟩ := descendantsWithin_of_isFile h.left.sound hfile hi' he has
    rw [outcome_descendants he h.there_right]
    exact ⟨[e], outcome_descendantsWithin_of_isFile hfile hi hchildren he _⟩
  · obtain ⟨bs, hbs, -, -⟩ := descendants_of_whole h.right.sound hentry h.there_right
      (h.right.whole h.root hsome)
    exact ⟨bs, hbs⟩

/-- The walk through the tree finds the same in both libraries. -/
theorem inStep_descendants :
    InStep (fun _ => True) (Both s t) (fun as bs => as = bs ∧ ∀ a ∈ as, e.Tree a) (descendants e)
      (descendants e) := by
  have he : e.Tree e := ⟨h.root, .refl e⟩
  apply InStep.both
  rcases has : (descendants e).outcome s with ⟨_ | as, s'⟩
  · exact .excused trivial
  · obtain ⟨bs, hbs⟩ := h.exists_descendants has
    have hwalk := hbs
    rw [outcome_descendants he h.there] at has
    rw [outcome_descendants he h.there_right] at hwalk
    obtain rfl := h.descendantsWithin_unique has hwalk
    obtain ⟨_, _, -, ⟨rfl, -⟩, -, htree⟩ := (h.inStep_descendantsWithin (Nat.le_refl _)
      he).exists_ok ⟨rfl, rfl⟩ has
    rw [hbs]
    exact .ok ⟨rfl, htree⟩ ⟨rfl, rfl⟩

end Shares

/-- The walk leads to a library that has the tree of the root and is left as it is by the same
walk, and stays in this tree. -/
theorem Reached.descendants_tree (hlib : Reached files searched lib) (ha : r.Tree a)
    (h : (descendants a).outcome lib = (.ok as, lib')) :
    Shares files searched r lib' lib' ∧ (descendants a).outcome lib' = (.ok as, lib') ∧
      ∀ x ∈ as, r.Tree x := by
  obtain ⟨lib₁, i, hlib₁, hi, hwalk⟩ := hlib.exists_walk ha h
  have hc : lib₁.instances.contains r := by
    rw [Table.contains_eq_isSome, hi]
    rfl
  have hshares := Shares.refl ha.1 hlib₁ hc
  obtain ⟨_, _, -, ⟨rfl, -⟩, -, htree⟩ := (hshares.inStep_descendantsWithin (Nat.le_refl _)
    ha).exists_ok ⟨rfl, rfl⟩ hwalk
  exact ⟨hshares, (Shares.outcome_descendants ha hc).trans hwalk, htree⟩

end Library

end Boardwright
