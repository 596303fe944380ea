import Boardwright.Proofs.Design.Descent
import Boardwright.Proofs.Design.Failures
import Boardwright.Proofs.Work.Ends

/-!
# The making of a tree ends

If no block that a root requires requires itself, directly or indirectly, the making of the tree
of this root ends: with limits that are large enough it has an outcome that is no endless
recursion, and this outcome is the same for all larger limits. It does so in each library that
can be reached, and whatever the blocks put in the place of others: `treeWithin_ends`.

A block that takes the place of another one below an instance need not be required by the block
that it is put into, so blocks do not simply get cheaper on the way down. But the path to the
place of a replacement is at most as long as the block that asks for it has room for, and the new
block is cheaper than this one by this room. So the cost of a block and the depth of the address
at which it is made, taken together, stay within a budget: `inherited_affordable`.
-/

namespace Boardwright

open Syntax Relation Failure Work

namespace Library

variable {files : Files} {searched : List Route} {budget : Nat} {A : Address → Address → Prop}
  {extension extension' depth depth' : Nat} {root here x a b : Address} {d : Definition}
  {l levels : Layer} {lib : Library} {n : String}

/-- A block that a root requires and that can be paid for at an address. -/
def Affordable (files : Files) (searched : List Route) (root : Address) (budget : Nat)
    (x here : Address) : Prop :=
  ReflTransGen (Requires files searched) root x ∧ cost files searched x + here.depth ≤ budget

section

variable (hacyclic : ∀ x, ReflTransGen (Requires files searched) root x →
  ¬TransGen (Requires files searched) x x)

include hacyclic

/-- What is required below an instance or takes the place of another block there can be paid
for. -/
theorem inherited_affordable (budget : Nat) :
    Inherited files searched (Affordable files searched root budget) where
  named {x here l v d s r b n} hx hl hv hd hs hr hb hn := by
    obtain ⟨y, hy, hreq⟩ := hl.exists_requires_named hv hd hs hr hb
    have hreach := hx.1.trans hy
    have hcost := cost_add_room_le (hacyclic y hreach) hreq
    have hle := cost_le_of_reflTransGen hy
    have hroom := two_le_room files searched y
    have hdepth := (here.depth_addInstance hn).2
    have hbudget := hx.2
    exact ⟨hreach.tail hreq, by omega⟩
  replacing {x here l b r} hx hl hr hb := by
    obtain ⟨y, hy, hreq, hroom⟩ := hl.exists_requires_replacing hr hb
    have hreach := hx.1.trans hy
    have hcost := cost_add_room_le (hacyclic y hreach) hreq
    have hle := cost_le_of_reflTransGen hy
    have hnames := (areNames_of_mem_replacementsIn hl.sound hr).1
    have hdepth := here.depth_addInstances_le hnames
    have hbudget := hx.2
    exact ⟨hreach.tail hreq, by omega⟩

/-- A limit above the cost of a block is not met while its layer is looked for. -/
theorem layerWithin_ends (hs : Settled files searched lib)
    (ha : ReflTransGen (Requires files searched) root a)
    (hcost : cost files searched a < extension) (hle : extension ≤ extension') :
    (layerWithin extension' a).outcome lib = (layerWithin extension a).outcome lib ∧
      ((layerWithin extension a).outcome lib).1 ≠ .error (.fault .endlessRecursion) := by
  induction extension generalizing extension' a lib with
  | zero => exact absurd hcost (Nat.not_lt_zero _)
  | succ extension ih =>
    obtain ⟨extension', rfl⟩ := Nat.exists_eq_add_one_of_ne_zero (Nat.ne_zero_of_lt hle)
    by_cases hknown : ∃ l, lib.HasLayer a l
    · obtain ⟨l, hl⟩ := hknown
      rw [layerWithin_of_hasLayer hl, layerWithin_of_hasLayer hl]
      exact ⟨rfl, nofun⟩
    · obtain ⟨hb, hget⟩ := not_hasLayer hknown
      rw [outcome_layerWithin hb hget, outcome_layerWithin hb hget]
      rcases hd : (definition a).outcome lib with ⟨e | d, lib₁⟩
      · rw [outcome_bind_error _ hd, outcome_bind_error _ hd]
        exact ⟨rfl, fun h => (raises_definition a lib e lib₁ hd).2 (Except.error.inj h)⟩
      obtain ⟨hs₁, -, hdef⟩ := hs.definition hd
      rw [outcome_bind_ok _ hd, outcome_bind_ok _ hd]
      cases hbase : d.lookup d.base with
      | error e =>
        exact ⟨rfl, fun h => (d.only_lookup d.base e hbase).2 (Except.error.inj h)⟩
      | ok base =>
        have hreq : Requires files searched a base := .base hb ((hdef d).1 rfl) hbase
        have hlt := cost_add_room_le (hacyclic a ha) hreq
        have hroom := two_le_room files searched a
        have hbelow : cost files searched base < extension := by omega
        obtain ⟨hsame, hne⟩ := ih hs₁ (ha.tail hreq) hbelow (Nat.le_of_succ_le_succ hle)
        rw [outcome_ofExcept_ok_bind, outcome_ofExcept_ok_bind, outcome_bind,
          outcome_bind, hsame]
        refine ⟨rfl, ?_⟩
        rcases hrest : (layerWithin extension base).outcome lib₁ with ⟨e | rest, lib₂⟩
        · simpa [hrest] using hne
        · cases hdata : d.values with
          | error e => exact fun h => (d.only_values e hdata).2 (Except.error.inj h)
          | ok data => exact nofun

theorem ends_layerWithin (hx : Affordable files searched root budget x here)
    (hext : budget < extension) (hle : extension ≤ extension') :
    Ends (Respects files searched A root) (layerWithin extension x)
      (layerWithin extension' x) := by
  have hcost : cost files searched x < extension :=
    Nat.lt_of_le_of_lt ((Nat.le_add_right _ _).trans hx.2) hext
  exact ⟨fun lib h => (layerWithin_ends hacyclic h.settled hx.1 hcost hle).1,
    fun lib h => (layerWithin_ends hacyclic h.settled hx.1 hcost hle).2⟩

end

/-! ### Statements and instances -/

theorem ends_atStatement {I : Library → Prop} {w w' : Work Library Layer} (hw : Ends I w w')
    (d : Definition) (pos : Pos) : Ends I (atStatement d pos w) (atStatement d pos w') := by
  constructor
  · intro lib hlib
    rw [outcome_atStatement, outcome_atStatement, hw.same lib hlib]
  · intro lib hlib
    have hne := hw.finite lib hlib
    rw [outcome_atStatement]
    rcases hout : w.outcome lib with ⟨(r | f | ⟨m, fs⟩ | c) | l, lib'⟩ <;> rw [hout] at hne
    · nofun
    · exact hne
    · nofun
    · nofun
    · nofun

section

variable (hlayer : ∀ {x here}, A x here → Ends (Respects files searched A root)
  (layerWithin extension x) (layerWithin extension' x))

include hlayer

theorem ends_chosen (htree : root.Tree a) (pos : Pos) {block : Reference}
    (hblock : ∀ b, d.lookup block = .ok b → A b a) :
    Ends (Respects files searched A root) (chosen extension d pos a block)
      (chosen extension' d pos a block) := by
  rw [chosen_eq, chosen_eq]
  refine .get_bind fun lib hlib => ?_
  cases hr : lib.replaced.get? a with
  | some r => exact hlayer (hlib.replaced a r htree hr)
  | none =>
    refine .bind (P := fun b => A b a) (.ofExcept fun b hb => ?_)
      (.of_raises (.ofExcept (only_named d block))) fun b hb => ends_atStatement (hlayer hb) d pos
    split at hb
    · cases hb
    · exact hblock b hb

theorem ends_statement {create create' : Address → Layer → Work Library Unit} {s : Simple}
    (hs : s.Sound) (htree : root.Tree here)
    (hblock : ∀ r b n, s.block? = some r → d.lookup r = .ok b → IsName n →
      A b (here.addInstance n))
    (hcreate : ∀ n l x, IsName n → IsLayer files searched x l → A x (here.addInstance n) →
      Ends (Respects files searched A root) (create (here.addInstance n) l)
        (create' (here.addInstance n) l)) :
    Ends (Respects files searched A root) (statement extension create here d s)
      (statement extension' create' here d s) := by
  by_cases hnew : Creates s
  · obtain ⟨target, mark, word, block, n, rfl, ht⟩ := hnew
    have hn : IsName n := hs n (by simp [ht])
    have hb := fun b hb => hblock block.names b n rfl hb hn
    have htree := htree.addInstance hn
    rw [statement_new ht, statement_new ht]
    exact .bind (Inherited.keeps_chosen htree _ hb) (ends_chosen hlayer htree _ hb)
      fun l ⟨x, hx, hA⟩ => hcreate n l x hn hx hA
  · have hsame : ∀ e c, statement e c here d s = statement 0 (fun _ _ => pure ()) here d s :=
      fun _ _ => statement_plain hnew
    rw [hsame extension create, hsame extension' create']
    exact .of_raises (raises_plain hnew)

theorem ends_fill (hA : Inherited files searched A) (htree : root.Tree here)
    (hl : IsLayer files searched x levels) (hx : A x here)
    (hcreate : ∀ n l x, IsName n → IsLayer files searched x l → A x (here.addInstance n) →
      Ends (Respects files searched A root)
        (createWithin extension depth (some here) (here.addInstance n) l)
        (createWithin extension' depth' (some here) (here.addInstance n) l)) :
    Ends (Respects files searched A root)
      (fill extension (createWithin extension depth (some here)) here levels)
      (fill extension' (createWithin extension' depth' (some here)) here levels) := by
  have hkeeps : ∀ n l x, IsName n → IsLayer files searched x l → A x (here.addInstance n) →
      Guards (Respects files searched A root)
        (createWithin extension depth (some here) (here.addInstance n) l) :=
    fun n l y hn hy hy' => hA.keeps_createWithin extension depth (htree.addInstance hn) hy hy' _
  refine .bind (Inherited.keeps_askReplacements fun r hr b => hA.replacing hx hl hr)
    (.of_raises (raises_askReplacements here _)) fun asked _ =>
    .finally_ (.forM (fun v hv => ?_) fun v hv => ?_)
  · exact Inherited.keeps_visit hkeeps htree hA hl hx (List.mem_reverse.1 hv)
  · have hv : v ∈ levels := List.mem_reverse.1 hv
    unfold visit
    split
    · exact .of_raises (.pure _)
    · next d hd =>
        have hsound := (hl.sound v hv d hd).statements
        have hblock : ∀ s ∈ simplesOf d.body, ∀ r b n, s.block? = some r → d.lookup r = .ok b →
            IsName n → A b (here.addInstance n) :=
          fun s hs r b n hr hb hn => hA.named hx hl hv hd hs hr hb hn
        refine Ends.discard (.each (Q := fun _ => True) (fun s hs => ?_) fun s hs => ?_)
        · exact Inherited.keeps_statement hkeeps htree (hsound s hs) (hblock s hs)
        · exact ends_statement hlayer (hsound s hs) htree (hblock s hs) hcreate

/-- A limit above the budget, less the depth of the address, is not met while an instance is made
of a block that can be paid for. -/
theorem ends_createWithin (hA : Inherited files searched A)
    (hbudget : ∀ {x here}, A x here → here.depth ≤ budget) (htree : root.Tree here)
    (hl : IsLayer files searched x levels) (hx : A x here)
    (hdepth : budget < depth + here.depth) (hle : depth ≤ depth') (parent : Option Address) :
    Ends (Respects files searched A root) (createWithin extension depth parent here levels)
      (createWithin extension' depth' parent here levels) := by
  induction depth generalizing depth' parent here x levels with
  | zero =>
    have hlow := hbudget hx
    omega
  | succ depth ih =>
    obtain ⟨depth', rfl⟩ := Nat.exists_eq_add_one_of_ne_zero (Nat.ne_zero_of_lt hle)
    rw [createWithin_succ, createWithin_succ]
    refine .bind (.modify fun lib h => h.congr (h.settled.place _ _ _) (replaced_place ..))
      (.of_raises (.modify _)) fun _ _ =>
        .onFailure (ends_fill hlayer hA htree hl hx fun n l y hn hy hy' => ?_)
    have hdeeper := (here.depth_addInstance hn).1
    exact ih (htree.addInstance hn) hy hy' (by omega) (Nat.le_of_succ_le_succ hle) _

end

/-- If no block that a root requires requires itself, the making of its tree ends: there is a
limit for which it has an outcome that is no endless recursion, and all larger limits give the
same outcome. -/
theorem treeWithin_ends (hlib : Reached files searched lib) (root : Address)
    (hacyclic : ∀ x, ReflTransGen (Requires files searched) root x →
      ¬TransGen (Requires files searched) x x) :
    ∃ limit r lib', r ≠ .error (.fault .endlessRecursion) ∧
      ∀ extension nesting, limit ≤ extension → limit ≤ nesting →
        (treeWithin extension nesting root).outcome lib = (r, lib') := by
  -- the budget pays for the tree and for the replacements that were left by earlier failures
  let left := lib.replaced.entries.map fun e => cost files searched e.2 + e.1.depth
  let budget := cost files searched root + root.depth + left.sum
  have hA := inherited_affordable hacyclic budget
  have hroot : Affordable files searched root budget root root := ⟨.refl, Nat.le_add_right _ _⟩
  have hends : ∀ extension nesting, budget + 1 ≤ extension → budget + 1 ≤ nesting →
      Work.Ends (Respects files searched (Affordable files searched root budget) root)
        (treeWithin (budget + 1) (budget + 1) root) (treeWithin extension nesting root) := by
    intro extension nesting hext hnest
    have hlayer : ∀ {x here}, Affordable files searched root budget x here →
        Work.Ends (Respects files searched (Affordable files searched root budget) root)
          (layerWithin (budget + 1) x) (layerWithin extension x) :=
      fun hx => ends_layerWithin hacyclic hx (Nat.lt_succ_self _) hext
    unfold treeWithin
    split
    · exact .of_raises (.throw (ordinary_fault nofun))
    · refine .get_bind fun lib _ => ?_
      split
      · exact .of_raises (.pure _)
      · refine .bind (Respects.keeps_layerWithin _ root) (hlayer hroot) fun l hl => ?_
        exact ends_createWithin hlayer hA (fun hx => (Nat.le_add_left _ _).trans hx.2)
          ⟨hl.isRoot, .refl root⟩ hl hroot (by omega) hnest none
  have hlib : Respects files searched (Affordable files searched root budget) root lib := by
    refine ⟨hlib.sound.settled, fun k b hk hget => ?_⟩
    have hle : cost files searched b + k.depth ≤ left.sum :=
      List.le_sum_of_mem (List.mem_map.2 ⟨_, Table.mem_entries_of_get? hget, rfl⟩)
    exact ⟨hlib.requires_of_replaced k b hk hget, hle.trans (Nat.le_add_left _ _)⟩
  exact ⟨budget + 1, _, ((treeWithin (budget + 1) (budget + 1) root).outcome lib).2,
    (hends _ _ le_rfl le_rfl).finite lib hlib, fun m n hm hn => (hends m n hm hn).same lib hlib⟩

/-- A module that puts another one into a part of a part, where this one has an instance of the
block that it is put into. -/
def redirected : Files where
  texts := ⟨[(["f"], "module L: signal p\nmodule X: l = new L\nmodule Y: x = new X\n" ++
    "module D: x = new X\nmodule M: y = new Y; y.x.l -> D\n")]⟩

/-- The tree of `M` has an instance of `X` in the part `l` of another one, and its making ends. -/
theorem treeWithin_ends_redirected :
    (∀ k ∈ [Address.mk "f:M::y.x", ⟨"f:M::y.x.l.x"⟩],
      (((treeWithin 3 7 ⟨"f:M"⟩).outcome { files := redirected }).2.instances.get? k).map
        (fun i => i.levels.map Level.address) = some [⟨"f:X"⟩, ⟨"<Built-in>:Module"⟩]) ∧
    ∃ limit r lib', r ≠ .error (.fault .endlessRecursion) ∧
      ∀ extension nesting, limit ≤ extension → limit ≤ nesting →
        (treeWithin extension nesting ⟨"f:M"⟩).outcome { files := redirected } = (r, lib') := by
  let blocks : List Address :=
    [⟨"<Built-in>:Module"⟩, ⟨"f:L"⟩, ⟨"f:X"⟩, ⟨"f:Y"⟩, ⟨"f:D"⟩, ⟨"f:M"⟩]
  have hrank : ∀ a ∈ blocks, ∀ b ∈ required redirected [] a,
      b ∈ blocks ∧ blocks.idxOf b < blocks.idxOf a := by decide +kernel
  refine ⟨by decide +kernel, ?_⟩
  exact treeWithin_ends .fresh ⟨"f:M"⟩ (acyclic_of_rank blocks.idxOf hrank (by decide))

end Library

end Boardwright
