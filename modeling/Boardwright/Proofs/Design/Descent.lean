import Boardwright.Proofs.Design.Elsewhere
import Boardwright.Proofs.Design.Requires

/-!
# Which blocks are made where

An instance of a block is made under an address, and below it instances of the blocks that its
levels name, unless others take their place. Suppose that a relation of blocks and addresses is
`Inherited`: if it holds of an instance, it holds of the blocks that the levels of this instance
name, one name further down, and of the blocks that it puts in the place of others, where it puts
them. Then it holds of all instances that are made and of all replacements that are known below a
root for which it holds: `Inherited.keeps_createWithin`.

In particular each replacement that is known below a root, also one that was left behind by a
failure, puts in a block that the root requires: `Reached.requires_of_replaced`.
-/

namespace Boardwright

open Syntax Relation Work

variable {create : Address → Layer → Work Library Unit}

namespace Library

variable {files : Files} {searched : List Route} {A : Address → Address → Prop}
  {root here x a b : Address} {d : Definition} {l levels : Layer} {lib : Library} {n : String}
  {extension depth : Nat} {s : Simple} {v : Level}

/-- A relation of blocks and addresses that is passed down, to what the levels of an instance
name and to what takes the place of others below it. -/
structure Inherited (files : Files) (searched : List Route) (A : Address → Address → Prop) :
    Prop where
  named : ∀ {x here l v d s r b n}, A x here → IsLayer files searched x l → v ∈ l →
    v.definition = some d → s ∈ simplesOf d.body → s.block? = some r → d.lookup r = .ok b →
    IsName n → A b (here.addInstance n)
  replacing : ∀ {x here l b} {r : Definition × Reference × Replacement}, A x here →
    IsLayer files searched x l → r ∈ replacementsIn l → r.1.lookup r.2.2.block = .ok b →
    A b (here.addInstances r.2.1)

/-- A settled library in which the relation holds of each replacement below a root. -/
structure Respects (files : Files) (searched : List Route) (A : Address → Address → Prop)
    (root : Address) (lib : Library) : Prop where
  settled : Settled files searched lib
  replaced : ∀ k b, root.Tree k → lib.replaced.get? k = some b → A b k

/-! ### Steps that know no replacements -/

theorem Respects.congr {lib' : Library} (h : Respects files searched A root lib)
    (hs : Settled files searched lib') (hr : lib'.replaced = lib.replaced) :
    Respects files searched A root lib' :=
  ⟨hs, hr ▸ h.replaced⟩

theorem Respects.keeps_layerWithin (extension : Nat) (a : Address) :
    Keeps (Respects files searched A root) (IsLayer files searched a)
      (layerWithin extension a) :=
  Settled.keeps_layerWithin_of (·.settled) (fun h hs _ => h.congr hs) extension a

theorem steady_respects : Steady (fun _ => True) (Respects files searched A root) :=
  steady_of_replaced (·.settled) Respects.congr

theorem Respects.dropReplacements (h : Respects files searched A root lib) (asked : List Address) :
    Respects files searched A root (dropReplacements asked lib) := by
  refine ⟨h.settled.congr lib.instances _, ?_⟩
  have hreplaced := h.replaced
  unfold Library.dropReplacements
  generalize lib.replaced = t at hreplaced
  induction asked generalizing t with
  | nil => exact hreplaced
  | cons x asked ih =>
    refine ih (t.erase x) fun k b htree hk => hreplaced k b htree ?_
    rw [Table.get?_erase] at hk
    split at hk
    · cases hk
    · exact hk

/-! ### Making instances -/

namespace Inherited

/-- The block that a `new` statement makes an instance of. -/
theorem keeps_chosen (htree : root.Tree a) (pos : Pos) {block : Reference}
    (hblock : ∀ b, d.lookup block = .ok b → A b a) :
    Keeps (Respects files searched A root) (fun l => ∃ x, IsLayer files searched x l ∧ A x a)
      (chosen extension d pos a block) := by
  have hlayer : ∀ x, A x a → Keeps (Respects files searched A root)
      (fun l => ∃ x, IsLayer files searched x l ∧ A x a) (layerWithin extension x) :=
    fun x hx => (Respects.keeps_layerWithin extension x).imp fun l hl => ⟨x, hl, hx⟩
  rw [chosen_eq]
  refine Keeps.get.bind fun lib hlib => ?_
  cases hr : lib.replaced.get? a with
  | some r => exact hlayer r (hlib.replaced a r htree hr)
  | none =>
    refine (Keeps.ofExcept (P := fun b => A b a) fun b hb => ?_).bind fun b hb =>
      keeps_atStatement (hlayer b hb) d pos
    split at hb
    · cases hb
    · exact hblock b hb

theorem keeps_askReplacements {rs : List (Definition × Reference × Replacement)}
    (hrs : ∀ r ∈ rs, ∀ b, r.1.lookup r.2.2.block = .ok b → A b (here.addInstances r.2.1)) :
    Guards (Respects files searched A root) (askReplacements here rs) := by
  induction rs with
  | nil => exact .pure trivial
  | cons r rs ih =>
    rw [List.forall_mem_cons] at hrs
    refine Keeps.get.bind fun lib _ => ?_
    split
    · exact ih hrs.2
    · refine (Keeps.ofExcept hrs.1).bind fun b hb => ?_
      refine (Keeps.modify fun lib h => ?_).bind fun _ _ =>
        (ih hrs.2).bind fun _ _ => .pure trivial
      refine ⟨h.settled.congr lib.instances _, fun k c hk hget => ?_⟩
      by_cases hkey : k = here.addInstances r.2.1
      · rw [hkey, Table.get?_set_self] at hget
        rwa [hkey, ← Option.some.inj hget]
      · rw [Table.get?_set_of_ne _ _ hkey] at hget
        exact h.replaced k c hk hget

section

variable (hcreate : ∀ n l x, IsName n → IsLayer files searched x l → A x (here.addInstance n) →
  Guards (Respects files searched A root) (create (here.addInstance n) l))
  (htree : root.Tree here)

include hcreate htree

theorem keeps_statement (hs : s.Sound)
    (hblock : ∀ r b n, s.block? = some r → d.lookup r = .ok b → IsName n →
      A b (here.addInstance n)) :
    Guards (Respects files searched A root) (statement extension create here d s) := by
  by_cases hnew : Creates s
  · obtain ⟨target, mark, word, block, n, rfl, ht⟩ := hnew
    have hn : IsName n := hs n (by simp [ht])
    rw [statement_new ht]
    exact (keeps_chosen (htree.addInstance hn) _ fun b hb => hblock block.names b n rfl hb hn).bind
      fun l ⟨x, hx, hA⟩ => hcreate n l x hn hx hA
  · rw [statement_plain hnew]
    exact steady_respects.keeps_statement trivial hs fun _ _ _ _ => .pure trivial

theorem keeps_visit (hA : Inherited files searched A) (hl : IsLayer files searched x levels)
    (hx : A x here) (hv : v ∈ levels) :
    Guards (Respects files searched A root) (visit extension create here v) := by
  unfold visit
  split
  · exact .pure trivial
  · next d hd =>
      refine (Keeps.each (Q := fun _ => True) fun s hs => ?_).discard
      exact keeps_statement hcreate htree ((hl.sound v hv d hd).statements s hs)
        fun r b n hr hb hn => hA.named hx hl hv hd hs hr hb hn

theorem keeps_fill (hA : Inherited files searched A) (hl : IsLayer files searched x levels)
    (hx : A x here) :
    Guards (Respects files searched A root) (fill extension create here levels) := by
  refine (keeps_askReplacements fun r hr b => hA.replacing hx hl hr).bind fun asked _ =>
    Keeps.finally_ (.forM fun v hv => ?_) fun lib h => h.dropReplacements asked
  exact keeps_visit hcreate htree hA hl hx (List.mem_reverse.1 hv)

end

variable (hA : Inherited files searched A)

include hA

/-- The making of an instance keeps what is passed down. -/
theorem keeps_createWithin (extension depth : Nat) (htree : root.Tree here)
    (hl : IsLayer files searched x levels) (hx : A x here) (parent : Option Address) :
    Guards (Respects files searched A root)
      (createWithin extension depth parent here levels) := by
  induction depth generalizing here x levels parent with
  | zero => exact .throw _
  | succ depth ih =>
    rw [createWithin_succ]
    refine (Keeps.modify fun lib h => h.congr (h.settled.place _ _ _) (replaced_place ..)).bind
      fun _ _ => .onFailure ?_ fun lib h => h.congr (h.settled.congr _ _) rfl
    exact keeps_fill (fun n l y hn hy hy' => ih (htree.addInstance hn) hy hy' _) htree hA hl hx

theorem keeps_treeWithin (extension nesting : Nat) (hroot : A root root) :
    Guards (Respects files searched A root) (treeWithin extension nesting root) :=
  Library.keeps_treeWithin (Respects.keeps_layerWithin extension root) fun _ hl =>
    hA.keeps_createWithin extension nesting ⟨hl.isRoot, .refl root⟩ hl hroot none

end Inherited

/-! ### Blocks that a root requires -/

theorem IsLayer.exists_requires_named (hl : IsLayer files searched x l) (hv : v ∈ l)
    (hd : v.definition = some d) (hs : s ∈ simplesOf d.body) {r : Reference}
    (hr : s.block? = some r) (hb : d.lookup r = .ok b) :
    ∃ y, ReflTransGen (Requires files searched) x y ∧ Requires files searched y b := by
  obtain ⟨y, hy, hnot, hdef⟩ := hl.exists_required hv hd
  exact ⟨y, hy, .named hnot hdef hs hr hb⟩

/-- What takes the place of another block is required by a block that has room for the path to
this place. -/
theorem IsLayer.exists_requires_replacing (hl : IsLayer files searched x l)
    {r : Definition × Reference × Replacement} (hr : r ∈ replacementsIn l)
    (hb : r.1.lookup r.2.2.block = .ok b) :
    ∃ y, ReflTransGen (Requires files searched) x y ∧ Requires files searched y b ∧
      2 * r.2.1.length ≤ room files searched y := by
  obtain ⟨v, hv, d, hd, e, he, rfl⟩ := exists_of_mem_replacementsIn hr
  obtain ⟨y, hy, hnot, hdef⟩ := hl.exists_required hv hd
  obtain ⟨s, hs, hblock⟩ := exists_block_of_mem_replacements hdef he
  exact ⟨y, hy, .named hnot hdef hs hblock hb, length_le_room hdef (List.mem_map_of_mem he)⟩

theorem inherited_requires (files : Files) (searched : List Route) (root : Address) :
    Inherited files searched fun x _ => ReflTransGen (Requires files searched) root x where
  named hx hl hv hd hs hr hb _ := by
    obtain ⟨y, hy, hreq⟩ := hl.exists_requires_named hv hd hs hr hb
    exact (hx.trans hy).tail hreq
  replacing hx hl hr hb := by
    obtain ⟨y, hy, hreq, -⟩ := hl.exists_requires_replacing hr hb
    exact (hx.trans hy).tail hreq

theorem Reached.requires_of_replaced (h : Reached files searched lib) :
    ∀ k b, root.Tree k → lib.replaced.get? k = some b →
      ReflTransGen (Requires files searched) root b := by
  induction h with
  | fresh => exact fun k b _ hk => nomatch hk
  | @definition lib h a ih =>
    rcases hout : (Library.definition a).outcome lib with ⟨r, lib'⟩
    rw [(frame_definition hout).2]
    exact ih
  | @layer lib h extension a ih =>
    rcases hout : (layerWithin extension a).outcome lib with ⟨r, lib'⟩
    rw [(frame_layerWithin hout).2]
    exact ih
  | @tree lib h extension nesting a ih =>
    have hsettled := h.sound.settled
    by_cases ha : a = root
    · subst ha
      exact ((inherited_requires files searched a).keeps_treeWithin extension nesting .refl lib
        ⟨hsettled, ih⟩).1.replaced
    · intro k b hk hget
      refine ih k b hk ?_
      rwa [← (sameElsewhere_treeWithin hsettled extension nesting a).replaced k]
      exact fun htree => ha (htree.eq_of_tree hk)

end Library

end Boardwright
